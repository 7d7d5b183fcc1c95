import TensorRecipe.Proofs.Tree.Outlines

/-!
# Brackets

What a walk tells a visitor is well bracketed.  `Outline.moments` lists what happens on a walk
through an outline, each with the path from the root to where it happens; a handle that names
nothing is passed over.  A visitor that declines by a predicate on what it visits is told these
moments one after another, up to the first at which something is missing (`Visitor.visitPart_play`).

Main statement: `Visitor.walk_bracketed`.
-/

namespace TensorRecipe

/-- Something happens at a path: the visitor is told of an entry or a leave, or nothing is found
there. -/
inductive Moment where
  | enter (path : List Nat) (visited : Visited)
  | leave (path : List Nat) (visited : Visited)
  | missing (path : List Nat) (key : Key)

namespace Moment

/-- Where it happens. -/
def path : Moment → List Nat
  | enter path _ => path
  | leave path _ => path
  | missing path _ => path

/-- What it is about. -/
def key : Moment → Key
  | enter _ visited => visited.key
  | leave _ visited => visited.key
  | missing _ key => key

@[simp] theorem path_enter (p : List Nat) (x : Visited) : (enter p x).path = p := rfl

@[simp] theorem path_leave (p : List Nat) (x : Visited) : (leave p x).path = p := rfl

@[simp] theorem path_missing (p : List Nat) (key : Key) : (missing p key).path = p := rfl

/-- Whether what is at the path is left in these moments. -/
def isLeft (path : List Nat) (moments : List Moment) : Bool :=
  moments.any fun
    | leave other _ => other = path
    | _ => false

/-- An entry that is accepted and not left in these moments. -/
def pending? (accepts : Visited → Bool) (moments : List Moment) :
    Moment → Option (List Nat × Visited)
  | enter path visited =>
    if accepts visited && !isLeft path moments then some (path, visited) else none
  | _ => none

/-- What was entered and accepted and has not been left, in the order of entry, with the paths. -/
def opened (accepts : Visited → Bool) (moments : List Moment) : List (List Nat × Visited) :=
  moments.filterMap (pending? accepts moments)

end Moment

namespace Outline

mutual

/-- What happens on a walk through an outline that hangs at a path: an entry, and if that is
accepted all that happens below, then the leave. -/
def moments (accepts : Visited → Bool) : List Nat → Outline → List Moment
  | path, missing key => [.missing path key]
  | path, found visited parts =>
    .enter path visited ::
      if accepts visited then momentsAll accepts path 0 parts ++ [.leave path visited] else []

/-- What happens on walks through several outlines that hang below a path, numbered from `k` on. -/
def momentsAll (accepts : Visited → Bool) (path : List Nat) : Nat → List Outline → List Moment
  | _, [] => []
  | k, o :: os => moments accepts (path ++ [k]) o ++ momentsAll accepts path (k + 1) os

end

end Outline

/-- The way from the root by the path down to what has the key leads through `line`, the outermost
first and each with the path to it. -/
inductive Arena.Line (a : Arena) (root : NodeId) : List (List Nat × Visited) → List Nat → Key → Prop
  | root : a.Line root [] [] (.node root)
  | part {line : List (List Nat × Visited)} {path : List Nat} {visited : Visited} {k : Nat}
      {key : Key} (above : a.Line root line path visited.key) (there : a.Has visited)
      (part : visited.parts[k]? = some key) :
      a.Line root (line ++ [(path, visited)]) (path ++ [k]) key

variable {a : Arena} {accepts : Visited → Bool} {root : NodeId} {p q : List Nat} {x : Visited}
  {ms ns : List Moment} {m : Moment} {o : Outline} {os : List Outline} {k : Nat} {key : Key}
  {line : List (List Nat × Visited)}

/-! ### What is open -/

namespace Moment

theorem isLeft_of_path_ne (h : ∀ m ∈ ms, m.path ≠ p) : isLeft p ms = false := by
  refine List.any_eq_false.2 fun m hm => ?_
  cases m with
  | leave other visited => simpa using h _ hm
  | _ => simp

theorem isLeft_append : isLeft p (ms ++ ns) = (isLeft p ms || isLeft p ns) := List.any_append

theorem pending?_append (h : ∀ n ∈ ns, n.path ≠ m.path) :
    pending? accepts (ms ++ ns) m = pending? accepts ms m := by
  cases m with
  | enter path visited =>
    have hns : isLeft path ns = false := isLeft_of_path_ne h
    rw [pending?, pending?, isLeft_append, hns, Bool.or_false]
  | _ => rfl

theorem pending?_append_left (h : ∀ n ∈ ms, n.path ≠ m.path) :
    pending? accepts (ms ++ ns) m = pending? accepts ns m := by
  cases m with
  | enter path visited =>
    have hms : isLeft path ms = false := isLeft_of_path_ne h
    rw [pending?, pending?, isLeft_append, hms, Bool.false_or]
  | _ => rfl

/-- Moments at different paths do not open or close one another. -/
theorem opened_append (h : ∀ m ∈ ms, ∀ n ∈ ns, m.path ≠ n.path) :
    opened accepts (ms ++ ns) = opened accepts ms ++ opened accepts ns := by
  rw [opened, List.filterMap_append, opened, opened]
  refine congrArg₂ (· ++ ·) (List.filterMap_congr ?_) (List.filterMap_congr ?_)
  · exact fun m hm => pending?_append fun n hn => (h m hm n hn).symm
  · exact fun n hn => pending?_append_left fun m hm => h m hm n hn

theorem opened_enter (hx : accepts x) : opened accepts [.enter p x] = [(p, x)] := by
  simp [opened, pending?, hx, isLeft]

/-- What is left again is not open, and neither opens nor closes anything between. -/
theorem opened_wrap (h : ∀ m ∈ ms, m.path ≠ p) :
    opened accepts (.enter p x :: ms ++ [.leave p x]) = opened accepts ms := by
  have hleft : isLeft p (.enter p x :: ms ++ [.leave p x]) = true := by
    rw [isLeft_append]
    simp [isLeft]
  have hmiddle : ∀ m ∈ ms, pending? accepts (.enter p x :: ms ++ [.leave p x]) m =
      pending? accepts ms m := by
    intro m hm
    rw [pending?_append (by simpa using (h m hm).symm)]
    have henter : ∀ n ∈ [Moment.enter p x], n.path ≠ m.path := by simpa using (h m hm).symm
    exact pending?_append_left henter
  rw [opened, List.cons_append, List.filterMap_cons_none, List.filterMap_append, opened]
  · rw [← List.cons_append, List.filterMap_congr hmiddle]
    simp [pending?]
  · rw [← List.cons_append, pending?, hleft]
    simp

end Moment

open Moment (opened opened_append opened_enter opened_wrap)

/-! ### What happens below what -/

namespace Outline

theorem eq_of_prefix {i j : Nat} (hi : p ++ [i] <+: q) (hj : p ++ [j] <+: q) : i = j := by
  have h := (List.prefix_of_prefix_length_le hi hj (by simp)).eq_of_length (by simp)
  simpa using h

theorem mem_moments_found {parts : List Outline} : m ∈ (found x parts).moments accepts p ↔
    m = .enter p x ∨ accepts x ∧ (m ∈ momentsAll accepts p 0 parts ∨ m = .leave p x) := by
  rw [moments, List.mem_cons]
  split <;> simp [*]

theorem momentsAll_append (accepts : Visited → Bool) (p : List Nat) (os' : List Outline) :
    ∀ (os : List Outline) (k : Nat), momentsAll accepts p k (os ++ os') =
      momentsAll accepts p k os ++ momentsAll accepts p (k + os.length) os'
  | [], k => by simp [momentsAll]
  | o :: os, k => by
    have hk : k + (o :: os).length = k + 1 + os.length := by simp only [List.length_cons]; omega
    rw [List.cons_append, momentsAll, momentsAll, momentsAll_append accepts p os' os, hk,
      List.append_assoc]

theorem exists_of_mem_momentsAll :
    ∀ {os : List Outline} {k : Nat}, m ∈ momentsAll accepts p k os →
      ∃ before o behind, os = before ++ o :: behind ∧
        m ∈ o.moments accepts (p ++ [k + before.length])
  | [], _, h => by simp [momentsAll] at h
  | o :: os, k, h => by
    rw [momentsAll, List.mem_append] at h
    rcases h with h | h
    · exact ⟨[], o, os, rfl, h⟩
    · obtain ⟨before, o', behind, rfl, h⟩ := exists_of_mem_momentsAll h
      refine ⟨o :: before, o', behind, rfl, ?_⟩
      rwa [List.length_cons, Nat.add_comm before.length, ← Nat.add_assoc]

theorem prefix_of_mem_moments (o : Outline) :
    ∀ {p : List Nat}, m ∈ o.moments accepts p → p <+: m.path := by
  induction o using Outline.induct with
  | missing key =>
    intro p h
    rw [moments, List.mem_singleton] at h
    rw [h]
    exact List.prefix_rfl
  | found x parts ih =>
    intro p h
    obtain rfl | ⟨-, h | rfl⟩ := mem_moments_found.1 h
    · exact List.prefix_rfl
    · obtain ⟨before, o, behind, rfl, ho⟩ := exists_of_mem_momentsAll h
      exact (List.prefix_append p _).trans (ih o (by simp) ho)
    · exact List.prefix_rfl

/-- What happens below a path is not at the path, and lies below the parts that are meant. -/
theorem below_of_mem_momentsAll (h : m ∈ momentsAll accepts p k os) :
    (p <+: m.path ∧ m.path ≠ p) ∧ ∀ j, (j < k ∨ k + os.length ≤ j) → ¬ p ++ [j] <+: m.path := by
  obtain ⟨before, o, behind, rfl, ho⟩ := exists_of_mem_momentsAll h
  have hpath := prefix_of_mem_moments o ho
  refine ⟨⟨(List.prefix_append p _).trans hpath, fun heq => ?_⟩, fun j hj hpre => ?_⟩
  · have := hpath.length_le
    simp [heq] at this
  · have := eq_of_prefix hpath hpre
    simp only [List.length_append, List.length_cons] at hj
    omega

theorem opened_momentsAll :
    ∀ {os : List Outline} {k : Nat}, (∀ o ∈ os, ∀ p, opened accepts (o.moments accepts p) = []) →
      opened accepts (momentsAll accepts p k os) = []
  | [], _, _ => rfl
  | o :: os, k, h => by
    rw [momentsAll, opened_append, h o (by simp),
      opened_momentsAll fun o ho => h o (List.mem_cons_of_mem _ ho), List.append_nil]
    intro m hm n hn heq
    exact (below_of_mem_momentsAll hn).2 k (.inl k.lt_succ_self) (heq ▸ prefix_of_mem_moments o hm)

theorem exists_mem_moments (h : a.Outlines key o) (accepts : Visited → Bool) (p : List Nat) :
    ∃ n ∈ o.moments accepts p, n.path = p ∧ n.key = key := by
  cases o with
  | missing key' =>
    obtain ⟨rfl, -⟩ := Arena.outlines_missing.1 h
    exact ⟨.missing p key', by simp [moments], rfl, rfl⟩
  | found x parts =>
    obtain ⟨rfl, -, -⟩ := Arena.outlines_found.1 h
    exact ⟨.enter p x, mem_moments_found.2 (.inl rfl), rfl, rfl⟩

theorem exists_mem_momentsAll (accepts : Visited → Bool) (p : List Nat) :
    ∀ {keys : List Key} {os : List Outline} {j k : Nat}, List.Forall₂ a.Outlines keys os →
      keys[k]? = some key →
        ∃ n ∈ momentsAll accepts p j os, n.path = p ++ [j + k] ∧ n.key = key
  | [], [], _, _, .nil, hkey => by simp at hkey
  | _ :: _, o :: os, j, 0, .cons h _, hkey => by
    cases hkey
    obtain ⟨n, hn, hpath⟩ := exists_mem_moments h accepts (p ++ [j])
    exact ⟨n, by simp [momentsAll, hn], hpath⟩
  | _ :: _, o :: os, j, k + 1, .cons _ hs, hkey => by
    obtain ⟨n, hn, hpath, hnkey⟩ := exists_mem_momentsAll accepts p (j := j + 1) hs hkey
    refine ⟨n, List.mem_append_right _ hn, ?_, hnkey⟩
    rw [hpath, Nat.add_right_comm, Nat.add_assoc]

/-- Nothing is open once all that happens on a walk has happened. -/
theorem opened_moments (o : Outline) : ∀ p, opened accepts (o.moments accepts p) = [] := by
  induction o using Outline.induct with
  | missing key => exact fun _ => rfl
  | found x parts ih =>
    intro p
    rw [moments]
    split
    · rw [← List.cons_append, opened_wrap fun m hm => (below_of_mem_momentsAll hm).1.2]
      exact opened_momentsAll ih
    · next hx => simp [opened, Moment.pending?, hx]

/-- What happens at the path and below it is all that happens on a walk through the outline of what
has the key, between `pre` and `post`; the way there leads through what is open then. -/
structure Located (a : Arena) (accepts : Visited → Bool) (root : NodeId)
    (line : List (List Nat × Visited)) (ms : List Moment) (p : List Nat) (key : Key) (o : Outline)
    (pre post : List Moment) : Prop where
  split : ms = pre ++ o.moments accepts p ++ post
  outlines : a.Outlines key o
  line : a.Line root (line ++ opened accepts pre) p key
  apart : ∀ n ∈ pre ++ post, ¬ p <+: n.path

theorem Located.of_part {before behind : List Outline} {o' : Outline} {pre post : List Moment}
    (hx : accepts x) (hq : p ++ [before.length] <+: q)
    (h : Located a accepts root (line ++ [(p, x)]) (o.moments accepts (p ++ [before.length])) q key
      o' pre post) :
    Located a accepts root line ((found x (before ++ o :: behind)).moments accepts p) q key o'
      (.enter p x :: (momentsAll accepts p 0 before ++ pre))
      (post ++ momentsAll accepts p (before.length + 1) behind ++ [.leave p x]) := by
  have hinside : ∀ n ∈ pre, p ++ [before.length] <+: n.path := fun n hn =>
    prefix_of_mem_moments o (by rw [h.split]; simp [hn])
  have hbefore : ∀ n ∈ momentsAll accepts p 0 before, ¬ p ++ [before.length] <+: n.path := fun n hn =>
    (below_of_mem_momentsAll hn).2 _ (.inr (by simp))
  have hbehind : ∀ n ∈ momentsAll accepts p (before.length + 1) behind,
      ¬ p ++ [before.length] <+: n.path := fun n hn =>
    (below_of_mem_momentsAll hn).2 _ (.inl (by simp))
  have hself : ¬ p ++ [before.length] <+: p := fun hpre => by simpa using hpre.length_le
  have hopened : opened accepts (.enter p x :: (momentsAll accepts p 0 before ++ pre)) =
      (p, x) :: opened accepts pre := by
    rw [← List.singleton_append, opened_append, opened_enter hx, opened_append]
    · rw [opened_momentsAll fun o _ => opened_moments o]
      rfl
    · exact fun m hm n hn heq => hbefore m hm (heq ▸ hinside n hn)
    · intro m hm n hn heq
      rw [List.mem_singleton.1 hm, Moment.path_enter] at heq
      rcases List.mem_append.1 hn with hn | hn
      · exact (below_of_mem_momentsAll hn).1.2 heq.symm
      · exact hself (heq ▸ hinside n hn)
  refine ⟨?_, h.outlines, ?_, fun n hn hpre => ?_⟩
  · rw [moments, if_pos hx, momentsAll_append, momentsAll, Nat.zero_add, h.split]
    simp
  · rw [hopened]
    simpa using h.line
  · have hn' : n ∈ pre ++ post ∨ ¬ p ++ [before.length] <+: n.path := by
      simp only [List.mem_append, List.mem_cons] at hn ⊢
      rcases hn with (rfl | hn | hn) | (hn | hn) | rfl | hn
      · exact .inr hself
      · exact .inr (hbefore n hn)
      · exact .inl (.inl hn)
      · exact .inl (.inr hn)
      · exact .inr (hbehind n hn)
      · exact .inr hself
      · cases hn
    rcases hn' with hn' | hn'
    · exact h.apart n hn' hpre
    · exact hn' (hq.trans hpre)

/-- Whatever happens on a walk is located there. -/
theorem exists_located (o : Outline) :
    ∀ {key : Key} {line : List (List Nat × Visited)} {p : List Nat}, a.Outlines key o →
      a.Line root line p key → ∀ m ∈ o.moments accepts p, ∃ key' o' pre post,
        Located a accepts root line (o.moments accepts p) m.path key' o' pre post := by
  induction o using Outline.induct with
  | missing key' =>
    intro key line p ho hline m hm
    obtain rfl : m = .missing p key' := by simpa [moments] using hm
    exact ⟨key, _, [], [], by simp [moments], ho, by simpa [opened] using hline, by simp⟩
  | found x parts ih =>
    intro key line p ho hline m hm
    have hself : Located a accepts root line ((found x parts).moments accepts p) p key
        (found x parts) [] [] := ⟨by simp, ho, by simpa [opened] using hline, by simp⟩
    obtain ⟨rfl, hhas, hparts⟩ := Arena.outlines_found.1 ho
    obtain rfl | ⟨hx, hm | rfl⟩ := mem_moments_found.1 hm
    · exact ⟨_, _, _, _, hself⟩
    · obtain ⟨before, o, behind, rfl, hmem⟩ := exists_of_mem_momentsAll hm
      rw [Nat.zero_add] at hmem
      obtain ⟨key, hkey, hkeyo⟩ := Arena.exists_of_getElem?_left hparts.flip
        (show (before ++ o :: behind)[before.length]? = some o by simp)
      obtain ⟨key', o', pre, post, h⟩ := ih o (by simp) hkeyo (hline.part hhas hkey) m hmem
      exact ⟨key', o', _, _, h.of_part hx (prefix_of_mem_moments o hmem)⟩
    · exact ⟨_, _, _, _, hself⟩

/-- What happens at a path says what is located there. -/
theorem Located.mem {pre post : List Moment}
    (h : Located a accepts root line ms m.path key o pre post) (hm : m ∈ ms) :
    m ∈ o.moments accepts m.path := by
  rw [h.split, List.append_assoc, List.mem_append, List.mem_append] at hm
  rcases hm with hm | hm | hm
  · exact absurd List.prefix_rfl (h.apart m (List.mem_append_left _ hm))
  · exact hm
  · exact absurd List.prefix_rfl (h.apart m (List.mem_append_right _ hm))

theorem eq_of_mem_moments (h : m ∈ o.moments accepts m.path) :
    (∃ key, o = .missing key ∧ m = .missing m.path key) ∨
      ∃ x parts, o = .found x parts ∧ (m = .enter m.path x ∨ accepts x ∧ m = .leave m.path x) := by
  cases o with
  | missing key => exact .inl ⟨key, rfl, by simpa [moments] using h⟩
  | found x parts =>
    obtain h | ⟨hx, h | h⟩ := mem_moments_found.1 h
    · exact .inr ⟨x, parts, rfl, .inl h⟩
    · exact absurd rfl (below_of_mem_momentsAll h).1.2
    · exact .inr ⟨x, parts, rfl, .inr ⟨hx, h⟩⟩

/-- Of what happens on a walk from the root, what is located there, and what it is then. -/
theorem exists_located_root (h : a.Outlines (.node root) o) (hm : m ∈ o.moments accepts []) :
    ∃ key o' pre post, Located a accepts root [] (o.moments accepts []) m.path key o' pre post ∧
      a.Line root (opened accepts pre) m.path key ∧
      ((∃ key', o' = .missing key' ∧ m = .missing m.path key') ∨
        ∃ x parts, o' = .found x parts ∧
          (m = .enter m.path x ∨ accepts x ∧ m = .leave m.path x)) := by
  obtain ⟨key, o', pre, post, hloc⟩ := exists_located o h .root m hm
  have hline := hloc.line
  rw [List.nil_append] at hline
  exact ⟨key, o', pre, post, hloc, hline, eq_of_mem_moments (hloc.mem hm)⟩

end Outline

/-! ### Brackets -/

/-- The moments are bracketed as the tree at the root is.  All that happens at a path and below it
happens together: where something is entered and accepted, its one leave comes last, and all its
parts come between; where it is not accepted, nothing else happens.  What is open at each entry, and
wherever something is missing, are the ancestors of that; in the end nothing is open. -/
structure Moment.Bracketed (a : Arena) (accepts : Visited → Bool) (root : NodeId)
    (ms : List Moment) : Prop where
  enter : ∀ p x, .enter p x ∈ ms → a.Has x ∧ ∃ pre inside post : List Moment,
    ms = pre ++ .enter p x :: inside ++ post ∧ a.Line root (opened accepts pre) p x.key ∧
      (∀ n ∈ pre ++ post, ¬ p <+: n.path) ∧
      if accepts x then
        ∃ below : List Moment, inside = below ++ [.leave p x] ∧
          (∀ n ∈ below, p <+: n.path ∧ n.path ≠ p) ∧ ∀ (k : Nat) key, x.parts[k]? = some key →
            ∃ n ∈ below, n.path = p ++ [k] ∧ n.key = key
      else inside = []
  leave : ∀ p x, .leave p x ∈ ms → .enter p x ∈ ms
  missing : ∀ p key, .missing p key ∈ ms → ¬ a.HasKey key ∧ ∃ pre post : List Moment,
    ms = pre ++ .missing p key :: post ∧ a.Line root (opened accepts pre) p key ∧
      ∀ n ∈ pre ++ post, ¬ p <+: n.path
  closed : opened accepts ms = []

theorem Outline.bracketed (h : a.Outlines (.node root) o) :
    Moment.Bracketed a accepts root (o.moments accepts []) where
  enter := by
    intro p x hm
    obtain ⟨key, o', pre, post, hloc, hline, hcase⟩ := exists_located_root h hm
    obtain ⟨_, -, heq⟩ | ⟨y, parts, rfl, heq | ⟨-, heq⟩⟩ := hcase
    · cases heq
    · cases heq
      obtain ⟨rfl, hhas, hparts⟩ := Arena.outlines_found.1 hloc.outlines
      refine ⟨hhas, pre, if accepts x then momentsAll accepts p 0 parts ++ [.leave p x] else [],
        post, by rw [hloc.split, moments]; rfl, hline, hloc.apart, ?_⟩
      split
      · exact ⟨_, rfl, fun n hn => (below_of_mem_momentsAll hn).1, fun k key hkey => by
          simpa using exists_mem_momentsAll accepts p (j := 0) hparts hkey⟩
      · rfl
    · cases heq
  leave := by
    intro p x hm
    obtain ⟨key, o', pre, post, hloc, -, hcase⟩ := exists_located_root h hm
    obtain ⟨_, -, heq⟩ | ⟨y, parts, rfl, heq | ⟨-, heq⟩⟩ := hcase
    · cases heq
    · cases heq
    · cases heq
      rw [hloc.split, moments]
      simp
  missing := by
    intro p key hm
    obtain ⟨key', o', pre, post, hloc, hline, hcase⟩ := exists_located_root h hm
    obtain ⟨_, rfl, heq⟩ | ⟨y, parts, rfl, heq | ⟨-, heq⟩⟩ := hcase
    · cases heq
      obtain ⟨rfl, hnot⟩ := Arena.outlines_missing.1 hloc.outlines
      refine ⟨hnot, pre, post, ?_, hline, hloc.apart⟩
      rw [hloc.split, moments, List.append_assoc, List.singleton_append]
      rfl
    · cases heq
    · cases heq
  closed := opened_moments o []

/-! ### Walks -/

namespace Visitor

variable {σ : Type} {v : Visitor σ} {depth : Nat} {memory : σ}

/-- What a visitor makes of a moment. -/
def told (v : Visitor σ) (memory : σ) : Moment → σ
  | .enter _ x => (v.enter x memory).2
  | .leave _ x => v.leave x memory
  | .missing _ _ => memory

/-- The visitor is told the moments one after another, until something is missing. -/
def play (v : Visitor σ) : List Moment → Walk σ Unit
  | [] => pure ()
  | .missing _ key :: _ => throw key.fault
  | m :: ms => do
    modify (v.told · m)
    play v ms

theorem play_append (v : Visitor σ) : ∀ ms ns, v.play (ms ++ ns) = (do v.play ms; v.play ns)
  | [], ns => by simp [play]
  | m :: ms, ns => by
    rw [List.cons_append]
    cases m with
    | missing p key => rfl
    | _ => simp only [play, play_append v ms ns, bind_assoc]

theorem play_of_complete :
    ∀ (ms : List Moment) (memory : σ), (∀ p key, .missing p key ∉ ms) →
      (v.play ms).run memory = .ok () (ms.foldl v.told memory)
  | [], _, _ => rfl
  | m :: ms, memory, h => by
    have hms : ∀ p key, .missing p key ∉ ms := fun p key hm => h p key (List.mem_cons_of_mem m hm)
    cases m with
    | missing p key => exact absurd List.mem_cons_self (h p key)
    | _ => exact play_of_complete ms _ hms

theorem play_of_missing {pre post : List Moment} (h : ∀ p key, .missing p key ∉ pre) :
    (v.play (pre ++ .missing p key :: post)).run memory =
      .error key.fault (pre.foldl v.told memory) := by
  have hpre := play_of_complete (v := v) pre memory h
  rw [play_append]
  change EStateM.bind (v.play pre) _ memory = _
  rw [EStateM.run] at hpre
  rw [EStateM.bind, hpre]
  rfl

/-- What a node carries and its children are visited as its parts. -/
def visitPart (v : Visitor σ) (a : Arena) (depth : Nat) : Key → Walk σ Unit
  | .node id => v.walkWithin a depth id
  | .index i => v.visitIndex a i

theorem walkWithin_succ (v : Visitor σ) (a : Arena) (depth : Nat) (id : NodeId) :
    v.walkWithin a (depth + 1) id = (do
      let node ← MonadExcept.ofExcept (a.get id)
      if ← modifyGet (v.enter (.node id node)) then
        node.parts.forM (v.visitPart a depth)
        modify (v.leave (.node id node))) := by
  have hparts : ∀ node : Node, node.parts.forM (v.visitPart a depth) = (do
      node.attributes.forM (v.visitIndex a)
      node.children.forM (v.walkWithin a depth)) := fun node => by
    simp only [Node.parts, List.forM_eq_forM, List.forM_append, List.forM_map]
    rfl
  simp only [walkWithin, hparts, bind_assoc]

theorem forM_play {visit : Key → Walk σ Unit} :
    ∀ {keys : List Key} {os : List Outline} {k : Nat},
      List.Forall₂ (fun key o => ∀ p, visit key = v.play (o.moments accepts p)) keys os →
        keys.forM visit = v.play (Outline.momentsAll accepts p k os)
  | [], [], _, .nil => rfl
  | key :: keys, o :: os, k, .cons h hs => by
    rw [Outline.momentsAll, play_append, ← h, ← forM_play hs]
    rfl

theorem enter_play (hv : ∀ x memory, (v.enter x memory).1 = accepts x) {steps : Walk σ Unit}
    (hsteps : steps = v.play ms) (p : List Nat) :
    (do if ← modifyGet (v.enter x) then steps) =
      v.play (.enter p x :: if accepts x then ms else []) := by
  funext memory
  change (if (v.enter x memory).1 = true then steps else pure ()) (v.enter x memory).2 =
    v.play (if accepts x then ms else []) (v.enter x memory).2
  rw [hv]
  split
  · rw [hsteps]
  · rfl

theorem visitPart_play (hv : ∀ x memory, (v.enter x memory).1 = accepts x) (o : Outline) :
    ∀ {key : Key} {depth : Nat}, a.Outlines key o → o.height ≤ depth →
      ∀ p, v.visitPart a depth key = v.play (o.moments accepts p) := by
  induction o using Outline.induct with
  | missing key' =>
    intro key depth ho hdepth p
    obtain ⟨rfl, hnot⟩ := Arena.outlines_missing.1 ho
    obtain ⟨depth, rfl⟩ := Nat.exists_eq_succ_of_ne_zero (Nat.one_le_iff_ne_zero.1 hdepth)
    cases key' with
    | node id =>
      rw [visitPart, walkWithin_succ, Arena.get_of_not_hasKey hnot]
      rfl
    | index i =>
      rw [visitPart, visitIndex, Arena.indexInfo_of_not_hasKey hnot]
      rfl
  | found x parts ih =>
    intro key depth ho hdepth p
    obtain ⟨rfl, hhas, hparts⟩ := Arena.outlines_found.1 ho
    rw [Outline.height] at hdepth
    obtain ⟨depth, rfl⟩ := Nat.exists_eq_succ_of_ne_zero (n := depth) (by omega)
    have hheight := Outline.heightAll_le_iff.1 (Nat.le_of_succ_le_succ hdepth)
    have hbelow : List.Forall₂
        (fun key o => ∀ p, v.visitPart a depth key = v.play (o.moments accepts p)) x.parts parts :=
      Arena.forall₂_imp_of_mem hparts fun _ _ o hmem ho => ih o hmem ho (hheight o hmem)
    have hleave : (v.play [.leave p x] : Walk σ Unit) = modify (v.leave x) := rfl
    have hinside : (do x.parts.forM (v.visitPart a depth); modify (v.leave x)) =
        v.play (Outline.momentsAll accepts p 0 parts ++ [.leave p x]) := by
      rw [play_append, forM_play hbelow, hleave]
    rw [Outline.moments, ← enter_play hv hinside p]
    cases x with
    | node id node =>
      rw [Visited.key, visitPart, walkWithin_succ, hhas]
      rfl
    | index i info =>
      rw [Visited.key, visitPart, visitIndex, hhas]
      rfl

theorem complete_or_missing : ∀ ms : List Moment, (∀ p key, .missing p key ∉ ms) ∨
    ∃ pre p key post, ms = pre ++ .missing p key :: post ∧ ∀ q k, .missing q k ∉ pre
  | [] => .inl (by simp)
  | m :: ms => by
    cases m with
    | missing p key => exact .inr ⟨[], p, key, ms, rfl, by simp⟩
    | _ =>
      obtain h | ⟨pre, p, key, post, rfl, h⟩ := complete_or_missing ms
      · exact .inl (by simpa using h)
      · exact .inr ⟨_ :: pre, p, key, post, rfl, by simpa using h⟩

/-- On a walk from a root that reaches nothing below itself, a visitor that accepts by a predicate is
told what happens on a walk through the outline of the tree, and that is bracketed as the tree is.
If something is missing, the walk stops with the fault of the first such handle: what is open then
are the ancestors of that, and none of the moments up to then is about it. -/
theorem walk_bracketed (hacyclic : ∀ c, a.Reaches root c → ¬ a.Below c c)
    (accepts : Visited → Bool) :
    ∃ o, a.Outlines (.node root) o ∧ Moment.Bracketed a accepts root (o.moments accepts []) ∧
      ((∀ p key, .missing p key ∉ o.moments accepts []) ∧
          (∀ (σ : Type) (v : Visitor σ), (∀ x memory, (v.enter x memory).1 = accepts x) →
            ∀ memory, (v.walk a root).run memory =
              .ok () ((o.moments accepts []).foldl v.told memory)) ∨
        ∃ pre p key post, o.moments accepts [] = pre ++ .missing p key :: post ∧
          a.Line root (opened accepts pre) p key ∧ (∀ m ∈ pre, m.key ≠ key) ∧
          ∀ (σ : Type) (v : Visitor σ), (∀ x memory, (v.enter x memory).1 = accepts x) →
            ∀ memory, (v.walk a root).run memory = .error key.fault (pre.foldl v.told memory)) := by
  obtain ⟨o, ho, hheight⟩ := Arena.exists_outlines hacyclic
  have hbracketed : Moment.Bracketed a accepts root (o.moments accepts []) := Outline.bracketed ho
  have hplay : ∀ (σ : Type) (v : Visitor σ), (∀ x memory, (v.enter x memory).1 = accepts x) →
      v.walk a root = v.play (o.moments accepts []) := fun σ v hv =>
    visitPart_play hv o ho hheight []
  refine ⟨o, ho, hbracketed, ?_⟩
  obtain hcomplete | ⟨pre, p, key, post, hsplit, hfirst⟩ :=
    complete_or_missing (o.moments accepts [])
  · refine .inl ⟨hcomplete, fun σ v hv memory => ?_⟩
    rw [hplay σ v hv]
    exact play_of_complete _ memory hcomplete
  · obtain ⟨hnot, before, behind, hsplit', hline, hapart⟩ :=
      hbracketed.missing p key (by rw [hsplit]; simp)
    have hnone : ∀ ms ⊆ before ++ behind, Moment.missing p key ∉ ms := fun ms hms hm =>
      hapart _ (hms hm) List.prefix_rfl
    obtain ⟨rfl, -, rfl⟩ := (List.append_cons_inj_of_notMem (hnone before (by simp))
      (hnone behind (by simp))).1 (hsplit'.symm.trans hsplit)
    refine .inr ⟨before, p, key, behind, hsplit, hline, fun m hm hkey => ?_, fun σ v hv memory => ?_⟩
    · have hmem : m ∈ o.moments accepts [] := by rw [hsplit]; simp [hm]
      subst hkey
      cases m with
      | enter q x => exact hnot ⟨x, (hbracketed.enter q x hmem).1, rfl⟩
      | leave q x => exact hnot ⟨x, (hbracketed.enter q x (hbracketed.leave q x hmem)).1, rfl⟩
      | missing q key => exact hfirst q key hm
    · rw [hplay σ v hv, hsplit]
      exact play_of_missing hfirst

/-- The sum of a reduction and of a loop over an index that is not there. -/
def sumOfLoops : Arena where
  nodes := #[.var "u", .indexSum [⟨0⟩] ⟨0⟩, .forAll [⟨7⟩] ⟨0⟩, .operator .sum [⟨1⟩, ⟨2⟩]]
  indices := #[⟨"k", 2, .free, []⟩]

/-- Nothing below reductions is visited. -/
def skipSums : Visitor Unit := ⟨fun x _ => (x.label ≠ "IndexSum", ()), fun _ _ => ()⟩

/-- A walk that skips the reduction stops below the sum and the loop. -/
theorem walk_bracketed_sumOfLoops : (∀ c, sumOfLoops.Reaches ⟨3⟩ c → ¬ sumOfLoops.Below c c) ∧
    ∃ o, sumOfLoops.Outlines (.node ⟨3⟩) o ∧
      Moment.Bracketed sumOfLoops (·.label ≠ "IndexSum") ⟨3⟩ (o.moments (·.label ≠ "IndexSum") []) ∧
      ∃ pre p post,
        o.moments (·.label ≠ "IndexSum") [] = pre ++ .missing p (.index ⟨7⟩) :: post ∧
        sumOfLoops.Line ⟨3⟩ (opened (·.label ≠ "IndexSum") pre) p (.index ⟨7⟩) := by
  have hunfolds : ∃ t, sumOfLoops.Unfolds ⟨3⟩ t :=
    ⟨.node (.operator .sum) [.node (.indexSum [⟨0⟩]) [.node (.var "u") []],
      .node (.forAll [⟨7⟩]) [.node (.var "u") []]], ⟨_, rfl, rfl,
      ⟨_, rfl, rfl, ⟨_, rfl, rfl, trivial⟩, trivial⟩,
      ⟨_, rfl, rfl, ⟨_, rfl, rfl, trivial⟩, trivial⟩, trivial⟩⟩
  have hacyclic := (Arena.exists_unfolds_iff.1 hunfolds).2
  have hrun : (skipSums.walk sumOfLoops ⟨3⟩).run () = .error (.unknownIndex ⟨7⟩) () := rfl
  obtain ⟨o, ho, hbracketed, ⟨-, hok⟩ | ⟨pre, p, key, post, hsplit, hline, -, herror⟩⟩ :=
    walk_bracketed hacyclic (·.label ≠ "IndexSum")
  · cases hrun.symm.trans (hok Unit skipSums (fun _ _ => rfl) ())
  · have hfault := hrun.symm.trans (herror Unit skipSums (fun _ _ => rfl) ())
    refine ⟨hacyclic, o, ho, hbracketed, pre, p, post, ?_⟩
    cases key with
    | node id => cases hfault
    | index i =>
      cases hfault
      exact ⟨hsplit, hline⟩

end Visitor

end TensorRecipe
