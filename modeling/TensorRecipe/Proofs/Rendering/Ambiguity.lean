import TensorRecipe.Proofs.Rendering.Flattening

/-!
# Ambiguous texts

Terms may have one text though no flattening makes them one: an application goes to what stands
last in the text of its head, so `a + b[c]` is also the text of the sum of `a` and `b` with the
subscript `c`, and the body of a let takes in whatever follows the let.  A term is `Faithful` if its
heads are variables or applications and no let stands open before another operand.

Main statement: two terms have one text just when they have one reading, and faithful terms only
when they are one up to flattening (`render_eq_iff`).
-/

namespace TensorRecipe

namespace Rendering

/-! ### What a reading says -/

/-- An operator on several operands, or the only operand. -/
def build (op : Infix) : List Term → Term
  | [t] => t
  | ts => .operator op ts

/-- The sum of the products of what is listed. -/
def ofSums (ps : List (List Term)) : Term := build .plus (ps.map (build .times))

/-- One more factor in front of the first product. -/
def prepend (t : Term) : List (List Term) → List (List Term)
  | [] => [[t]]
  | p :: ps => (t :: p) :: ps

mutual

/-- The terms of the sum that a reading is, each by its factors. -/
def Reading.sums : Reading → List (List Term)
  | .name x k => k.sums (.var x)
  | .group r k => k.sums (ofSums r.sums)
  | .letIn bs body => [[.letIn (bindingTerms bs) (ofSums body.sums)]]

/-- The terms of the sum that starts with an operand and goes on with what follows it. -/
def Rest.sums (t : Term) : Rest → List (List Term)
  | .stop => [[t]]
  | .apply how args k => k.sums (.apply how t (argTerms args))
  | .operand .plus r => [t] :: r.sums
  | .operand .times r => prepend t r.sums

/-- The terms that arguments are. -/
def argTerms : List Reading → List Term
  | [] => []
  | r :: rs => ofSums r.sums :: argTerms rs

/-- The bindings of a let. -/
def bindingTerms : List (Name × Reading) → List (Name × Term)
  | [] => []
  | (x, r) :: bs => (x, ofSums r.sums) :: bindingTerms bs

end

/-! ### Readings that end -/

mutual

/-- What follows the text of a reading does not belong to the body of a let in it. -/
def Reading.Closed : Reading → Prop
  | .name _ k => k.Closed
  | .group _ k => k.Closed
  | .letIn _ _ => False

/-- What follows does not belong to the body of a let. -/
def Rest.Closed : Rest → Prop
  | .stop => True
  | .apply _ _ k => k.Closed
  | .operand _ r => r.Closed

end

mutual

theorem Reading.closed_append {l : Rest} (hl : l.Closed) :
    ∀ r : Reading, r.Closed → (r.append l).Closed
  | .name _ k, hr => Rest.closed_append hl k hr
  | .group _ k, hr => Rest.closed_append hl k hr

theorem Rest.closed_append {l : Rest} (hl : l.Closed) :
    ∀ k : Rest, k.Closed → (k.append l).Closed
  | .stop, _ => hl
  | .apply _ _ k, hk => Rest.closed_append hl k hk
  | .operand _ r, hr => Reading.closed_append hl r hr

end

mutual

theorem Reading.sums_ne_nil : ∀ r : Reading, r.sums ≠ []
  | .name x k => Rest.sums_ne_nil _ k
  | .group r k => Rest.sums_ne_nil _ k
  | .letIn bs body => by simp [Reading.sums]

theorem Rest.sums_ne_nil (t : Term) : ∀ k : Rest, k.sums t ≠ []
  | .stop => by simp [Rest.sums]
  | .apply how args k => Rest.sums_ne_nil _ k
  | .operand .plus r => by simp [Rest.sums]
  | .operand .times r => by
    rw [Rest.sums]
    cases r.sums <;> simp [prepend]

end

/-- The last product of a sum goes on with the first of another. -/
def meld : List (List Term) → List (List Term) → List (List Term)
  | [], qs => qs
  | [p], qs => p.foldr prepend qs
  | p :: ps, qs => p :: meld ps qs

theorem meld_cons {p : List Term} {ps qs : List (List Term)} (h : ps ≠ []) :
    meld (p :: ps) qs = p :: meld ps qs := by
  cases ps with
  | nil => exact absurd rfl h
  | cons q ps => rfl

theorem meld_prepend (t : Term) (ps qs : List (List Term)) :
    meld (prepend t ps) qs = prepend t (meld ps qs) := by
  match ps with
  | [] => rfl
  | [p] => rfl
  | p :: q :: ps => rfl

/-- What is behind an operator. -/
def combine : Infix → List (List Term) → List (List Term) → List (List Term)
  | .plus => (· ++ ·)
  | .times => meld

theorem combine_cons {op : Infix} {p : List Term} {ps qs : List (List Term)} (h : ps ≠ []) :
    combine op (p :: ps) qs = p :: combine op ps qs := by
  cases op with
  | plus => rfl
  | times => exact meld_cons h

theorem combine_prepend {op : Infix} {t : Term} {ps qs : List (List Term)} (h : ps ≠ []) :
    combine op (prepend t ps) qs = prepend t (combine op ps qs) := by
  cases op with
  | plus =>
    obtain ⟨p, ps, rfl⟩ := List.exists_cons_of_ne_nil h
    rfl
  | times => exact meld_prepend t ps qs

mutual

/-- An operator behind a reading that ends is one of the sum, not of a let in it. -/
theorem Reading.sums_append (op : Infix) (s : Reading) : ∀ r : Reading, r.Closed →
    (r.append (.operand op s)).sums = combine op r.sums s.sums
  | .name _ k, hr => Rest.sums_append op s k hr _
  | .group _ k, hr => Rest.sums_append op s k hr _

theorem Rest.sums_append (op : Infix) (s : Reading) : ∀ k : Rest, k.Closed →
    ∀ t, (k.append (.operand op s)).sums t = combine op (k.sums t) s.sums
  | .stop, _, t => by cases op <;> rfl
  | .apply _ _ k, hk, t => Rest.sums_append op s k hk _
  | .operand .plus r, hr, t => by
    rw [Rest.append, Rest.sums, Reading.sums_append op s r hr, Rest.sums,
      combine_cons r.sums_ne_nil]
  | .operand .times r, hr, t => by
    rw [Rest.append, Rest.sums, Reading.sums_append op s r hr, Rest.sums,
      combine_prepend r.sums_ne_nil]

end

theorem Reading.sums_join_plus {α : Type} {f : α → Reading} : ∀ {xs : List α}, xs ≠ [] →
    (∀ x ∈ xs.dropLast, (f x).Closed) →
      (join .plus (xs.map f)).sums = xs.flatMap fun x => (f x).sums
  | [], h, _ => absurd rfl h
  | [x], _, _ => by simp [join]
  | x :: y :: xs, _, h => by
    have htail : ∀ z ∈ (y :: xs).dropLast, (f z).Closed := fun z hz => h z (by simp [hz])
    rw [List.map_cons, join_cons (by simp), sums_append _ _ _ (h x (by simp)),
      sums_join_plus (by simp) htail]
    rfl

theorem foldr_prepend (p q : List Term) : p.foldr prepend [q] = [p ++ q] := by
  induction p with
  | nil => rfl
  | cons t p ih => rw [List.foldr_cons, ih, prepend, List.cons_append]

theorem Reading.sums_join_times {α : Type} {f : α → Reading} {g : α → List Term} :
    ∀ {xs : List α}, xs ≠ [] → (∀ x ∈ xs.dropLast, (f x).Closed) →
      (∀ x ∈ xs, (f x).sums = [g x]) → (join .times (xs.map f)).sums = [xs.flatMap g]
  | [], h, _, _ => absurd rfl h
  | [x], _, _, hg => by simpa [join] using hg x (by simp)
  | x :: y :: xs, _, h, hg => by
    have htail : ∀ z ∈ (y :: xs).dropLast, (f z).Closed := fun z hz => h z (by simp [hz])
    rw [List.map_cons, join_cons (by simp), sums_append _ _ _ (h x (by simp)), hg x (by simp),
      sums_join_times (by simp) htail fun z hz => hg z (List.mem_cons_of_mem x hz)]
    exact foldr_prepend _ _

theorem Reading.closed_join {op : Infix} : ∀ {rs : List Reading}, rs ≠ [] →
    (∀ r ∈ rs, r.Closed) → (join op rs).Closed
  | [], h, _ => absurd rfl h
  | [r], _, h => h r (by simp)
  | r :: s :: rs, _, h => by
    have hne : s :: rs ≠ [] := List.cons_ne_nil s rs
    have htail : (join op (s :: rs)).Closed :=
      closed_join hne fun q hq => h q (List.mem_cons_of_mem r hq)
    rw [join_cons hne]
    exact closed_append (l := .operand op _) htail r (h r (by simp))

@[simp]
theorem argTerms_eq_map (rs : List Reading) : argTerms rs = rs.map fun r => ofSums r.sums := by
  induction rs with
  | nil => rfl
  | cons r rs ih => rw [argTerms, ih, List.map_cons]

@[simp]
theorem bindingTerms_eq_map (bs : List (Name × Reading)) :
    bindingTerms bs = bs.map fun b => (b.1, ofSums b.2.sums) := by
  induction bs with
  | nil => rfl
  | cons b bs ih => rw [bindingTerms, ih, List.map_cons]

/-! ### Faithful terms -/

namespace Term

/-- The text of a term ends in the body of a let. -/
inductive Open : Term → Prop where
  | letIn (bs : List (Name × Term)) (body : Term) : Open (letIn bs body)
  | operator {op : Infix} {ts : List Term} {t : Term} (ht : Open t)
    (hsum : ¬ (op = .times ∧ t.isSum)) : Open (operator op (ts ++ [t]))
  | apply {how : Application} {head : Term} {args : List Term} (hhead : Open head) :
    Open (apply how head args)

/-- Whether a term is a variable or an application. -/
def isAtom : Term → Bool
  | var _ => true
  | apply _ _ _ => true
  | _ => false

/-- Heads are variables or applications, and before another operand no let is open, unless in a sum
that stands in parentheses. -/
inductive Faithful : Term → Prop where
  | var (x : Name) : Faithful (var x)
  | operator {op : Infix} {ts : List Term} (hlen : 2 ≤ ts.length) (hts : ∀ t ∈ ts, Faithful t)
    (hopen : ∀ t ∈ ts.dropLast, Open t → op = .times ∧ t.isSum) : Faithful (operator op ts)
  | apply {how : Application} {head : Term} {args : List Term} (hatom : head.isAtom)
    (hhead : Faithful head) (hargs : ∀ t ∈ args, Faithful t) : Faithful (apply how head args)
  | letIn {bs : List (Name × Term)} {body : Term} (hne : bs ≠ []) (hbs : ∀ b ∈ bs, Faithful b.2)
    (hbody : Faithful body) : Faithful (letIn bs body)

theorem Faithful.proper {t : Term} (h : t.Faithful) : t.Proper := by
  induction h with
  | var x => exact .var x
  | operator hlen _ _ ih => exact .operator hlen ih
  | apply _ _ _ ihhead ihargs => exact .apply ihhead ihargs
  | letIn hne _ _ ihbs ihbody => exact .letIn hne ihbs ihbody

/-- The terms of the sum that a term is, each by its factors. -/
def addends (t : Term) : List (List Term) := (t.operands .plus).map (operands .times)

theorem Proper.build_operands {t : Term} (h : t.Proper) (op : Infix) :
    build op (t.operands op) = t := by
  by_cases hop : ∃ ts, t = .operator op ts
  · obtain ⟨ts, rfl⟩ := hop
    rw [operands_self]
    cases h with
    | operator hlen _ =>
      match ts, hlen with
      | _ :: _ :: _, _ => rfl
  · rw [operands_eq_self fun ts hts => hop ⟨ts, hts⟩]
    rfl

theorem Proper.ofSums_addends {t : Term} (h : t.Proper) : ofSums t.addends = t := by
  have hterms : (t.operands .plus).map (fun u => build .times (u.operands .times)) =
      t.operands .plus := by
    refine (List.map_congr_left fun u hu => ?_).trans (List.map_id _)
    exact (h.of_mem_operands u hu).build_operands .times
  rw [ofSums, addends, List.map_map, Function.comp_def, hterms, h.build_operands]

theorem operands_times_of_isSum {t : Term} (h : t.isSum) : t.operands .times = [t] :=
  operands_eq_self fun ts hts => by simp [hts, isSum] at h

theorem addends_of_not_isSum {t : Term} (h : ¬ t.isSum) : t.addends = [t.operands .times] := by
  have hself : t.operands .plus = [t] := operands_eq_self fun ts hts => h (by simp [hts, isSum])
  rw [addends, hself, List.map_singleton]

/-- Where an operand does not end in the body of a let, or stands in parentheses. -/
theorem closed_asOperand {op : Infix} {t : Term} (h : ¬ t.Open → t.reading.Closed)
    (hopen : t.Open → op = .times ∧ t.isSum) : (asOperand op t.isSum t.reading).Closed := by
  by_cases hparens : op = .times ∧ t.isSum
  · simp only [asOperand, hparens, decide_true, Bool.and_self, if_true]
    trivial
  · have hnone : ¬ (decide (op = .times) && t.isSum) = true := by simpa using hparens
    rw [asOperand, if_neg hnone]
    exact h fun ht => hparens (hopen ht)

/-- Where the text of a faithful term does not end in the body of a let, nothing behind it belongs
to one. -/
theorem Faithful.closed_reading {t : Term} (h : t.Faithful) : ¬ t.Open → t.reading.Closed := by
  induction h with
  | var x => exact fun _ => trivial
  | @operator op ts hlen hts hopen ih =>
    intro hclosed
    have hne : ts ≠ [] := by
      rintro rfl
      simp at hlen
    have hall : ∀ t ∈ ts, t.Open → op = .times ∧ t.isSum := by
      intro t ht htopen
      rw [← List.dropLast_append_getLast hne, List.mem_append, List.mem_singleton] at ht
      obtain ht | rfl := ht
      · exact hopen t ht htopen
      · by_contra hsum
        refine hclosed ?_
        rw [← List.dropLast_append_getLast hne]
        exact .operator htopen hsum
    rw [reading, operandReadings_eq_map]
    exact Reading.closed_join (by simpa using hne) <|
      List.forall_mem_map.2 fun t ht => closed_asOperand (ih t ht) (hall t ht)
  | apply _ _ _ ihhead _ =>
    intro hclosed
    exact Reading.closed_append (l := .apply _ _ .stop) trivial _
      (ihhead fun hhead => hclosed (.apply hhead))
  | letIn => exact fun hclosed => absurd (.letIn _ _) hclosed

/-- Read as sums of products, the text of a faithful term is the term flattened. -/
theorem Faithful.sums_reading {t : Term} (h : t.Faithful) :
    t.reading.sums = t.flatten.addends ∧
      (t.isAtom → ∀ k, (t.reading.append k).sums = k.sums t.flatten) := by
  induction h with
  | var x => exact ⟨rfl, fun _ k => rfl⟩
  | @operator op ts hlen hts hopen ih =>
    refine ⟨?_, fun hatom => absurd hatom (by simp [isAtom])⟩
    have hne : ts ≠ [] := by
      rintro rfl
      simp at hlen
    have hclosed : ∀ t ∈ ts.dropLast, (asOperand op t.isSum t.reading).Closed := fun t ht =>
      closed_asOperand (hts t (List.mem_of_mem_dropLast ht)).closed_reading (hopen t ht)
    rw [reading, operandReadings_eq_map, flatten, flattenAll_eq_map, List.flatMap_map]
    cases op with
    | plus =>
      rw [Reading.sums_join_plus hne hclosed, addends, operands_self, List.map_flatMap]
      exact List.flatMap_congr fun t ht => (ih t ht).1
    | times =>
      have hfactors : ∀ t ∈ ts, (asOperand .times t.isSum t.reading).sums =
          [t.flatten.operands .times] := by
        intro t ht
        by_cases hsum : t.isSum
        · rw [asOperand, if_pos (by simpa using hsum), Reading.sums, (ih t ht).1,
            (hts t ht).proper.flatten.ofSums_addends,
            operands_times_of_isSum (by rwa [isSum_flatten])]
          rfl
        · rw [asOperand, if_neg (by simpa using hsum), (ih t ht).1,
            addends_of_not_isSum (by rwa [isSum_flatten])]
      rw [Reading.sums_join_times hne hclosed hfactors, addends_of_not_isSum (by simp [isSum]),
        operands_self]
  | @apply how head args hatom hhead hargs ihhead ihargs =>
    have hterms : argTerms (readings args) = args.map flatten := by
      rw [argTerms_eq_map, readings_eq_map, List.map_map]
      refine List.map_congr_left fun t ht => ?_
      rw [Function.comp_apply, (ihargs t ht).1, (hargs t ht).proper.flatten.ofSums_addends]
    refine ⟨?_, fun _ k => ?_⟩
    · rw [reading, ihhead.2 hatom, Rest.sums, hterms, flatten, flattenAll_eq_map]
      rfl
    · rw [reading, Reading.append_append, ihhead.2 hatom, Rest.append, Rest.sums, hterms, flatten,
        flattenAll_eq_map]
      rfl
  | @letIn bs body hne hbs hbody ihbs ihbody =>
    refine ⟨?_, fun hatom => absurd hatom (by simp [isAtom])⟩
    have hvalues : bindingTerms (valueReadings bs) = bs.map fun b => (b.1, b.2.flatten) := by
      rw [bindingTerms_eq_map, valueReadings_eq_map, List.map_map]
      refine List.map_congr_left fun b hb => ?_
      rw [Function.comp_apply, (ihbs b hb).1, (hbs b hb).proper.flatten.ofSums_addends]
    rw [reading, Reading.sums, hvalues, ihbody.1, hbody.proper.flatten.ofSums_addends, flatten,
      flattenValues_eq_map]
    rfl

/-- The reading of a faithful term tells what it is, up to flattening. -/
theorem Faithful.flatten_eq {s t : Term} (hs : s.Faithful) (ht : t.Faithful)
    (h : s.reading = t.reading) : s.flatten = t.flatten := by
  rw [← hs.proper.flatten.ofSums_addends, ← hs.sums_reading.1, h, ht.sums_reading.1,
    ht.proper.flatten.ofSums_addends]

end Term

/-! ### Equal texts -/

/-- Every term has a text, and two have the same just when they have one reading: so whatever is
merged by flattening has one text, and faithful terms have one text only if flattening merges them.
Neither the arenas nor the marks matter. -/
theorem render_eq_iff {a b : Arena} (m n : Marks) {id id' : NodeId} {s t : Term}
    (hs : s.Proper) (ht : t.Proper) (hid : a.Unfolds id s.toTree) (hid' : b.Unfolds id' t.toTree) :
    (∃ text, a.render m id = .ok text) ∧
      (a.render m id = b.render n id' ↔ s.reading = t.reading) ∧
      (s.flatten = t.flatten → a.render m id = b.render n id') ∧
      (s.Faithful → t.Faithful → a.render m id = b.render n id' → s.flatten = t.flatten) := by
  obtain ⟨text, htext, hspells⟩ := hs.gives (m := m) hid (hid.height_le.trans (Nat.le_succ _))
  obtain ⟨text', htext', hspells'⟩ :=
    ht.gives (m := n) hid' (hid'.height_le.trans (Nat.le_succ _))
  have hiff : a.render m id = b.render n id' ↔ s.reading = t.reading := by
    rw [Arena.render, Arena.render, htext, htext', Except.ok.injEq]
    constructor
    · rintro rfl
      exact (Reading.write_inj .nil .nil ((hspells []).symm.trans (hspells' []))).1
    · intro h
      exact hspells.eq (h ▸ hspells')
  refine ⟨⟨text, htext⟩, hiff, fun h => hiff.2 ?_, fun hsf htf h => hsf.flatten_eq htf (hiff.1 h)⟩
  rw [← s.reading_flatten hs, ← t.reading_flatten ht, h]

/-! ### One text for several terms -/

namespace Term

/-- The variable that has a letter for its name. -/
def letter (c : Char) (h : c.isAlphanum) : Term :=
  .var (.ofAlphanum (String.singleton c) (by simp) (by simpa using h)
    (fun hc => absurd (congrArg (·.toList.length) hc) (by simp))
    (fun hc => absurd (congrArg (·.toList.length) hc) (by simp)))

theorem faithful_letter {c : Char} {h : c.isAlphanum} : (letter c h).Faithful := .var _

theorem not_open_letter {c : Char} {h : c.isAlphanum} : ¬ (letter c h).Open := by
  intro hopen
  generalize hu : letter c h = u at hopen
  cases hopen <;> cases hu

/-- A sum of two terms. -/
def plus (s t : Term) : Term := .operator .plus [s, t]

theorem not_open_plus {s t : Term} (ht : ¬ t.Open) : ¬ (plus s t).Open := by
  intro h
  generalize hu : plus s t = u at h
  cases h with
  | operator hopen _ =>
    have hoperands : [s] ++ [t] = _ := (Term.operator.inj hu).2
    obtain ⟨-, hlast⟩ := List.append_inj' hoperands rfl
    exact ht (List.singleton_inj.1 hlast ▸ hopen)
  | _ => cases hu

theorem Faithful.plus {s t : Term} (hs : s.Faithful) (ht : t.Faithful) (hopen : ¬ s.Open) :
    (s.plus t).Faithful :=
  .operator le_rfl (by simpa using ⟨hs, ht⟩) (by simpa using fun h => absurd h hopen)

/-- A term with a subscript. -/
def subscript (s t : Term) : Term := .apply .subscript s [t]

end Term

open Term

/-- Three letters: their sum nested to the left (4) and to the right (6), a sum of two with the third
for its subscript (7), and a sum whose second operand has it (9). -/
def letters : Arena where
  nodes := #[.var "a", .var "b", .var "c", .operator .sum [⟨0⟩, ⟨1⟩], .operator .sum [⟨3⟩, ⟨2⟩],
    .operator .sum [⟨1⟩, ⟨2⟩], .operator .sum [⟨0⟩, ⟨5⟩], .apply .subscript ⟨3⟩ [⟨2⟩],
    .apply .subscript ⟨1⟩ [⟨2⟩], .operator .sum [⟨0⟩, ⟨8⟩]]
  indices := #[]

/-- Both ways of nesting have one text, and they are one when flattened. -/
theorem render_eq_iff_letters :
    letters.render .empty ⟨4⟩ = letters.render .empty ⟨6⟩ ∧
      (((letter 'a' rfl).plus (letter 'b' rfl)).plus (letter 'c' rfl)).flatten =
        ((letter 'a' rfl).plus ((letter 'b' rfl).plus (letter 'c' rfl))).flatten := by
  have hleft : (((letter 'a' rfl).plus (letter 'b' rfl)).plus (letter 'c' rfl)).Faithful :=
    (faithful_letter.plus faithful_letter not_open_letter).plus faithful_letter (not_open_plus not_open_letter)
  have hright : ((letter 'a' rfl).plus ((letter 'b' rfl).plus (letter 'c' rfl))).Faithful :=
    faithful_letter.plus (faithful_letter.plus faithful_letter not_open_letter) not_open_letter
  have hleft' : letters.Unfolds ⟨4⟩
      (((letter 'a' rfl).plus (letter 'b' rfl)).plus (letter 'c' rfl)).toTree :=
    ⟨_, rfl, rfl, ⟨_, rfl, rfl, ⟨_, rfl, rfl, trivial⟩, ⟨_, rfl, rfl, trivial⟩, trivial⟩,
      ⟨_, rfl, rfl, trivial⟩, trivial⟩
  have hright' : letters.Unfolds ⟨6⟩
      ((letter 'a' rfl).plus ((letter 'b' rfl).plus (letter 'c' rfl))).toTree :=
    ⟨_, rfl, rfl, ⟨_, rfl, rfl, trivial⟩,
      ⟨_, rfl, rfl, ⟨_, rfl, rfl, trivial⟩, ⟨_, rfl, rfl, trivial⟩, trivial⟩, trivial⟩
  obtain ⟨-, -, hflat, hfaithful⟩ :=
    render_eq_iff .empty .empty hleft.proper hright.proper hleft' hright'
  exact ⟨hflat rfl, hfaithful hleft hright (hflat rfl)⟩

/-- `(a + b)[c]` has the text of `a + b[c]`, and no flattening makes them one. -/
theorem render_subscript_of_plus :
    ∃ s t : Term, s = ((letter 'a' rfl).plus (letter 'b' rfl)).subscript (letter 'c' rfl) ∧
      t = (letter 'a' rfl).plus ((letter 'b' rfl).subscript (letter 'c' rfl)) ∧
      s.Proper ∧ t.Proper ∧ letters.Unfolds ⟨7⟩ s.toTree ∧ letters.Unfolds ⟨9⟩ t.toTree ∧
      letters.render .empty ⟨7⟩ = .ok "a + b[c]" ∧ letters.render .empty ⟨9⟩ = .ok "a + b[c]" ∧
      s.flatten ≠ t.flatten := by
  have hc : ∀ t ∈ [letter 'c' rfl], t.Proper := List.forall_mem_singleton.2 faithful_letter.proper
  have hbc : ∀ t ∈ [(letter 'b' rfl).subscript (letter 'c' rfl)], t.Proper :=
    List.forall_mem_singleton.2 (.apply faithful_letter.proper hc)
  refine ⟨_, _, rfl, rfl, ?_, ?_, ?_, ?_, rfl, rfl, by simp [subscript, plus, flatten]⟩
  · exact .apply (faithful_letter.plus faithful_letter not_open_letter).proper hc
  · exact .operator le_rfl (List.forall_mem_cons.2 ⟨faithful_letter.proper, hbc⟩)
  · exact ⟨_, rfl, rfl, ⟨_, rfl, rfl, ⟨_, rfl, rfl, trivial⟩, ⟨_, rfl, rfl, trivial⟩, trivial⟩,
      ⟨_, rfl, rfl, trivial⟩, trivial⟩
  · exact ⟨_, rfl, rfl, ⟨_, rfl, rfl, trivial⟩, ⟨_, rfl, rfl, ⟨_, rfl, rfl, trivial⟩,
      ⟨_, rfl, rfl, trivial⟩, trivial⟩, trivial⟩

end Rendering

end TensorRecipe
