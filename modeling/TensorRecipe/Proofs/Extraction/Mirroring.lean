import TensorRecipe.Proofs.Extraction.Dressing
import TensorRecipe.Proofs.Tree.Sums

/-!
# What becomes of a tree

Extraction makes a tree anew node by node.  Each sum that no let binds gives way to a name that was
minted for it, and around some nodes there are lets now that bind such names to what became of their
sums otherwise (`Mirrors`).  Placing keeps to this, as it only dresses nodes (`Mirrors.dress`).
Where lets bind all sums of a tree (`Arena.Settled`), it stays the same node.
-/

namespace TensorRecipe

/-- All sums in the tree at a handle are kept. -/
def Arena.Settled (a : Arena) (kept : NodeId → Prop) (id : NodeId) : Prop :=
  ∀ s, a.Reaches id s → a.IsSum s → kept s

theorem Arena.Settled.child {a : Arena} {kept : NodeId → Prop} {id c : NodeId}
    (h : a.Settled kept id) (hc : a.Child id c) : a.Settled kept c :=
  fun s hs => h s (.head hc hs)

theorem Binding.forall₂_of_map {R : NodeId → NodeId → Prop} :
    ∀ {bs cs : List Binding}, cs.map Binding.name = bs.map Binding.name →
      List.Forall₂ R (bs.map Binding.value) (cs.map Binding.value) →
        List.Forall₂ (fun b c => c.name = b.name ∧ R b.value c.value) bs cs
  | [], [], _, _ => .nil
  | b :: bs, c :: cs, hnames, .cons hd hvalues => by
    obtain ⟨hname, hnames⟩ := List.cons.inj hnames
    exact .cons ⟨hname, hd⟩ (forall₂_of_map hnames hvalues)

theorem Node.exists_letIn {R : NodeId → NodeId → Prop} {bindings : List Binding} {body : NodeId}
    {node : Node} (hshape : node.shape = (letIn bindings body).shape)
    (h : List.Forall₂ R (letIn bindings body).children node.children) :
    ∃ bindings' body', node = .letIn bindings' body' ∧ R body body' ∧
      List.Forall₂ (fun b c => c.name = b.name ∧ R b.value c.value) bindings bindings' := by
  cases node with
  | letIn bindings' body' =>
    obtain ⟨values, last, heq, hvalues, hbody⟩ := Arena.exists_append_singleton h
    obtain ⟨rfl, hlast⟩ := List.append_inj' heq rfl
    obtain rfl := List.singleton_inj.1 hlast
    exact ⟨bindings', body', rfl, hbody, Binding.forall₂_of_map (Shape.letIn.inj hshape) hvalues⟩
  | _ => cases hshape

theorem eq_of_forall₂ {α : Type} {R : α → α → Prop} {xs ys : List α} (h : List.Forall₂ R xs ys)
    (heq : ∀ x ∈ xs, ∀ y, R x y → y = x) : ys = xs := by
  induction h with
  | nil => rfl
  | cons hd _ ih =>
    rw [heq _ (by simp) _ hd, ih fun x hx => heq x (List.mem_cons_of_mem _ hx)]

namespace Extraction

open PassM

/-! ### Mirroring -/

/-- The name was minted for a sum that is not kept. -/
structure MintedFor (a : Arena) (kept : NodeId → Prop) (log : List (String × NodeId)) (x : String)
    (s : NodeId) : Prop where
  logged : (x, s) ∈ log
  isSum : a.IsSum s
  unkept : ¬ kept s

/-- A handle of `b` names what became of a tree of `a`: a node has become one of the same shape, and
is the same where there was nothing to extract, but a sum that is not kept has become a name that was
minted for it.  Lets may have been put around, which bind such names to what became of their sums;
these are nodes still, being `named`. -/
inductive Mirrors (a b : Arena) (kept : NodeId → Prop) (log : List (String × NodeId)) :
    Bool → NodeId → NodeId → Prop where
  | reference {id new : NodeId} {x : String} (minted : MintedFor a kept log x id)
    (entry : b.get new = .ok (.var x)) : Mirrors a b kept log false id new
  | node {named : Bool} {id new : NodeId} {node node' : Node} (old : a.get id = .ok node)
    (entry : b.get new = .ok node') (shape : node'.shape = node.shape)
    (length : node.children.length = node'.children.length)
    (parts : ∀ k h h', Mirrors a b kept log false (node.children.get ⟨k, h⟩)
      (node'.children.get ⟨k, h'⟩))
    (stays : a.IsSum id → named = true ∨ kept id) (same : a.Settled kept id → new = id) :
    Mirrors a b kept log named id new
  | letIn {named : Bool} {id new body : NodeId} {bindings : List Binding} (sum : Binding → NodeId)
    (entry : b.get new = .ok (.letIn bindings body)) (nonempty : bindings ≠ [])
    (minted : ∀ v ∈ bindings, MintedFor a kept log v.name (sum v))
    (values : ∀ v ∈ bindings, Mirrors a b kept log true (sum v) v.value)
    (body : Mirrors a b kept log named id body) (moved : ¬ a.Settled kept id) :
    Mirrors a b kept log named id new

section

variable {a b c : Arena} {kept kept' : NodeId → Prop} {log log' : List (String × NodeId)}
  {x : String} {s root id new body : NodeId} {named : Bool}

theorem MintedFor.mono (hlog : log ⊆ log') (h : MintedFor a kept log x s) :
    MintedFor a kept log' x s :=
  ⟨hlog h.logged, h.isSum, h.unkept⟩

theorem MintedFor.not_settled (h : MintedFor a kept log x s) : ¬ a.Settled kept s :=
  fun hs => h.unkept (hs s .refl h.isSum)

namespace Mirrors

theorem mono (hbc : b.Extends c) (hlog : log ⊆ log') (h : Mirrors a b kept log named id new) :
    Mirrors a c kept log' named id new := by
  induction h with
  | reference minted entry => exact .reference (minted.mono hlog) (hbc.get entry)
  | node old entry shape length _ stays same ih =>
    exact .node old (hbc.get entry) shape length ih stays same
  | letIn sum entry nonempty minted _ _ moved ihv ihb =>
    exact .letIn sum (hbc.get entry) nonempty (fun v hv => (minted v hv).mono hlog) ihv ihb moved

/-- It does not matter what is kept besides sums. -/
theorem kept_congr (hkept : ∀ c, a.IsSum c → (kept c ↔ kept' c))
    (h : Mirrors a b kept log named id new) : Mirrors a b kept' log named id new := by
  have hsettled : ∀ {c}, a.Settled kept' c → a.Settled kept c := fun h s hs hsum =>
    (hkept s hsum).2 (h s hs hsum)
  have hminted : ∀ {x s}, MintedFor a kept log x s → MintedFor a kept' log x s := fun h =>
    ⟨h.logged, h.isSum, fun hs => h.unkept ((hkept _ h.isSum).2 hs)⟩
  induction h with
  | reference minted entry => exact .reference (hminted minted) entry
  | node old entry shape length _ stays same ih =>
    exact .node old entry shape length ih (fun hsum => (stays hsum).imp_right (hkept _ hsum).1)
      fun hs => same (hsettled hs)
  | letIn sum entry nonempty minted _ _ moved ihv ihb =>
    exact .letIn sum entry nonempty (fun v hv => hminted (minted v hv)) ihv ihb
      fun hs => moved (hsettled hs)

/-- Where there is nothing to extract, nothing changes. -/
theorem same (h : Mirrors a b kept log named id new) (hs : a.Settled kept id) : new = id := by
  cases h with
  | reference minted _ => exact absurd hs minted.not_settled
  | node _ _ _ _ _ _ same => exact same hs
  | letIn _ _ _ _ _ _ moved => exact absurd hs moved

/-- What is a sum still was one before, and was kept. -/
theorem isSum (h : Mirrors a b kept log false id new) (hsum : b.IsSum new) :
    a.IsSum id ∧ kept id := by
  obtain ⟨is, e, hsum⟩ := hsum
  cases h with
  | reference _ entry => cases entry.symm.trans hsum
  | @node _ _ _ node _ old entry shape _ _ stays _ =>
    obtain rfl := Except.ok.inj (entry.symm.trans hsum)
    have hid : a.IsSum id := by
      cases node with
      | indexSum js e' => exact ⟨js, e', old⟩
      | _ => cases shape
    exact ⟨hid, (stays hid).resolve_left nofun⟩
  | letIn _ entry _ _ _ _ _ => cases entry.symm.trans hsum

theorem exists_unfolds (h : Mirrors a b kept log named id new) : ∃ t, b.Unfolds new t := by
  induction h with
  | reference _ entry => exact ⟨_, .of_get entry .nil⟩
  | node _ entry _ length _ _ _ ih =>
    obtain ⟨ts, hts⟩ := Arena.exists_forall₂ (R := b.Unfolds) fun c hc => by
      obtain ⟨⟨k, hk⟩, rfl⟩ := List.mem_iff_get.1 hc
      exact ih k (length ▸ hk) hk
    exact ⟨_, .of_get entry hts⟩
  | letIn _ entry _ _ _ _ _ ihv ihb =>
    obtain ⟨ts, hts⟩ := Arena.exists_forall₂ (R := b.Unfolds) fun c hc => by
      rcases List.mem_append.1 hc with hc | hc
      · obtain ⟨v, hv, rfl⟩ := List.mem_map.1 hc
        exact ihv v hv
      · rwa [List.mem_singleton.1 hc]
    exact ⟨_, .of_get entry hts⟩

/-- A node that has been made anew, if any of its children has. -/
theorem of_forall₂ {node node' : Node} (old : a.get id = .ok node) (entry : b.get new = .ok node')
    (shape : node'.shape = node.shape)
    (parts : List.Forall₂ (Mirrors a b kept log false) node.children node'.children)
    (stays : a.IsSum id → named = true ∨ kept id)
    (same : node'.children = node.children → new = id) : Mirrors a b kept log named id new := by
  refine .node old entry shape parts.length_eq (List.forall₂_iff_get.1 parts).2 stays fun hs => ?_
  exact same (eq_of_forall₂ parts fun c hc c' hcc' => hcc'.same (hs.child ⟨node, old, hc⟩))

/-- A let in what became of a tree is what became of a let of the tree, or it binds names that were
minted for sums to what became of these. -/
theorem let_cases (hlog : ∀ e ∈ log, a.Reaches root e.2) (h : Mirrors a b kept log named id new)
    (hid : a.Reaches root id) {top : NodeId} {bindings : List Binding}
    (htop : b.Reaches new top) (hlet : b.get top = .ok (.letIn bindings body)) :
    (∃ old olds inner, a.Reaches root old ∧ a.get old = .ok (.letIn olds inner) ∧
      Mirrors a b kept log false inner body ∧ List.Forall₂ (fun u v =>
        v.name = u.name ∧ Mirrors a b kept log false u.value v.value) olds bindings) ∨
    ∀ v ∈ bindings, ∃ s, MintedFor a kept log v.name s ∧ Mirrors a b kept log true s v.value := by
  induction h with
  | reference _ entry =>
    obtain rfl | ⟨d, hmem, -⟩ := (Arena.reaches_iff entry).1 htop
    · cases entry.symm.trans hlet
    · cases hmem
  | @node _ id _ node node' old entry shape length parts _ _ ih =>
    obtain rfl | ⟨d, hmem, hd⟩ := (Arena.reaches_iff entry).1 htop
    · obtain rfl := Except.ok.inj (entry.symm.trans hlet)
      have hparts := List.forall₂_iff_get.2 ⟨length, parts⟩
      obtain ⟨olds, inner, rfl⟩ : ∃ olds inner, node = .letIn olds inner := by
        cases node with
        | letIn olds inner => exact ⟨olds, inner, rfl⟩
        | _ => cases shape
      obtain ⟨_, _, heq, hbody, hbindings⟩ := Node.exists_letIn shape hparts
      obtain ⟨rfl, rfl⟩ := Node.letIn.inj heq
      exact .inl ⟨id, olds, inner, hid, old, hbody, hbindings⟩
    · obtain ⟨⟨k, hk⟩, rfl⟩ := List.mem_iff_get.1 hmem
      exact ih k (length ▸ hk) hk (hid.tail ⟨_, old, List.get_mem _ _⟩) hd
  | letIn sum entry _ minted values _ _ ihv ihb =>
    obtain rfl | ⟨d, hmem, hd⟩ := (Arena.reaches_iff entry).1 htop
    · obtain ⟨rfl, rfl⟩ := Node.letIn.inj (Except.ok.inj (entry.symm.trans hlet))
      exact .inr fun v hv => ⟨sum v, minted v hv, values v hv⟩
    · rcases List.mem_append.1 hmem with hmem | hmem
      · obtain ⟨u, hu, rfl⟩ := List.mem_map.1 hmem
        exact ihv u hu (hlog _ (minted u hu).logged) hd
      · obtain rfl := List.mem_singleton.1 hmem
        exact ihb hid hd

theorem around {bindings : List Binding} (h : Mirrors a b kept log named id body)
    (entry : b.get new = .ok (.letIn bindings body)) (nonempty : bindings ≠ [])
    (values : ∀ v ∈ bindings, ∃ s, MintedFor a kept log v.name s ∧
      Mirrors a b kept log true s v.value)
    (moved : ¬ a.Settled kept id) : Mirrors a b kept log named id new := by
  have : Nonempty NodeId := ⟨id⟩
  choose! sum hsum hvalue using values
  exact .letIn sum entry nonempty hsum hvalue h moved

end Mirrors

/-- The temporaries of a region are made of sums of a tree, which does not mention them itself. -/
structure Stores (a : Arena) (root : NodeId) (kept : NodeId → Prop) (log : List (String × NodeId))
    (temporaries : List Temporary) (b : Arena) : Prop where
  plain : ∀ id, a.Reaches root id → Plain temporaries b id
  reaches : ∀ e ∈ log, a.Reaches root e.2
  values : ∀ s ∈ temporaries, ∃ c, MintedFor a kept log s.name c ∧
    Mirrors a b kept log true c s.value

theorem Mirrors.dress {temporaries : List Temporary} (hs : Stores a root kept log temporaries b)
    {mid : NodeId} (h : Dressed temporaries b c mid new) :
    ∀ {named : Bool} {id : NodeId}, a.Reaches root id → Mirrors a b kept log named id mid →
      Mirrors a c kept log named id new := by
  induction h with
  | @node mid new node node' old entry shape length parts same ih =>
    intro named id hid h
    cases h with
    | reference minted entry' =>
      obtain rfl := Except.ok.inj (old.symm.trans entry')
      obtain rfl := Node.eq_var shape
      exact .reference minted entry
    | node old' entry' shape' length' parts' stays same' =>
      obtain rfl := Except.ok.inj (old.symm.trans entry')
      refine .node old' entry (shape.trans shape') (length'.trans length) (fun k h h' => ?_) stays
        fun hsettled => ?_
      · exact ih k (length' ▸ h) h' (hid.tail ⟨_, old', List.get_mem _ _⟩)
          (parts' k h (length' ▸ h))
      · obtain rfl := same' hsettled
        exact same (hs.plain _ hid)
    | letIn sum entry' nonempty minted values body moved =>
      obtain rfl := Except.ok.inj (old.symm.trans entry')
      have hparts : List.Forall₂ (fun e e' => ∀ named id, a.Reaches root id →
          Mirrors a b kept log named id e → Mirrors a c kept log named id e') _ node'.children :=
        List.forall₂_iff_get.2 ⟨length, fun k h h' _ _ => ih k h h'⟩
      obtain ⟨bindings, body', rfl, hbody, hbindings⟩ := Node.exists_letIn shape hparts
      refine (hbody _ _ hid body).around entry ?_ (fun v hv => ?_) moved
      · rintro rfl
        exact nonempty (List.forall₂_nil_right_iff.1 hbindings)
      · obtain ⟨u, hu, hname, hvalue⟩ := Arena.exists_of_mem_right hbindings hv
        refine ⟨sum u, hname ▸ minted u hu, hvalue _ _ ?_ (values u hu)⟩
        exact hs.reaches _ (minted u hu).logged
  | letIn source entry nonempty names _ _ moved ihv ihb =>
    intro named id hid h
    refine (ihb hid h).around entry nonempty (fun v hv => ?_) fun hsettled => ?_
    · obtain ⟨hmem, hname⟩ := names v hv
      obtain ⟨s, hminted, hvalue⟩ := hs.values _ hmem
      exact ⟨s, hname ▸ hminted, ihv v hv (hs.reaches _ hminted.logged) hvalue⟩
    · obtain rfl := h.same hsettled
      exact moved (hs.plain _ hid)

/-- Binding the temporaries of a region in its body keeps to what the body mirrors. -/
theorem ensures_bindTemporaries_mirrors {temporaries : List Temporary} {w : Workspace Memory}
    (hs : Stores a root kept log temporaries w.arena) (hid : a.Reaches root id)
    (hbody : Mirrors a w.arena kept log false id body)
    (hmoved : temporaries ≠ [] → ¬ a.Settled kept id) :
    (bindTemporaries temporaries body).Ensures w fun new w' =>
      Grows w w' ∧ w'.memory = w.memory ∧ Mirrors a w'.arena kept log false id new := by
  refine (ensures_bindTemporaries (fun s hmem => ?_) hbody.exists_unfolds).mono ?_
  · obtain ⟨c, -, hvalue⟩ := hs.values s hmem
    exact hvalue.exists_unfolds
  rintro new w' ⟨hw', hmemory, -, mid, hmid, hnew⟩
  refine ⟨hw', hmemory, ?_⟩
  have hmirrors := Mirrors.dress hs hmid hid hbody
  rcases hnew with rfl | ⟨bindings, hentry, hne, hvalues⟩
  · exact hmirrors
  refine hmirrors.around hentry hne (fun v hv => ?_) (hmoved ?_)
  · obtain ⟨s, hmem, hname, hdressed⟩ := hvalues v hv
    obtain ⟨c, hminted, hvalue⟩ := hs.values s hmem
    exact ⟨c, hname ▸ hminted, .dress hs hdressed (hs.reaches _ hminted.logged) hvalue⟩
  · rintro rfl
    obtain ⟨v, hv⟩ := List.exists_mem_of_ne_nil _ hne
    obtain ⟨s, hmem, -⟩ := hvalues v hv
    cases hmem

end

end Extraction

end TensorRecipe
