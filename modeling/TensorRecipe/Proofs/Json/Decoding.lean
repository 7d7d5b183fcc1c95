import TensorRecipe.Json.Decode
import TensorRecipe.Proofs.Json.Reading

/-!
# Decoding what was encoded

Numbers, texts, lists and records are decoded from the values that encode them.  A record may hold
other members besides those it is asked for, in any order; a member that it holds once is found
(`Json.memberOnce?_of_mem`).
-/

namespace TensorRecipe

theorem mapM_eq_some_map {α β : Type} {f : α → Option β} {g : α → β} : ∀ {xs : List α},
    (∀ x ∈ xs, f x = some (g x)) → xs.mapM f = some (xs.map g)
  | [], _ => rfl
  | x :: xs, h => by
    have hrest := mapM_eq_some_map fun y hy => h y (List.mem_cons_of_mem x hy)
    simp [h x (by simp), hrest]

theorem mapM_eq_none {α β : Type} {f : α → Option β} : ∀ {xs : List α},
    (∃ x ∈ xs, f x = none) → xs.mapM f = none
  | [], ⟨x, hx, _⟩ => by simp at hx
  | x :: xs, ⟨y, hy, hnone⟩ => by
    rw [List.mapM_cons]
    rcases List.mem_cons.1 hy with rfl | hy
    · rw [hnone]
      rfl
    · rw [mapM_eq_none ⟨y, hy, hnone⟩]
      cases f x <;> rfl

theorem isSome_mapM {α β : Type} {f : α → Option β} : ∀ {xs : List α},
    (∀ x ∈ xs, (f x).isSome) → (xs.mapM f).isSome
  | [], _ => rfl
  | x :: xs, h => by
    obtain ⟨y, hy⟩ := Option.isSome_iff_exists.1 (h x (by simp))
    obtain ⟨ys, hys⟩ := Option.isSome_iff_exists.1
      (isSome_mapM fun z hz => h z (List.mem_cons_of_mem x hz))
    rw [List.mapM_cons, hy, hys]
    rfl

theorem mem_of_mapM_eq_some {α β : Type} {f : α → Option β} : ∀ {xs : List α} {ys : List β},
    xs.mapM f = some ys → ∀ y ∈ ys, ∃ x ∈ xs, f x = some y
  | [], ys, h, y, hy => by
    obtain rfl : [] = ys := by simpa using h
    cases hy
  | x :: xs, ys, h, y, hy => by
    rw [List.mapM_cons] at h
    obtain ⟨z, hz, h⟩ := Option.bind_eq_some_iff.1 h
    obtain ⟨zs, hzs, h⟩ := Option.bind_eq_some_iff.1 h
    obtain rfl : z :: zs = ys := by simpa using h
    rcases List.mem_cons.1 hy with rfl | hy
    · exact ⟨x, by simp, hz⟩
    · obtain ⟨x', hx', hy'⟩ := mem_of_mapM_eq_some hzs y hy
      exact ⟨x', List.mem_cons_of_mem x hx', hy'⟩

namespace Json

theorem asText?_text (s : String) : (Json.text s).asText? = some s := rfl

theorem asNat?_nat {bound n : Nat} (h : n < bound) : (Json.nat n).asNat? bound = some n :=
  Numeral.toNat?_ofNat h

section

variable {α : Type} {item? : Json → Option α} {toJson : α → Json} {xs : List α}

theorem asList?_map (h : ∀ x ∈ xs, item? (toJson x) = some x) :
    (Json.arr (xs.map toJson)).asList? item? = some xs := by
  have hmap := mapM_eq_some_map (f := item? ∘ toJson) (g := id) h
  rw [asList?, List.mapM_map, hmap, List.map_id]

theorem asList?_map_eq_none (h : ∃ x ∈ xs, item? (toJson x) = none) :
    (Json.arr (xs.map toJson)).asList? item? = none := by
  rw [asList?, List.mapM_map]
  exact mapM_eq_none h

theorem mem_of_asList? {json : Json} (h : json.asList? item? = some xs) :
    ∀ x ∈ xs, ∃ item, item? item = some x := by
  intro x hx
  cases json with
  | arr items =>
    obtain ⟨item, -, hitem⟩ := mem_of_mapM_eq_some h x hx
    exact ⟨item, hitem⟩
  | _ => cases h

end

/-! ### Records -/

section

variable {members : List (String × Json)}

theorem memberOnce?_of_mem (hnodup : (members.map Prod.fst).Nodup) {m : String × Json}
    (hm : m ∈ members) : memberOnce? members m.1 = some (some m.2) := by
  have hfilter : members.filter (·.1 == m.1) = [m] := by
    obtain ⟨before, after, rfl⟩ := List.append_of_mem hm
    rw [List.map_append, List.map_cons, List.nodup_append, List.nodup_cons] at hnodup
    obtain ⟨-, ⟨hafter, -⟩, hbefore⟩ := hnodup
    have hbefore' : before.filter (·.1 == m.1) = [] := by
      refine List.filter_eq_nil_iff.2 fun n hn heq => ?_
      exact hbefore n.1 (List.mem_map_of_mem hn) m.1 (by simp) (by simpa using heq)
    have hafter' : after.filter (·.1 == m.1) = [] := by
      refine List.filter_eq_nil_iff.2 fun n hn heq => hafter ?_
      have hname : n.1 = m.1 := by simpa using heq
      exact hname ▸ List.mem_map_of_mem hn
    rw [List.filter_append, hbefore', List.filter_cons_of_pos (by simp), hafter']
    rfl
  rw [memberOnce?, hfilter]

theorem textMembers?_object :
    textMembers? (members.map fun (key, value) => (some key, value)) = some members := by
  have hmap : members.mapM ((fun ((key, value) : Option String × Json) => key.map (·, value)) ∘
      fun (key, value) => (some key, value)) = some (members.map id) :=
    mapM_eq_some_map fun _ _ => rfl
  rw [textMembers?, List.mapM_map, hmap, List.map_id]

theorem record?_object {names : List String} (hnames : members.map Prod.fst = names)
    (hnodup : names.Nodup) :
    (Json.object members).record? names = some (members.map fun m => some m.2) := by
  subst hnames
  rw [Json.object, record?, textMembers?_object]
  show (members.map Prod.fst).mapM (memberOnce? members) = _
  rw [List.mapM_map]
  exact mapM_eq_some_map fun m hm => memberOnce?_of_mem hnodup hm

end

end Json

end TensorRecipe
