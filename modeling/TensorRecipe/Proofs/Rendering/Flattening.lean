import TensorRecipe.Proofs.Rendering.Terms

/-!
# Flattened terms

Sums in sums and products in products may be merged: `t.flatten` does so everywhere.

Main statement: flattening changes no reading, hence no text (`Term.reading_flatten`).
-/

namespace TensorRecipe

namespace Rendering

namespace Term

/-! ### Flattening -/

/-- The operands of an operator, or the term itself if it is not one of that operator. -/
def operands (op : Infix) : Term → List Term
  | operator op' ts => if op' = op then ts else [operator op' ts]
  | t => [t]

mutual

/-- Sums in sums and products in products are merged. -/
def flatten : Term → Term
  | var x => var x
  | operator op ts => operator op ((flattenAll ts).flatMap (operands op))
  | apply how head args => apply how head.flatten (flattenAll args)
  | letIn bs body => letIn (flattenValues bs) body.flatten

/-- Several terms, each flattened. -/
def flattenAll : List Term → List Term
  | [] => []
  | t :: ts => t.flatten :: flattenAll ts

/-- Bindings with their values flattened. -/
def flattenValues : List (Name × Term) → List (Name × Term)
  | [] => []
  | (x, t) :: bs => (x, t.flatten) :: flattenValues bs

end

@[simp]
theorem flattenAll_eq_map (ts : List Term) : flattenAll ts = ts.map flatten := by
  induction ts with
  | nil => rfl
  | cons t ts ih => rw [flattenAll, ih, List.map_cons]

@[simp]
theorem flattenValues_eq_map (bs : List (Name × Term)) :
    flattenValues bs = bs.map fun b => (b.1, b.2.flatten) := by
  induction bs with
  | nil => rfl
  | cons b bs ih => rw [flattenValues, ih, List.map_cons]

theorem isSum_flatten (t : Term) : t.flatten.isSum = t.isSum := by
  cases t with
  | operator op ts => cases op <;> rfl
  | _ => rfl

/-- Whether the operand of a product is a product does not depend on how it is flattened, and so for
sums. -/
theorem operands_eq_self {op : Infix} {t : Term} (h : ∀ ts, t ≠ operator op ts) :
    t.operands op = [t] := by
  cases t with
  | operator op' ts =>
    rw [operands, if_neg]
    rintro rfl
    exact h ts rfl
  | _ => rfl

theorem operands_self (op : Infix) (ts : List Term) : (operator op ts).operands op = ts :=
  if_pos rfl

namespace Proper

variable {t : Term}

theorem of_mem_operands (h : t.Proper) {op : Infix} : ∀ u ∈ t.operands op, u.Proper := by
  cases h with
  | operator hlen hts =>
    rw [operands]
    split
    · exact hts
    · simpa using operator hlen hts
  | var x => simpa [operands] using var x
  | apply hhead hargs => simpa [operands] using apply hhead hargs
  | letIn hne hbs hbody => simpa [operands] using letIn hne hbs hbody

theorem operands_ne_nil (h : t.Proper) (op : Infix) : t.operands op ≠ [] := by
  cases h with
  | operator hlen hts =>
    rw [operands]
    split
    · rintro rfl
      simp at hlen
    · simp
  | _ => simp [operands]

theorem flatten (h : t.Proper) : t.flatten.Proper := by
  induction h with
  | var x => exact .var x
  | @operator op ts hlen hts ih =>
    rw [Term.flatten, flattenAll_eq_map, List.flatMap_map]
    refine .operator ?_ fun u hu => ?_
    · have hpos : ∀ t ∈ ts, 1 ≤ (t.flatten.operands op).length := fun t ht =>
        List.length_pos_iff.2 ((ih t ht).operands_ne_nil op)
      rw [List.length_flatMap]
      have hsum := List.card_nsmul_le_sum (ts.map fun t => (t.flatten.operands op).length) 1
        (List.forall_mem_map.2 hpos)
      simp only [List.length_map, smul_eq_mul, mul_one] at hsum
      omega
    · obtain ⟨t, ht, hut⟩ := List.mem_flatMap.1 hu
      exact (ih t ht).of_mem_operands u hut
  | apply hhead hargs ihhead ihargs =>
    rw [Term.flatten, flattenAll_eq_map]
    exact .apply ihhead (List.forall_mem_map.2 ihargs)
  | letIn hne hbs hbody ihbs ihbody =>
    rw [Term.flatten, flattenValues_eq_map]
    exact .letIn (by simpa using hne) (List.forall_mem_map.2 ihbs) ihbody

end Proper

end Term

/-! ### Flattening does not show -/

mutual

theorem Reading.append_append (k l : Rest) :
    ∀ r : Reading, (r.append k).append l = r.append (k.append l)
  | .name x k' => by simp only [Reading.append, Rest.append_append k l k']
  | .group r k' => by simp only [Reading.append, Rest.append_append k l k']
  | .letIn bs body => by simp only [Reading.append, Reading.append_append k l body]

theorem Rest.append_append (k l : Rest) :
    ∀ k' : Rest, (k'.append k).append l = k'.append (k.append l)
  | .stop => rfl
  | .apply how args k' => by simp only [Rest.append, Rest.append_append k l k']
  | .operand op r => by simp only [Rest.append, Reading.append_append k l r]

end

theorem Reading.join_cons {op : Infix} {r : Reading} {rs : List Reading} (h : rs ≠ []) :
    join op (r :: rs) = r.append (.operand op (join op rs)) := by
  cases rs with
  | nil => exact absurd rfl h
  | cons s rs => rfl

theorem Reading.join_append {op : Infix} {ss : List Reading} (hss : ss ≠ []) :
    ∀ {rs : List Reading}, rs ≠ [] →
      join op (rs ++ ss) = (join op rs).append (.operand op (join op ss))
  | [], h => absurd rfl h
  | [r], _ => join_cons hss
  | r :: s :: rs, _ => by
    have hne : s :: rs ≠ [] := List.cons_ne_nil s rs
    rw [List.cons_append, join_cons (List.append_ne_nil_of_left_ne_nil hne ss),
      join_append hss hne, join_cons hne, append_append]
    rfl

/-- Operands that are themselves joined. -/
theorem Reading.join_flatMap {op : Infix} {α : Type} {g : α → List Reading} :
    ∀ {xs : List α}, (∀ x ∈ xs, g x ≠ []) →
      join op (xs.flatMap g) = join op (xs.map fun x => join op (g x))
  | [], _ => rfl
  | [x], _ => by simp [join]
  | x :: y :: xs, h => by
    have hne : (y :: xs).flatMap g ≠ [] := by
      simp [h y (by simp)]
    rw [List.flatMap_cons, join_append hne (h x (by simp)), List.map_cons, join_cons (by simp),
      join_flatMap fun z hz => h z (List.mem_cons_of_mem x hz)]

namespace Term

theorem join_operands (op : Infix) (t : Term) :
    Reading.join op ((t.operands op).map fun u => asOperand op u.isSum u.reading) =
      asOperand op t.isSum t.reading := by
  by_cases h : ∃ ts, t = operator op ts
  · obtain ⟨ts, rfl⟩ := h
    rw [operands_self, reading, operandReadings_eq_map]
    cases op <;> rfl
  · rw [operands_eq_self fun ts hts => h ⟨ts, hts⟩]
    rfl

theorem reading_flatten {t : Term} (h : t.Proper) : t.flatten.reading = t.reading := by
  induction h with
  | var x => rfl
  | @operator op ts hlen hts ih =>
    rw [flatten, reading, reading, flattenAll_eq_map, operandReadings_eq_map,
      operandReadings_eq_map, List.flatMap_map, List.map_flatMap, Reading.join_flatMap fun t ht => by
        simpa using (hts t ht).flatten.operands_ne_nil op]
    congr 1
    refine List.map_congr_left fun t ht => ?_
    rw [join_operands, isSum_flatten, ih t ht]
  | apply hhead hargs ihhead ihargs =>
    rw [flatten, reading, reading, flattenAll_eq_map, readings_eq_map, readings_eq_map, ihhead,
      List.map_map, Function.comp_def, List.map_congr_left ihargs]
  | letIn hne hbs hbody ihbs ihbody =>
    rw [flatten, reading, reading, flattenValues_eq_map, valueReadings_eq_map,
      valueReadings_eq_map, ihbody, List.map_map]
    congr 1
    exact List.map_congr_left fun b hb => congrArg (b.1, ·) (ihbs b hb)

end Term

end Rendering

end TensorRecipe
