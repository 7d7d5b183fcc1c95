import Mathlib.Algebra.Order.Field.Power
import Mathlib.Data.Int.Log
import Mathlib.Data.Rat.Floor
import Mathlib.Tactic.FieldSimp
import Mathlib.Tactic.Linarith
import Mathlib.Tactic.Positivity
import Mathlib.Tactic.Ring
import TensorRecipe.Binary64.Rounding

/-!
# Rounding keeps the order

A quotient is rounded in units of its last place, whose exponent is a logarithm of it
(`Binary64.unitExponent_eq`), and the magnitudes of one unit come after those of the unit below.  So
of two quotients the greater is never rounded to the lower rank (`Binary64.rankOfRatio_mono`), and of
two ranks the greater never has the lower magnitude (`Binary64.value_ofRank_mono`).  Products and
quotients of doubles inherit both.
-/

namespace TensorRecipe

theorem zpow_mul_toNat {b : ℚ} (hb : b ≠ 0) (e : ℤ) : b ^ e * b ^ (-e).toNat = b ^ e.toNat := by
  rw [← zpow_natCast, ← zpow_natCast, ← zpow_add₀ hb]
  congr 1
  omega

theorem roundHalfEven_mono {num den num' den' : Nat} (hden : 0 < den) (hden' : 0 < den')
    (h : num * den' ≤ num' * den) : roundHalfEven num den ≤ roundHalfEven num' den' := by
  have hnum := Nat.div_add_mod num den
  have hnum' := Nat.div_add_mod num' den'
  have hrest := Nat.mod_lt num hden
  have hrest' := Nat.mod_lt num' hden'
  rw [roundHalfEven, roundHalfEven]
  generalize num / den = floor at *
  generalize num % den = rest at *
  generalize num' / den' = floor' at *
  generalize num' % den' = rest' at *
  subst hnum hnum'
  have hfloor : floor ≤ floor' := by
    by_contra hlt
    nlinarith [Nat.mul_le_mul_left (den * den') (show floor' + 1 ≤ floor by omega)]
  rcases hfloor.lt_or_eq with hlt | rfl
  · split_ifs <;> omega
  · -- the integers are the same, so the rests are in the order of the quotients
    have hrests : rest * den' ≤ rest' * den := by nlinarith
    have hhalf : den ≤ 2 * rest → den' ≤ 2 * rest' := fun hle => by
      by_contra hlt
      nlinarith
    have habove : den < 2 * rest → den' < 2 * rest' := fun hle => by
      by_contra hlt
      nlinarith
    split_ifs <;> omega

namespace Binary64

/-! ### The unit in the last place -/

theorem inUnits_pos (num : Nat) {den : Nat} (hden : 0 < den) (e : ℤ) : 0 < (inUnits num den e).2 :=
  Nat.mul_pos hden (Nat.pow_pos (by decide))

theorem inUnits_div (num : Nat) {den : Nat} (hden : 0 < den) (e : ℤ) :
    ((inUnits num den e).1 : ℚ) / (inUnits num den e).2 = num / den / 2 ^ e := by
  have hden' : (den : ℚ) ≠ 0 := by positivity
  simp only [inUnits, Nat.pow_eq]
  push_cast
  rw [← zpow_mul_toNat two_ne_zero e]
  field_simp

theorem log_div {num den : Nat} (hnum : 0 < num) (hden : 0 < den) :
    (num.log2 : ℤ) - den.log2 - 1 ≤ Int.log 2 ((num : ℚ) / den) ∧
      Int.log 2 ((num : ℚ) / den) ≤ (num.log2 : ℤ) - den.log2 := by
  have hlow : ∀ {n : Nat}, 0 < n → (2 : ℚ) ^ (n.log2 : ℤ) ≤ n := fun {n} hn => by
    rw [zpow_natCast]
    exact_mod_cast Nat.log2_self_le hn.ne'
  have hhigh : ∀ n : Nat, (n : ℚ) < 2 ^ ((n.log2 : ℤ) + 1) := fun n => by
    rw [← Nat.cast_succ, zpow_natCast]
    exact_mod_cast Nat.lt_log2_self
  have hden' : (0 : ℚ) < den := by exact_mod_cast hden
  have hquotient : (0 : ℚ) < num / den := by positivity
  have hadd : ∀ i j : ℤ, (2 : ℚ) ^ (i + j) = 2 ^ i * 2 ^ j := fun i j => zpow_add₀ (by norm_num) i j
  constructor
  · refine (Int.zpow_le_iff_le_log (by norm_num) hquotient).1 ((le_div_iff₀ hden').2 ?_)
    calc (2 : ℚ) ^ ((num.log2 : ℤ) - den.log2 - 1) * den
        ≤ 2 ^ ((num.log2 : ℤ) - den.log2 - 1) * 2 ^ ((den.log2 : ℤ) + 1) :=
          mul_le_mul_of_nonneg_left (hhigh den).le (by positivity)
      _ = 2 ^ (num.log2 : ℤ) := by rw [← hadd]; congr 1; ring
      _ ≤ num := hlow hnum
  · refine Int.lt_add_one_iff.1 ((Int.lt_zpow_iff_log_lt (by norm_num) hquotient).1
      ((div_lt_iff₀ hden').2 ?_))
    calc (num : ℚ) < 2 ^ ((num.log2 : ℤ) + 1) := hhigh num
      _ = 2 ^ ((num.log2 : ℤ) - den.log2 + 1) * 2 ^ (den.log2 : ℤ) := by rw [← hadd]; congr 1; ring
      _ ≤ 2 ^ ((num.log2 : ℤ) - den.log2 + 1) * den :=
          mul_le_mul_of_nonneg_left (hlow hden) (by positivity)

/-- The unit leaves 53 binary digits in front of it, unless its exponent is the least. -/
theorem unitExponent_eq {num den : Nat} (hnum : 0 < num) (hden : 0 < den) :
    unitExponent num den = max (-1074) (Int.log 2 ((num : ℚ) / den) - 52) := by
  obtain ⟨hlow, hhigh⟩ := log_div hnum hden
  have hquotient : (0 : ℚ) < num / den := by positivity
  have hbelow : ∀ e : ℤ, (inUnits num den e).1 < (inUnits num den e).2 * Nat.pow 2 52 ↔
      Int.log 2 ((num : ℚ) / den) < 52 + e := fun e => by
    have hpos : (0 : ℚ) < (inUnits num den e).2 := by exact_mod_cast inUnits_pos num hden e
    have hunit : (0 : ℚ) < 2 ^ e := by positivity
    rw [← Int.lt_zpow_iff_log_lt (by norm_num) hquotient, Nat.cast_ofNat,
      zpow_add₀ (by norm_num), ← div_lt_iff₀ hunit, ← inUnits_div num hden e,
      div_lt_iff₀ hpos, mul_comm]
    norm_cast
  rw [unitExponent, if_neg hnum.ne']
  simp only [hbelow]
  split <;> omega

/-! ### Ranks -/

section

variable {num den num' den' : Nat}

theorem inUnits_mul_le (hden : 0 < den) (hden' : 0 < den') (h : (num : ℚ) / den ≤ num' / den')
    (e : ℤ) : (inUnits num den e).1 * (inUnits num' den' e).2 ≤
      (inUnits num' den' e).1 * (inUnits num den e).2 := by
  have hpos : (0 : ℚ) < (inUnits num den e).2 := by exact_mod_cast inUnits_pos num hden e
  have hpos' : (0 : ℚ) < (inUnits num' den' e).2 := by exact_mod_cast inUnits_pos num' hden' e
  have hquotients : ((inUnits num den e).1 : ℚ) / (inUnits num den e).2 ≤
      (inUnits num' den' e).1 / (inUnits num' den' e).2 := by
    rw [inUnits_div num hden, inUnits_div num' hden']
    gcongr
  exact_mod_cast (div_le_div_iff₀ hpos hpos').1 hquotients

theorem roundHalfEven_inUnits_le (hnum : 0 < num) (hden : 0 < den) :
    roundHalfEven (inUnits num den (unitExponent num den)).1
      (inUnits num den (unitExponent num den)).2 ≤ 2 ^ 53 := by
  have hquotient : (0 : ℚ) < num / den := by positivity
  have hpos := inUnits_pos num hden (unitExponent num den)
  have hlog : Int.log 2 ((num : ℚ) / den) < 53 + unitExponent num den := by
    rw [unitExponent_eq hnum hden]
    omega
  have hbelow : ((inUnits num den (unitExponent num den)).1 : ℚ) /
      (inUnits num den (unitExponent num den)).2 ≤ 2 ^ 53 := by
    rw [inUnits_div num hden, div_le_iff₀ (by positivity), ← zpow_natCast,
      ← zpow_add₀ (by norm_num)]
    exact_mod_cast ((Int.lt_zpow_iff_log_lt (by norm_num) hquotient).2 hlog).le
  rw [← roundHalfEven_one (2 ^ 53)]
  refine roundHalfEven_mono hpos one_pos ?_
  rw [mul_one]
  exact_mod_cast (div_le_iff₀ (by exact_mod_cast hpos)).1 hbelow

/-- In units of its last place a quotient is at least the 52nd power of two, if the unit is not the
least. -/
theorem le_roundHalfEven_inUnits (hnum : 0 < num) (hden : 0 < den)
    (hunit : -1074 < unitExponent num den) :
    2 ^ 52 ≤ roundHalfEven (inUnits num den (unitExponent num den)).1
      (inUnits num den (unitExponent num den)).2 := by
  have hquotient : (0 : ℚ) < num / den := by positivity
  have hpos := inUnits_pos num hden (unitExponent num den)
  have hlog : 52 + unitExponent num den ≤ Int.log 2 ((num : ℚ) / den) := by
    rw [unitExponent_eq hnum hden] at hunit ⊢
    omega
  have habove : (2 : ℚ) ^ 52 ≤ ((inUnits num den (unitExponent num den)).1 : ℚ) /
      (inUnits num den (unitExponent num den)).2 := by
    rw [inUnits_div num hden, le_div_iff₀ (by positivity), ← zpow_natCast,
      ← zpow_add₀ (by norm_num)]
    exact_mod_cast (Int.zpow_le_iff_le_log (by norm_num) hquotient).2 hlog
  rw [← roundHalfEven_one (2 ^ 52)]
  refine roundHalfEven_mono one_pos hpos ?_
  rw [mul_one]
  exact_mod_cast (le_div_iff₀ (by exact_mod_cast hpos)).1 habove

theorem rankOfRatio_zero (den : Nat) : rankOfRatio 0 den = 0 := by
  have hunit : unitExponent 0 den = -1074 := if_pos rfl
  have hround : ∀ d, roundHalfEven 0 d = 0 := fun d => by simp [roundHalfEven]
  simp only [rankOfRatio, hunit, inUnits, Nat.zero_mul, hround]
  rfl

theorem rankOfRatio_mono (hden : 0 < den) (hden' : 0 < den') (h : (num : ℚ) / den ≤ num' / den') :
    rankOfRatio num den ≤ rankOfRatio num' den' := by
  rcases Nat.eq_zero_or_pos num with rfl | hnum
  · rw [rankOfRatio_zero]
    exact Nat.zero_le _
  have hquotient : (0 : ℚ) < num / den := by positivity
  have hnum' : 0 < num' := by
    by_contra hzero
    obtain rfl : num' = 0 := by omega
    simp only [Nat.cast_zero, zero_div] at h
    exact absurd h (not_le.2 hquotient)
  have hunits : unitExponent num den ≤ unitExponent num' den' := by
    rw [unitExponent_eq hnum hden, unitExponent_eq hnum' hden']
    have hlog := Int.log_mono_right (b := 2) hquotient h
    omega
  have hleast : -1074 ≤ unitExponent num den := by
    rw [unitExponent_eq hnum hden]
    exact le_max_left _ _
  refine min_le_min_left _ ?_
  rcases hunits.eq_or_lt with hunit | hunit
  · have hround := roundHalfEven_mono (inUnits_pos num hden _) (inUnits_pos num' hden' _)
      (inUnits_mul_le hden hden' h (unitExponent num den))
    rw [← hunit]
    exact Nat.add_le_add_left hround _
  · -- the lower quotient rounds at most to where the ranks of the next unit begin
    have hbelow := roundHalfEven_inUnits_le hnum hden
    have habove := le_roundHalfEven_inUnits hnum' hden' (by omega)
    have hranks : ((unitExponent num den + 1074).toNat + 1) * 2 ^ 52 ≤
        (unitExponent num' den' + 1074).toNat * 2 ^ 52 := Nat.mul_le_mul_right _ (by omega)
    have hnext : ∀ {i j k l : Nat}, (i + 1) * 2 ^ 52 ≤ j * 2 ^ 52 → k ≤ 2 ^ 53 → 2 ^ 52 ≤ l →
        i * 2 ^ 52 + k ≤ j * 2 ^ 52 + l := by omega
    exact hnext hranks hbelow habove

end

/-! ### Magnitudes -/

/-- The magnitude of a finite number. -/
def value (x : Binary64) : ℚ := x.mantissa * 2 ^ x.exponent

theorem magnitude_pos (x : Binary64) : 0 < x.magnitude.2 := Nat.pow_pos (by decide)

theorem magnitude_div (x : Binary64) : (x.magnitude.1 : ℚ) / x.magnitude.2 = x.value := by
  simp only [magnitude, value, Nat.pow_eq]
  push_cast
  rw [← zpow_mul_toNat two_ne_zero x.exponent]
  field_simp

section

variable {rank : Nat}

theorem toNat_bits_ofRank (h : rank ≤ infinityRank) : (ofRank false rank).bits.toNat = rank := by
  have hsize : infinityRank < 2 ^ 64 := by decide
  rw [ofRank, if_neg Bool.false_ne_true, Nat.add_zero, UInt64.toNat_ofNat']
  exact Nat.mod_eq_of_lt (by omega)

theorem exponentField_ofRank (h : rank ≤ infinityRank) :
    (ofRank false rank).exponentField = rank / 2 ^ 52 := by
  have hinfinity : infinityRank = 2047 * 2 ^ 52 := rfl
  rw [exponentField, toNat_bits_ofRank h]
  exact Nat.mod_eq_of_lt (by simp only [Nat.pow_eq]; omega)

theorem isFinite_ofRank (h : rank ≤ infinityRank) :
    (ofRank false rank).isFinite ↔ rank < infinityRank := by
  have hinfinity : infinityRank = 2047 * 2 ^ 52 := rfl
  rw [isFinite, exponentField_ofRank h, decide_eq_true_iff]
  omega

theorem value_ofRank (h : rank ≤ infinityRank) : (ofRank false rank).value =
    ((if rank / 2 ^ 52 = 0 then rank % 2 ^ 52 else 2 ^ 52 + rank % 2 ^ 52 : Nat) : ℚ) *
      2 ^ (max 1 ((rank / 2 ^ 52 : Nat) : ℤ) - 1075) := by
  rw [value, mantissa, exponent, exponentField_ofRank h, fraction, toNat_bits_ofRank h]
  rfl

theorem value_ofRank_succ (h : rank < infinityRank) :
    (ofRank false rank).value ≤ (ofRank false (rank + 1)).value := by
  rw [value_ofRank h.le, value_ofRank h]
  by_cases hlast : rank % 2 ^ 52 + 1 = 2 ^ 52
  · -- the next magnitude is the first one of the next unit
    have hquotient : (rank + 1) / 2 ^ 52 = rank / 2 ^ 52 + 1 := by omega
    have hrest : (rank + 1) % 2 ^ 52 = 0 := by omega
    rw [hquotient, hrest, if_neg (Nat.succ_ne_zero _)]
    split_ifs with hzero
    · rw [hzero]
      refine mul_le_mul_of_nonneg_right ?_ (by positivity)
      exact_mod_cast (show rank % 2 ^ 52 ≤ 2 ^ 52 + 0 by omega)
    · have hunit : max 1 ((rank / 2 ^ 52 + 1 : Nat) : ℤ) - 1075 =
          (max 1 ((rank / 2 ^ 52 : Nat) : ℤ) - 1075) + 1 := by omega
      rw [hunit, zpow_add_one₀ (by norm_num), mul_comm _ (2 : ℚ), ← mul_assoc]
      refine mul_le_mul_of_nonneg_right ?_ (by positivity)
      exact_mod_cast (show 2 ^ 52 + rank % 2 ^ 52 ≤ (2 ^ 52 + 0) * 2 by omega)
  · have hquotient : (rank + 1) / 2 ^ 52 = rank / 2 ^ 52 := by omega
    have hrest : (rank + 1) % 2 ^ 52 = rank % 2 ^ 52 + 1 := by omega
    rw [hquotient, hrest]
    refine mul_le_mul_of_nonneg_right ?_ (by positivity)
    split_ifs <;> exact_mod_cast (by omega)

theorem value_ofRank_mono {rank' : Nat} (h : rank ≤ rank') (hrank : rank' ≤ infinityRank) :
    (ofRank false rank).value ≤ (ofRank false rank').value := by
  induction rank', h using Nat.le_induction with
  | base => exact le_rfl
  | succ k _ ih => exact (ih (by omega)).trans (value_ofRank_succ (by omega))

end

/-! ### Operations -/

section

variable {num den num' den' : Nat} {x x' y y' : Binary64}

theorem rankOfRatio_le (num den : Nat) : rankOfRatio num den ≤ infinityRank := min_le_left _ _

/-- A quotient that is not greater than one that is rounded to a finite number is so too, and not
to a greater one. -/
theorem ofRatio_le (hden : 0 < den) (hden' : 0 < den') (h : (num : ℚ) / den ≤ num' / den')
    (hfinite : (ofRatio num' den').isFinite) :
    (ofRatio num den).isFinite ∧ (ofRatio num den).value ≤ (ofRatio num' den').value := by
  have hrank := rankOfRatio_mono hden hden' h
  have hlt := (isFinite_ofRank (rankOfRatio_le num' den')).1 hfinite
  exact ⟨(isFinite_ofRank (rankOfRatio_le num den)).2 (by omega),
    value_ofRank_mono hrank (rankOfRatio_le num' den')⟩

theorem isFinite_mulMagnitude_of_le (hx : x.value ≤ x'.value) (hy : y.value ≤ y'.value)
    (hfinite : (x'.mulMagnitude y').isFinite) : (x.mulMagnitude y).isFinite := by
  have hproduct : ∀ z w : Binary64, ((z.magnitude.1 * w.magnitude.1 : Nat) : ℚ) /
      (z.magnitude.2 * w.magnitude.2 : Nat) = z.value * w.value := fun z w => by
    push_cast
    rw [mul_div_mul_comm, magnitude_div, magnitude_div]
  have hnonneg : ∀ z : Binary64, 0 ≤ z.value := fun z => by unfold value; positivity
  refine (ofRatio_le (Nat.mul_pos x.magnitude_pos y.magnitude_pos)
    (Nat.mul_pos x'.magnitude_pos y'.magnitude_pos) ?_ hfinite).1
  rw [hproduct, hproduct]
  exact mul_le_mul hx hy (hnonneg y) (hnonneg x')

/-- A quotient by one or more is bounded as the dividend is. -/
theorem divMagnitude_le (hy : 1 ≤ y.value) (hden : 0 < den) (h : x.value ≤ num / den)
    (hfinite : (ofRatio num den).isFinite) :
    (x.divMagnitude y).isFinite ∧ (x.divMagnitude y).value ≤ (ofRatio num den).value := by
  have hnum : 0 < y.magnitude.1 := by
    by_contra hzero
    rw [← magnitude_div, show y.magnitude.1 = 0 by omega, Nat.cast_zero, zero_div] at hy
    exact absurd hy (by norm_num)
  refine ofRatio_le (Nat.mul_pos x.magnitude_pos hnum) hden ?_ hfinite
  have hquotient : ((x.magnitude.1 * y.magnitude.2 : Nat) : ℚ) /
      (x.magnitude.2 * y.magnitude.1 : Nat) = x.value / y.value := by
    push_cast
    rw [mul_div_mul_comm, magnitude_div, ← magnitude_div y, div_div_eq_mul_div, mul_div_assoc]
  rw [hquotient]
  exact (div_le_self (by unfold value; positivity) hy).trans h

end

end Binary64

end TensorRecipe
