import Mathlib.Tactic.NormNum.Pow
import TensorRecipe.Arena.Json
import TensorRecipe.Proofs.Binary64.Rounding
import TensorRecipe.Proofs.Json.Numerals

/-!
# Finite numbers are read from their numerals

The numeral of a finite number denotes a decimal that rounds to it, and its significand is no greater
(`Significand.ofNumeral_le`).  Powers of ten are rounded before a significand is scaled, and the
product is rounded again; it is finite all the same, below half a unit in the last place over the
greatest finite number (`Binary64.isFinite_ofSignificand`).  So some finite number is read, perhaps a
neighbour of what was written (`Binary64.isSome_ofJson?_toJson`).
-/

namespace TensorRecipe

/-! ### Digits -/

namespace Digit

theorem toNat_append (ds es : List Digit) :
    toNat (ds ++ es) = toNat ds * 10 ^ es.length + toNat es := by
  induction es using List.reverseRecOn with
  | nil => simp [toNat]
  | append_singleton es e ih =>
    rw [← List.append_assoc, toNat_concat, toNat_concat, ih, List.length_append,
      List.length_singleton, pow_succ]
    ring

theorem toNat_replicate_zero (k : Nat) : toNat (List.replicate k 0) = 0 := by
  induction k with
  | zero => rfl
  | succ k ih => rw [List.replicate_succ', toNat_concat, ih]; rfl

theorem toNat_lt (ds : List Digit) : toNat ds < 10 ^ ds.length := by
  induction ds using List.reverseRecOn with
  | nil => exact Nat.one_pos
  | append_singleton ds d ih =>
    rw [toNat_concat, List.length_append, List.length_singleton, pow_succ]
    omega

/-- What is dropped at the end are zeros. -/
theorem exists_append_replicate (ds : List Digit) :
    ∃ k, ds = ds.rdropWhile (· == 0) ++ List.replicate k 0 := by
  induction ds using List.reverseRecOn with
  | nil => exact ⟨0, rfl⟩
  | append_singleton ds d ih =>
    obtain ⟨k, hk⟩ := ih
    by_cases hd : d = 0
    · refine ⟨k + 1, ?_⟩
      rw [List.rdropWhile_concat_pos _ _ _ (by simpa using hd), List.replicate_succ', hd,
        ← List.append_assoc, ← hk]
    · exact ⟨0, by rw [List.rdropWhile_concat_neg _ _ _ (by simpa using hd)]; simp⟩

end Digit

/-! ### What a numeral denotes -/

namespace Numeral

/-- The magnitude that a numeral denotes. -/
def size (n : Numeral) : ℚ :=
  Digit.toNat (n.whole ++ n.places.getD []) * 10 ^ (n.power.getD 0 - (n.places.getD []).length)

end Numeral

namespace Decimal

/-- Zeros at the end are made up for by the power of ten. -/
theorem toNat_trimmed (d : Decimal) :
    (Digit.toNat d.trimmed.1 : ℚ) * 10 ^ d.trimmed.2 = d.coefficient * 10 ^ d.power := by
  obtain ⟨k, hk⟩ := Digit.exists_append_replicate (Digit.ofNat d.coefficient)
  rw [← trimmed_eq] at hk
  have hpower : d.trimmed.2 = d.power + (k : Nat) := by
    have hlength := congrArg List.length hk
    rw [List.length_append, List.length_replicate] at hlength
    show d.power + ((Digit.ofNat d.coefficient).length - d.trimmed.1.length : Nat) = _
    omega
  have hvalue : d.coefficient = Digit.toNat d.trimmed.1 * 10 ^ k := by
    rw [← Digit.toNat_ofNat d.coefficient, hk, Digit.toNat_append, Digit.toNat_replicate_zero,
      List.length_replicate, add_zero]
  rw [hpower, zpow_add₀ (by norm_num), zpow_natCast]
  conv_rhs => rw [hvalue]
  push_cast
  ring

/-- Digits on both sides of a point, which are those of the decimal with zeros around them. -/
theorem toNat_positional (d : Decimal) :
    (Digit.toNat (d.positional.1 ++ d.positional.2) : ℚ) * 10 ^ (-(d.positional.2.length : ℤ)) =
      d.coefficient * 10 ^ d.power := by
  rw [← toNat_trimmed]
  rcases le_or_gt 0 d.trimmed.2 with h | h
  · obtain ⟨k, hk⟩ := Int.eq_ofNat_of_zero_le h
    have hsplit : d.positional = (d.trimmed.1 ++ List.replicate d.trimmed.2.toNat 0, []) := if_pos h
    rw [hsplit, List.append_nil, Digit.toNat_append, Digit.toNat_replicate_zero,
      List.length_replicate, hk, zpow_natCast]
    simp
  · have hsplit : d.positional.1 ++ d.positional.2 =
          List.replicate ((-d.trimmed.2).toNat + 1 - d.trimmed.1.length) 0 ++ d.trimmed.1 ∧
        d.positional.2.length = (-d.trimmed.2).toNat := by
      simp only [positional, if_neg (not_le.2 h)]
      refine ⟨List.take_append_drop _ _, ?_⟩
      rw [List.length_drop, List.length_append, List.length_replicate]
      omega
    rw [hsplit.1, hsplit.2, Digit.toNat_append, Digit.toNat_replicate_zero, Nat.zero_mul,
      Nat.zero_add, Int.toNat_of_nonneg (by omega), neg_neg]

/-- The exponent of the first digit bounds the number of digits before the point. -/
theorem length_positional_le {d : Decimal} {k : Nat} (h : d.leading.2.2 < k) (hk : 0 < k) :
    d.positional.1.length ≤ k := by
  have hleading : d.leading.2.2 = d.trimmed.2 + (d.trimmed.1.length : ℤ) - 1 := rfl
  rw [hleading] at h
  simp only [positional]
  split
  · rw [List.length_append, List.length_replicate]
    omega
  · rw [List.length_take, List.length_append, List.length_replicate]
    omega

theorem toNat_leading (d : Decimal) :
    (Digit.toNat (d.leading.1 :: d.leading.2.1) : ℚ) *
      10 ^ (d.leading.2.2 - (d.leading.2.1.length : ℤ)) = d.coefficient * 10 ^ d.power := by
  rw [← toNat_trimmed]
  have hleading : d.leading = (d.trimmed.1.headD 0, d.trimmed.1.tail,
    d.trimmed.2 + (d.trimmed.1.length : ℤ) - 1) := rfl
  rw [hleading]
  cases hdigits : d.trimmed.1 with
  | nil => simp [Digit.toNat]
  | cons first rest =>
    simp only [List.headD_cons, List.tail_cons, List.length_cons]
    congr 2
    push_cast
    ring

theorem Interval.le_of_contains {r : Interval} {n : Nat} (h : r.contains n) : n ≤ r.high := by
  rw [contains] at h
  split at h
  · exact (by simpa using h : r.low ≤ n ∧ n ≤ r.high).2
  · exact (by simpa using h : r.low < n ∧ n < r.high).2.le

end Decimal

namespace Binary64

theorem size_magnitudeNumeral (x : Binary64) : x.magnitudeNumeral.size =
    (Decimal.shortest .toEven x).coefficient * 10 ^ (Decimal.shortest .toEven x).power := by
  unfold magnitudeNumeral
  simp only
  split
  · rw [← Decimal.toNat_positional, Numeral.size]
    simp only [Option.getD_some, Option.getD_none]
    split
    · next hempty =>
      have hnil := List.isEmpty_iff.1 hempty
      rw [hnil, List.append_nil, Digit.toNat_append]
      simp [Digit.toNat, Digit.zero]
    · rw [zero_sub]
  · rw [← Decimal.toNat_leading, Numeral.size]
    have hplaces : ∀ rest : List Digit,
        (if rest.isEmpty then none else some rest).getD [] = rest := fun rest => by
      cases rest <;> rfl
    simp only [hplaces, Option.getD_some]
    rfl

theorem length_whole_magnitudeNumeral (x : Binary64) : x.magnitudeNumeral.whole.length ≤ 16 := by
  unfold magnitudeNumeral
  simp only
  split
  · next h => exact Decimal.length_positional_le h.2 (by decide)
  · exact (by decide : 1 ≤ 16)

/-! ### Significands -/

namespace Significand

/-- The significand of digits before the point that do not fill it. -/
theorem foldl_takeWhole {ds : List Digit} (h : Digit.toNat ds < UInt64.size) :
    ds.foldl takeWhole ⟨0, 0, false⟩ = ⟨Digit.toNat ds, 0, false⟩ := by
  induction ds using List.reverseRecOn with
  | nil => rfl
  | append_singleton ds d ih =>
    rw [Digit.toNat_concat] at h ⊢
    rw [List.foldl_append, ih (by omega), List.foldl_cons, List.foldl_nil, takeWhole]
    simp only [Bool.not_false, Bool.true_and, decide_eq_true h, if_true]

/-- Digits up to a place after the point have been gathered, or left out once there were too many. -/
structure Gathers (s : Significand) (digits : List Digit) (places : Nat) : Prop where
  lt : s.value < UInt64.size
  le : (s.value : ℚ) * 10 ^ s.power ≤ Digit.toNat digits * 10 ^ (-(places : ℤ))
  power : s.full = false → s.power = -(places : ℤ)

theorem Gathers.takePlace {s : Significand} {digits : List Digit} {places : Nat}
    (h : s.Gathers digits places) (d : Digit) :
    (s.takePlace d).Gathers (digits ++ [d]) (places + 1) := by
  have hunit : (10 : ℚ) ^ (-(places : ℤ)) = 10 * 10 ^ (-((places + 1 : Nat) : ℤ)) := by
    rw [← zpow_one_add₀ (by norm_num)]
    congr 1
    push_cast
    ring
  rw [Significand.takePlace]
  split
  · next hroom =>
    obtain ⟨hfull, hlt⟩ : s.full = false ∧ 10 * s.value + d.val < UInt64.size := by
      simpa using hroom
    have hpower := h.power hfull
    have hpower' : s.power - 1 = -((places + 1 : Nat) : ℤ) := by
      rw [hpower]
      push_cast
      ring
    have hvalue : (s.value : ℚ) ≤ Digit.toNat digits := by
      have hle := h.le
      rw [hpower] at hle
      exact le_of_mul_le_mul_right hle (by positivity)
    refine ⟨hlt, ?_, fun _ => hpower'⟩
    rw [Digit.toNat_concat]
    simp only [hpower']
    refine mul_le_mul_of_nonneg_right ?_ (by positivity)
    push_cast
    linarith
  · refine ⟨h.lt, h.le.trans ?_, nofun⟩
    rw [hunit, Digit.toNat_concat, ← mul_assoc, mul_comm (_ : ℚ) 10]
    refine mul_le_mul_of_nonneg_right ?_ (by positivity)
    push_cast
    linarith [Nat.cast_nonneg (α := ℚ) d.val]

theorem Gathers.foldl {s : Significand} {digits : List Digit} {places : Nat}
    (h : s.Gathers digits places) (ds : List Digit) :
    (ds.foldl Significand.takePlace s).Gathers (digits ++ ds) (places + ds.length) := by
  induction ds generalizing s digits places with
  | nil => simpa using h
  | cons d ds ih =>
    have hrest := ih (h.takePlace d)
    rwa [List.append_assoc, Nat.add_assoc, Nat.add_comm 1] at hrest

theorem ofNumeral_le {n : Numeral} (h : Digit.toNat n.whole < UInt64.size) :
    (ofNumeral n).value < UInt64.size ∧
      ((ofNumeral n).value : ℚ) * 10 ^ (ofNumeral n).power ≤ n.size := by
  have hwhole : Gathers ⟨Digit.toNat n.whole, 0, false⟩ n.whole 0 := ⟨h, by simp, fun _ => rfl⟩
  obtain ⟨hlt, hle, -⟩ := hwhole.foldl (n.places.getD [])
  rw [ofNumeral, foldl_takeWhole h, Numeral.size]
  refine ⟨hlt, ?_⟩
  rw [zpow_add₀ (by norm_num), ← mul_assoc, sub_eq_add_neg, add_comm (n.power.getD 0),
    zpow_add₀ (by norm_num), ← mul_assoc]
  refine mul_le_mul_of_nonneg_right ?_ (by positivity)
  rwa [Nat.zero_add] at hle

end Significand

/-! ### Scaling by powers of ten -/

theorem value_ofRatio_one : (ofRatio 1 1).value = 1 := by
  have hmantissa : (ofRatio 1 1).mantissa = 2 ^ 52 := by decide +kernel
  have hexponent : (ofRatio 1 1).exponent = -52 := by decide +kernel
  rw [value, hmantissa, hexponent]
  norm_num

theorem value_ofRatio_size : (ofRatio UInt64.size 1).value = UInt64.size := by
  have hmantissa : (ofRatio UInt64.size 1).mantissa = 2 ^ 52 := by decide +kernel
  have hexponent : (ofRatio UInt64.size 1).exponent = 12 := by decide +kernel
  rw [value, hmantissa, hexponent]
  norm_num [UInt64.size]

theorem isFinite_ofRatio_size : (ofRatio UInt64.size 1).isFinite := by decide +kernel

theorem ofRatio_one_le {m n : Nat} (h : m ≤ n) (hfinite : (ofRatio n 1).isFinite) :
    (ofRatio m 1).isFinite ∧ (ofRatio m 1).value ≤ (ofRatio n 1).value :=
  ofRatio_le one_pos one_pos (by gcongr) hfinite

theorem tenPower_le {k l : Nat} (h : k ≤ l) (hfinite : (tenPower l).isFinite) :
    (tenPower k).isFinite ∧ (tenPower k).value ≤ (tenPower l).value :=
  ofRatio_one_le (Nat.pow_le_pow_right (by norm_num) h) hfinite

theorem isFinite_tenPower {k : Nat} (h : k ≤ maxTenPower) : (tenPower k).isFinite :=
  (tenPower_le h (by decide +kernel)).1

theorem one_le_tenPower {k : Nat} (h : k ≤ maxTenPower) : 1 ≤ (tenPower k).value := by
  rw [← value_ofRatio_one]
  exact (tenPower_le (Nat.zero_le k) (isFinite_tenPower h)).2

theorem isFinite_scaleDown {x : Binary64} (power : Nat) (hx : x.isFinite)
    (h : x.value ≤ (UInt64.size : Nat) / (1 : Nat)) : (x.scaleDown power).isFinite := by
  have hdivide : ∀ {k : Nat} {y : Binary64}, k ≤ maxTenPower → y.value ≤ (UInt64.size : Nat) / (1 : Nat) →
      (y.divMagnitude (tenPower k)).isFinite ∧
        (y.divMagnitude (tenPower k)).value ≤ (UInt64.size : Nat) / (1 : Nat) := fun hk hy => by
    obtain ⟨hfinite, hle⟩ := divMagnitude_le (one_le_tenPower hk) one_pos hy isFinite_ofRatio_size
    rw [value_ofRatio_size] at hle
    exact ⟨hfinite, by simpa using hle⟩
  induction x, power using scaleDown.induct with
  | case1 x power hpower hzero =>
    rw [scaleDown, dif_pos hpower, if_pos hzero]
    exact hx
  | case2 x power hpower hzero ih =>
    rw [scaleDown, dif_pos hpower, if_neg hzero]
    obtain ⟨hfinite, hle⟩ := hdivide le_rfl h
    exact ih hfinite hle
  | case3 x power hpower =>
    rw [scaleDown, dif_neg hpower]
    exact (hdivide (by omega) h).1

/-- Half a unit in the last place over the greatest number but one, as all of the reals that round to
a number lie below it unless that number is the greatest. -/
def safeSize : Nat := (2 ^ 54 - 3) * 2 ^ 970

/-- The greatest significand that a power of ten scales to no more. -/
def safeSignificand (power : Nat) : Nat := min (UInt64.size - 1) (safeSize / 10 ^ power)

/-- Every significand is that small for this power of ten. -/
def safePower : Nat := 288

/-- Though a significand and a power of ten are both rounded, and their product is again. -/
theorem isFinite_mul_tenPower : ∀ power ≤ maxTenPower, safePower ≤ power →
    ((ofRatio (safeSignificand power) 1).mulMagnitude (tenPower power)).isFinite := by
  decide +kernel

theorem isFinite_scaleUp {n power : Nat} (hn : n < UInt64.size) (h : n * 10 ^ power ≤ safeSize) :
    ((ofRatio n 1).scaleUp power).isFinite := by
  rw [scaleUp]
  split
  · next hpower =>
    -- a lower power of ten is replaced by one that is just as safe
    have hmax : max power safePower ≤ maxTenPower := max_le hpower (by decide)
    have hscaled : n * 10 ^ max power safePower ≤ safeSize := by
      rcases max_choice power safePower with hchoice | hchoice
      · rwa [hchoice]
      · rw [hchoice]
        exact (Nat.mul_le_mul_right _ hn.le).trans (by decide +kernel)
    have hsafe : n ≤ safeSignificand (max power safePower) :=
      le_min (by omega) ((Nat.le_div_iff_mul_le (by positivity)).2 hscaled)
    have hsize : safeSignificand (max power safePower) ≤ UInt64.size :=
      (min_le_left _ _).trans (Nat.sub_le _ _)
    obtain ⟨hfinite, -⟩ := ofRatio_one_le hsize isFinite_ofRatio_size
    exact isFinite_mulMagnitude_of_le (ofRatio_one_le hsafe hfinite).2
      (tenPower_le (le_max_left _ _) (isFinite_tenPower hmax)).2
      (isFinite_mul_tenPower _ hmax (le_max_right _ _))
  · next hpower =>
    -- such a power scales nothing but zero to so little
    have hzero : n = 0 := by
      by_contra hpos
      have hsafe : safeSize < 10 ^ (maxTenPower + 1) := by decide +kernel
      have hten : 10 ^ (maxTenPower + 1) ≤ 10 ^ power :=
        Nat.pow_le_pow_right (by norm_num) (Nat.lt_of_not_le hpower)
      have hscaled := Nat.le_mul_of_pos_left (10 ^ power) (Nat.pos_of_ne_zero hpos)
      exact absurd (hscaled.trans h) (not_le.2 (hsafe.trans_le hten))
    subst hzero
    decide +kernel

theorem isFinite_ofSignificand {s : Significand} (hlt : s.value < UInt64.size)
    (h : (s.value : ℚ) * 10 ^ s.power ≤ safeSize) : (ofSignificand s).isFinite := by
  rw [ofSignificand]
  split
  · next hpower =>
    obtain ⟨k, hk⟩ := Int.eq_ofNat_of_zero_le hpower
    rw [hk, zpow_natCast] at h
    rw [hk]
    exact isFinite_scaleUp hlt (by exact_mod_cast h)
  · obtain ⟨hfinite, hle⟩ := ofRatio_one_le hlt.le isFinite_ofRatio_size
    rw [value_ofRatio_size] at hle
    exact isFinite_scaleDown _ hfinite (by simpa using hle)

/-! ### Finite numbers -/

/-- The shortest decimal of a number lies among the reals that round to it. -/
theorem shortest_le (tie : TieRule) (x : Binary64) :
    ((Decimal.shortest tie x).coefficient : ℚ) * 10 ^ (Decimal.shortest tie x).power ≤
      (4 * x.mantissa + 2) * 2 ^ (x.exponent - 2) := by
  unfold Decimal.shortest
  simp only
  generalize hfound : List.findSome? _ _ = found
  cases found with
  | none =>
    simp only [Option.getD_none, Nat.cast_zero, zero_mul]
    positivity
  | some d =>
    obtain ⟨power, -, hd⟩ := List.exists_of_findSome?_eq_some hfound
    obtain ⟨n, hn, rfl⟩ := Option.map_eq_some_iff.1 hd
    have hhigh := Decimal.Interval.le_of_contains (Decimal.Interval.contains_of_onGrid? hn)
    have hcross : (n : ℚ) * (2 ^ (-(x.exponent - 2)).toNat * 10 ^ power.toNat) ≤
        (4 * x.mantissa + 2) * (2 ^ (x.exponent - 2).toNat * 10 ^ (-power).toNat) := by
      exact_mod_cast hhigh
    have hpos : (0 : ℚ) < 2 ^ (-(x.exponent - 2)).toNat * 10 ^ (-power).toNat := by positivity
    refine le_of_mul_le_mul_right ?_ hpos
    calc (n : ℚ) * 10 ^ power * (2 ^ (-(x.exponent - 2)).toNat * 10 ^ (-power).toNat)
        = n * (2 ^ (-(x.exponent - 2)).toNat * 10 ^ power.toNat) := by
          rw [← zpow_mul_toNat (by norm_num : (10 : ℚ) ≠ 0) power]
          ring
      _ ≤ (4 * x.mantissa + 2) * (2 ^ (x.exponent - 2).toNat * 10 ^ (-power).toNat) := hcross
      _ = (4 * x.mantissa + 2) * 2 ^ (x.exponent - 2) *
          (2 ^ (-(x.exponent - 2)).toNat * 10 ^ (-power).toNat) := by
          rw [← zpow_mul_toNat two_ne_zero (x.exponent - 2)]
          ring

theorem isFinite_neg (x : Binary64) : x.neg.isFinite = x.isFinite := by
  have hfield : x.neg.exponentField = x.exponentField := by
    rw [exponentField, neg, UInt64.toNat_xor, exponentField]
    simp only [Nat.pow_eq, ← Nat.shiftRight_eq_div_pow]
    rw [Nat.shiftRight_xor_distrib, Nat.xor_mod_two_pow]
    exact Nat.xor_zero _
  rw [isFinite, isFinite, hfield]

/-- The greatest finite number, but for its sign. -/
def IsGreatest (x : Binary64) : Prop := x.exponentField = 2046 ∧ x.fraction = 2 ^ 52 - 1

/-- The reals that round to a finite number are safe to read, unless the number is the greatest. -/
theorem interval_le_safeSize {x : Binary64} (hfinite : x.isFinite) (hgreatest : ¬ x.IsGreatest) :
    (4 * (x.mantissa : ℚ) + 2) * 2 ^ (x.exponent - 2) ≤ safeSize := by
  have hsize : (safeSize : ℚ) = 18014398509481981 * 2 ^ (970 : ℤ) := by
    rw [safeSize, Nat.cast_mul, Nat.cast_pow, ← zpow_natCast]
    norm_num only
  have hfield : x.exponentField < 2047 := by simpa [isFinite] using hfinite
  have hfraction : x.fraction < 2 ^ 52 := Nat.mod_lt _ (by decide)
  have hmantissa : x.mantissa ≤ 2 ^ 52 + x.fraction := by
    rw [mantissa]
    split
    · exact Nat.le_add_left _ _
    · exact le_rfl
  rw [hsize]
  by_cases hlast : x.exponentField = 2046
  · have hexponent : x.exponent - 2 = 969 := by rw [exponent, hlast]; rfl
    have hbound : x.mantissa + 2 ≤ 2 ^ 53 := by
      have hne : x.fraction ≠ 2 ^ 52 - 1 := fun hlargest => hgreatest ⟨hlast, hlargest⟩
      omega
    have hcast : (x.mantissa : ℚ) + 2 ≤ 2 ^ 53 := by exact_mod_cast hbound
    have hunits : 4 * (x.mantissa : ℚ) + 2 ≤ 18014398509481981 * 2 := by linarith
    rw [hexponent, show (970 : ℤ) = 1 + 969 from rfl, zpow_one_add₀ two_ne_zero, ← mul_assoc]
    exact mul_le_mul_of_nonneg_right hunits (by positivity)
  · have hexponent : x.exponent - 2 ≤ 968 := by
      rw [exponent]
      omega
    have hcast : (x.mantissa : ℚ) ≤ 2 ^ 53 := by exact_mod_cast (show x.mantissa ≤ 2 ^ 53 by omega)
    have hunits : 4 * (x.mantissa : ℚ) + 2 ≤ 18014398509481981 * 2 * 2 := by linarith
    have hscale : (2 : ℚ) ^ (x.exponent - 2) ≤ 2 ^ (968 : ℤ) :=
      zpow_le_zpow_right₀ one_le_two hexponent
    rw [show (970 : ℤ) = 1 + (1 + 968) from rfl, zpow_one_add₀ two_ne_zero,
      zpow_one_add₀ two_ne_zero, ← mul_assoc, ← mul_assoc]
    exact mul_le_mul hunits hscale (by positivity) (by positivity)

/-- The greatest number of either sign is read all the same. -/
theorem isSome_ofNumeral?_greatest {x : Binary64} (h : x.IsGreatest) :
    (ofNumeral? x.magnitudeNumeral).isSome := by
  obtain ⟨hfield, hfraction⟩ := h
  have hbits : x.bits.toNat = 2047 * 2 ^ 52 - 1 ∨ x.bits.toNat = 2 ^ 63 + (2047 * 2 ^ 52 - 1) := by
    have hlt := x.bits.toNat_lt
    simp only [exponentField, fraction, Nat.pow_eq] at hfield hfraction
    omega
  rcases hbits with hbits | hbits
  · obtain rfl : x = ⟨UInt64.ofNat (2047 * 2 ^ 52 - 1)⟩ := by
      rw [← hbits, UInt64.ofNat_toNat]
    decide +kernel
  · obtain rfl : x = ⟨UInt64.ofNat (2 ^ 63 + (2047 * 2 ^ 52 - 1))⟩ := by
      rw [← hbits, UInt64.ofNat_toNat]
    decide +kernel

theorem isSome_ofNumeral? {n : Numeral} (h : (ofSignificand (Significand.ofNumeral n)).isFinite) :
    (ofNumeral? n).isSome := by
  have hsigned : (if n.negative then (ofSignificand (Significand.ofNumeral n)).neg
      else ofSignificand (Significand.ofNumeral n)).isFinite := by
    split
    · rwa [isFinite_neg]
    · exact h
  simp only [ofNumeral?, hsigned, if_true, Option.isSome_some]

theorem isSome_ofNumeral?_magnitudeNumeral {x : Binary64} (h : x.isFinite) :
    (ofNumeral? x.magnitudeNumeral).isSome := by
  by_cases hgreatest : x.IsGreatest
  · exact isSome_ofNumeral?_greatest hgreatest
  · have hwhole : Digit.toNat x.magnitudeNumeral.whole < UInt64.size :=
      calc Digit.toNat x.magnitudeNumeral.whole < 10 ^ x.magnitudeNumeral.whole.length :=
            Digit.toNat_lt _
        _ ≤ 10 ^ 16 := Nat.pow_le_pow_right (by norm_num) x.length_whole_magnitudeNumeral
        _ ≤ UInt64.size := by decide
    obtain ⟨hlt, hle⟩ := Significand.ofNumeral_le hwhole
    refine isSome_ofNumeral? (isFinite_ofSignificand hlt (hle.trans ?_))
    rw [size_magnitudeNumeral]
    exact (shortest_le .toEven x).trans (interval_le_safeSize h hgreatest)

theorem isSome_ofJson?_toJson {x : Binary64} (h : x.isFinite) : (ofJson? x.toJson).isSome := by
  have hzero : ∀ negative : Bool, (ofNumeral?
      { negative, whole := [Digit.zero], places := some [Digit.zero], power := none }).isSome := by
    decide +kernel
  rw [toJson, numeral?, if_neg (by simp [h])]
  by_cases hx : x.isZero
  · rw [if_pos hx]
    exact hzero x.isNegative
  · rw [if_neg hx]
    exact isSome_ofNumeral?_magnitudeNumeral h

end Binary64

end TensorRecipe
