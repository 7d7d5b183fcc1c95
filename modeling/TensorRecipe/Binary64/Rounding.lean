import TensorRecipe.Binary64.Basic

/-!
# Rounding to double precision

`Binary64.ofRatio` is the double nearest to a non-negative rational, a tie going to the even one.
Products and quotients of finite magnitudes are the exact ones, rounded once.
-/

namespace TensorRecipe

/-- The integer nearest to `num / den`, a tie going to the even one. -/
def roundHalfEven (num den : Nat) : Nat :=
  let floor := num / den
  let rest := num % den
  if 2 * rest < den then floor else if den < 2 * rest then floor + 1 else floor + floor % 2

theorem roundHalfEven_one (n : Nat) : roundHalfEven n 1 = n := by
  simp [roundHalfEven, Nat.mod_one]

namespace Binary64

/-- The quotient `num / den` in units of `2 ^ scale`, as a numerator and a denominator. -/
def inUnits (num den : Nat) (scale : Int) : Nat × Nat :=
  (num * Nat.pow 2 (-scale).toNat, den * Nat.pow 2 scale.toNat)

/-- The exponent of the unit in the last place at `num / den`: the quotient has 53 binary digits in
front of it, or fewer where the exponent is already the least, as it is for zero. -/
def unitExponent (num den : Nat) : Int :=
  if num = 0 then -1074
  else
  let estimate : Int := max (-1074) ((num.log2 : Int) - den.log2 - 52)
  let (n, d) := inUnits num den estimate
  if n < d * Nat.pow 2 52 then max (-1074) (estimate - 1) else estimate

/-- The rank of the magnitude nearest to `num / den`.  The ranks of one exponent follow those of the
exponent below, so a mantissa that rounds up to the next power of two still has the right rank. -/
def rankOfRatio (num den : Nat) : Nat :=
  let scale := unitExponent num den
  let (n, d) := inUnits num den scale
  min infinityRank ((scale + 1074).toNat * Nat.pow 2 52 + roundHalfEven n d)

/-- The non-negative number nearest to `num / den`. -/
def ofRatio (num den : Nat) : Binary64 := ofRank false (rankOfRatio num den)

/-- The magnitude of a finite number, as a numerator and a denominator. -/
def magnitude (x : Binary64) : Nat × Nat :=
  (x.mantissa * Nat.pow 2 x.exponent.toNat, Nat.pow 2 (-x.exponent).toNat)

/-- The product of the magnitudes of two finite numbers, rounded. -/
def mulMagnitude (x y : Binary64) : Binary64 :=
  ofRatio (x.magnitude.1 * y.magnitude.1) (x.magnitude.2 * y.magnitude.2)

/-- The quotient of the magnitudes of two finite numbers, rounded. -/
def divMagnitude (x y : Binary64) : Binary64 :=
  ofRatio (x.magnitude.1 * y.magnitude.2) (x.magnitude.2 * y.magnitude.1)

/-- The number nearest to an integer. -/
def ofInt (i : Int) : Binary64 :=
  ofRank (i < 0) (rankOfRatio i.natAbs 1)

end Binary64

end TensorRecipe
