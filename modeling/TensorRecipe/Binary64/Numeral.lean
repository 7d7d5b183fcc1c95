import TensorRecipe.Binary64.Rounding
import TensorRecipe.Json.Numeral

/-!
# Numerals of double precision numbers

`Binary64.numeral?` is the shortest numeral of a finite number, with a point or an exponent so that
it is never taken for an integer.  `Binary64.ofNumeral?` reads a numeral: its digits are gathered
into a significand of at most 64 bits, which is then scaled by powers of ten that are themselves
rounded.  A numeral too large for a finite number is refused.
-/

namespace TensorRecipe

namespace Binary64

/-! ### Writing -/

/-- The numeral of a magnitude that is not zero: positional where its first digit stands for a power
of ten from `-5` to `15`, with an exponent elsewhere. -/
def magnitudeNumeral (x : Binary64) : Numeral :=
  let decimal := Decimal.shortest .toEven x
  let (first, rest, power) := decimal.leading
  if -5 ≤ power ∧ power < 16 then
    let (whole, places) := decimal.positional
    { negative := x.isNegative, whole, power := none,
      places := some (if places.isEmpty then [Digit.zero] else places) }
  else
    { negative := x.isNegative, whole := [first], power := some power,
      places := if rest.isEmpty then none else some rest }

/-- The numeral of a finite number. -/
def numeral? (x : Binary64) : Option Numeral :=
  if !x.isFinite then none
  else if x.isZero then
    some { negative := x.isNegative, whole := [Digit.zero], places := some [Digit.zero], power := none }
  else some x.magnitudeNumeral

/-! ### Reading -/

/-- Digits gathered into a number, and the power of ten that scales it.  Once a digit would take the
number to `2 ^ 64` the significand is full. -/
structure Significand where
  value : Nat
  power : Int
  full : Bool

namespace Significand

/-- Take a digit before the point: it is appended, or counted when the significand is full. -/
def takeWhole (s : Significand) (d : Digit) : Significand :=
  let value := 10 * s.value + d.val
  if !s.full && value < UInt64.size then { s with value }
  else { s with power := s.power + 1, full := true }

/-- Take a digit after the point: it is appended, or left out when the significand is full. -/
def takePlace (s : Significand) (d : Digit) : Significand :=
  let value := 10 * s.value + d.val
  if !s.full && value < UInt64.size then { s with value, power := s.power - 1 }
  else { s with full := true }

/-- The significand of a numeral.  Digits after the point are tried afresh when those before it have
filled the significand. -/
def ofNumeral (n : Numeral) : Significand :=
  let whole := n.whole.foldl takeWhole ⟨0, 0, false⟩
  let all := (n.places.getD []).foldl takePlace { whole with full := false }
  { all with power := all.power + n.power.getD 0 }

end Significand

/-- The greatest power of ten below infinity. -/
def maxTenPower : Nat := 308

/-- A power of ten, rounded. -/
def tenPower (n : Nat) : Binary64 := ofRatio (Nat.pow 10 n) 1

/-- The magnitude times a power of ten.  A power that is itself beyond the greatest takes all but
zero to infinity. -/
def scaleUp (x : Binary64) (power : Nat) : Binary64 :=
  if power ≤ maxTenPower then x.mulMagnitude (tenPower power)
  else if x.isZero then x
  else ofRank false infinityRank

/-- The magnitude divided by a power of ten, the greatest one at a time. -/
def scaleDown (x : Binary64) (power : Nat) : Binary64 :=
  if _h : maxTenPower < power then
    if x.isZero then x
    else scaleDown (x.divMagnitude (tenPower maxTenPower)) (power - maxTenPower)
  else x.divMagnitude (tenPower power)
termination_by power
decreasing_by
  have : 0 < maxTenPower := by decide
  omega

/-- The number that a significand denotes. -/
def ofSignificand (s : Significand) : Binary64 :=
  let digits := ofRatio s.value 1
  if 0 ≤ s.power then scaleUp digits s.power.toNat else scaleDown digits (-s.power).toNat

/-- The finite number that a numeral denotes. -/
def ofNumeral? (n : Numeral) : Option Binary64 :=
  let magnitude := ofSignificand (Significand.ofNumeral n)
  let value := if n.negative then magnitude.neg else magnitude
  if value.isFinite then some value else none

end Binary64

end TensorRecipe
