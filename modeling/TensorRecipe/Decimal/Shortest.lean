import TensorRecipe.Binary64.Basic

/-!
# Shortest decimals

A finite double is written with the fewest decimal digits that read back as the same number, that
is, lie among the reals that round to it.  Of several such decimals the nearest is taken; which way
an exact tie goes is a choice of the format.  `Decimal.positional` and `Decimal.leading` lay digits
out.
-/

namespace TensorRecipe

/-- A decimal digit. -/
abbrev Digit := Fin 10

namespace Digit

/-- The digit zero. -/
def zero : Digit := ⟨0, by decide⟩

/-- The character of a digit. -/
def char (d : Digit) : Char := Char.ofNat (48 + d.val)

/-- The digit that a character stands for. -/
def ofChar? (c : Char) : Option Digit :=
  if h : 48 ≤ c.toNat ∧ c.toNat < 58 then some ⟨c.toNat - 48, by omega⟩ else none

theorem ofChar?_char : ∀ d : Digit, ofChar? d.char = some d := by decide

/-- The decimal digits of a number, the most significant first. -/
def ofNat (n : Nat) : List Digit := (Nat.toDigits 10 n).filterMap ofChar?

/-- The number that digits denote. -/
def toNat (ds : List Digit) : Nat := ds.foldl (fun n d => 10 * n + d.val) 0

end Digit

/-- Which of two equally near decimals is taken. -/
inductive TieRule where
  /-- The one with an even last digit. -/
  | toEven
  /-- The greater. -/
  | up
deriving DecidableEq

/-- The decimal `coefficient * 10 ^ power`. -/
structure Decimal where
  coefficient : Nat
  power : Int
deriving DecidableEq

namespace Decimal

/-- The reals that round to a number, with the number itself, as multiples of one common unit. -/
structure Interval where
  low : Nat
  value : Nat
  high : Nat
  /-- Whether the ends belong to it. -/
  closed : Bool
  /-- The unit is `unitNum / unitDen`. -/
  unitNum : Nat
  unitDen : Nat

/-- The reals that round to a finite positive number: up to half way to its neighbours, the ends
included where the mantissa is even.  Below a power of two the neighbour is half as far. -/
def roundingInterval (x : Binary64) : Interval :=
  let m := x.mantissa
  let unit := x.exponent - 2
  let below := if m = Nat.pow 2 52 ∧ -1074 < x.exponent then 1 else 2
  { low := 4 * m - below
    value := 4 * m
    high := 4 * m + 2
    closed := m % 2 == 0
    unitNum := Nat.pow 2 unit.toNat
    unitDen := Nat.pow 2 (-unit).toNat }

namespace Interval

/-- The same reals as multiples of another unit, which divides `10 ^ power`. -/
def onGrid (r : Interval) (power : Int) : Interval × Nat :=
  let f := r.unitNum * Nat.pow 10 (-power).toNat
  ({ r with low := r.low * f, value := r.value * f, high := r.high * f },
    r.unitDen * Nat.pow 10 power.toNat)

/-- Whether a multiple of the unit lies among the reals. -/
def contains (r : Interval) (n : Nat) : Bool :=
  if r.closed then r.low ≤ n && n ≤ r.high else r.low < n && n < r.high

/-- The exponent of the first decimal digit of the value, which is positive. -/
def leadingPower (r : Interval) : Int :=
  let num := r.value * r.unitNum
  let den := r.unitDen
  if den ≤ num then ((Nat.toDigits 10 (num / den)).length : Int) - 1
  else -((Nat.toDigits 10 ((den - 1) / num)).length : Int)

/-- The multiple of `10 ^ power` that stands for the value, if one lies among the reals: of the
value's two neighbours on the grid the nearer, if it does. -/
def onGrid? (r : Interval) (tie : TieRule) (power : Int) : Option Nat :=
  let (s, step) := r.onGrid power
  let below := s.value / step
  let above := below + 1
  match s.contains (below * step), s.contains (above * step) with
  | true, true =>
    let down := s.value - below * step
    let up := above * step - s.value
    some (if down < up then below
      else if up < down then above
      else match tie with
        | .toEven => below + below % 2
        | .up => above)
  | true, false => some below
  | false, true => some above
  | false, false => none

end Interval

/-- Seventeen digits always suffice. -/
def maxDigits : Nat := 17

/-- The shortest decimal that reads back as a finite positive number. -/
def shortest (tie : TieRule) (x : Binary64) : Decimal :=
  let r := roundingInterval x
  let leading := r.leadingPower
  let powers := (List.range maxDigits).map fun (digits : Nat) => leading - (digits : Int)
  (powers.findSome? fun power => (r.onGrid? tie power).map fun n => Decimal.mk n power).getD ⟨0, 0⟩

/-- The digits of a decimal without the zeros at its end, and the power of ten of the last one. -/
def trimmed (d : Decimal) : List Digit × Int :=
  let digits := Digit.ofNat d.coefficient
  let kept := (digits.reverse.dropWhile (· == 0)).reverse
  (kept, d.power + (digits.length - kept.length : Nat))

/-- The digits before the point, at least one, and the digits after it. -/
def positional (d : Decimal) : List Digit × List Digit :=
  let (digits, power) := d.trimmed
  if 0 ≤ power then (digits ++ List.replicate power.toNat 0, [])
  else
    let places := (-power).toNat
    let padded := List.replicate (places + 1 - digits.length) 0 ++ digits
    (padded.take (padded.length - places), padded.drop (padded.length - places))

/-- The first digit, the digits after it, and the power of ten of the first. -/
def leading (d : Decimal) : Digit × List Digit × Int :=
  let (digits, power) := d.trimmed
  (digits.headD 0, digits.tail, power + (digits.length : Int) - 1)

end Decimal

end TensorRecipe
