/-!
# Double precision numbers

A `Binary64` is given by its 64 bits: a sign, an exponent field of 11 bits and a fraction of 52.
The magnitude of a finite one is `mantissa * 2 ^ exponent`.  Powers are computed with `Nat.pow`, in
which no instance has a say.
-/

namespace TensorRecipe

/-- A binary floating point number of double precision. -/
structure Binary64 where
  bits : UInt64
deriving DecidableEq

namespace Binary64

/-- The sign bit is set. -/
def isNegative (x : Binary64) : Bool := Nat.pow 2 63 ≤ x.bits.toNat

/-- The eleven bits after the sign. -/
def exponentField (x : Binary64) : Nat := x.bits.toNat / Nat.pow 2 52 % Nat.pow 2 11

/-- The lowest 52 bits. -/
def fraction (x : Binary64) : Nat := x.bits.toNat % Nat.pow 2 52

/-- Neither an infinity nor a NaN. -/
def isFinite (x : Binary64) : Bool := x.exponentField < 2047

/-- Not a number. -/
def isNaN (x : Binary64) : Bool := !x.isFinite && x.fraction != 0

/-- The integer that the exponent scales: the fraction, with its hidden bit where the number is
normal. -/
def mantissa (x : Binary64) : Nat :=
  if x.exponentField = 0 then x.fraction else Nat.pow 2 52 + x.fraction

/-- The power of two that scales the mantissa. -/
def exponent (x : Binary64) : Int := max 1 (x.exponentField : Int) - 1075

/-- A zero of either sign. -/
def isZero (x : Binary64) : Bool := x.isFinite && x.mantissa == 0

/-- The rank of infinity among the magnitudes, counted from zero. -/
def infinityRank : Nat := 2047 * Nat.pow 2 52

/-- The number with a sign and with the magnitude of a rank: the magnitudes, from zero to infinity,
are numbered by their bits. -/
def ofRank (negative : Bool) (rank : Nat) : Binary64 :=
  ⟨UInt64.ofNat (rank + if negative then Nat.pow 2 63 else 0)⟩

/-- Positive zero. -/
def zero : Binary64 := ofRank false 0

/-- The number with its sign turned. -/
def neg (x : Binary64) : Binary64 := ⟨x.bits ^^^ UInt64.ofNat (Nat.pow 2 63)⟩

/-- One form for all NaNs and one for both zeros. -/
def canonical (x : Binary64) : Binary64 :=
  if x.isNaN then ofRank false (infinityRank + 1) else if x.isZero then zero else x

end Binary64

end TensorRecipe
