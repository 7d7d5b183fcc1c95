import TensorRecipe.Decimal.Shortest

/-!
# Numerals

A `Numeral` is a number as it is written: a sign, whole digits, perhaps digits after a point,
perhaps an exponent.  `Numeral.chars` writes it, with the exponent's sign always written, and
`Numeral.ofChars?` reads every way of writing it.
-/

namespace TensorRecipe

namespace Digit

/-- The digits at the front of a text, and what follows them. -/
def span : List Char → List Digit × List Char
  | [] => ([], [])
  | c :: cs =>
    match ofChar? c with
    | some d => ((d :: (span cs).1), (span cs).2)
    | none => ([], c :: cs)

end Digit

/-- A number as it is written. -/
structure Numeral where
  negative : Bool
  whole : List Digit
  /-- The digits after the point, where there is one. -/
  places : Option (List Digit)
  /-- The power of ten that is written, where there is one. -/
  power : Option Int
deriving DecidableEq

namespace Numeral

/-- The numeral of a natural number. -/
def ofNat (n : Nat) : Numeral :=
  { negative := false, whole := Digit.ofNat n, places := none, power := none }

/-- The numeral of an integer. -/
def ofInt (i : Int) : Numeral :=
  { ofNat i.natAbs with negative := i < 0 }

/-- The natural number below `bound` that a numeral writes plainly: without sign, point or
exponent. -/
def toNat? (bound : Nat) (n : Numeral) : Option Nat :=
  if n.negative || n.places.isSome || n.power.isSome then none
  else
    let value := Digit.toNat n.whole
    if value < bound then some value else none

/-- The text of an exponent. -/
def powerChars (power : Int) : List Char :=
  'e' :: (if power < 0 then '-' else '+') :: (Digit.ofNat power.natAbs).map Digit.char

/-- The text of a numeral. -/
def chars (n : Numeral) : List Char :=
  (if n.negative then ['-'] else []) ++ n.whole.map Digit.char ++
    (match n.places with
      | some places => '.' :: places.map Digit.char
      | none => []) ++
    (match n.power with
      | some power => powerChars power
      | none => [])

/-- The digits after a point, if the text begins with one; none is a fault. -/
def readPlaces? : List Char → Option (Option (List Digit) × List Char)
  | '.' :: cs =>
    match Digit.span cs with
    | ([], _) => none
    | (places, rest) => some (some places, rest)
  | cs => some (none, cs)

/-- The digits of an exponent up to the end of the text. -/
def readPower? (negative : Bool) (cs : List Char) : Option Int :=
  match Digit.span cs with
  | (d :: ds, []) =>
    let power := (Digit.toNat (d :: ds) : Int)
    some (if negative then -power else power)
  | _ => none

/-- The exponent at the end of a text, if there is one; anything else there is a fault. -/
def readExponent? : List Char → Option (Option Int)
  | [] => some none
  | c :: cs =>
    if c = 'e' ∨ c = 'E' then
      match cs with
      | '-' :: cs => (readPower? true cs).map some
      | '+' :: cs => (readPower? false cs).map some
      | cs => (readPower? false cs).map some
    else none

/-- Digits that may stand before the point: at least one, and no zero before another. -/
def isWhole : List Digit → Bool
  | [] => false
  | [_] => true
  | d :: _ => d != Digit.zero

/-- The numeral without sign that a whole text writes. -/
def ofUnsigned? (negative : Bool) (cs : List Char) : Option Numeral := do
  let (whole, rest) := Digit.span cs
  if isWhole whole then
    let (places, rest) ← readPlaces? rest
    let power ← readExponent? rest
    return { negative, whole, places, power }
  else none

/-- The numeral that a whole text writes. -/
def ofChars? : List Char → Option Numeral
  | '-' :: cs => ofUnsigned? true cs
  | cs => ofUnsigned? false cs

end Numeral

end TensorRecipe
