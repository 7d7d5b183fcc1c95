import Mathlib.Data.List.DropRight
import TensorRecipe.Binary64.Numeral

/-!
# Numerals are read as they are written

Every text of a numeral (`Numeral.IsSpelling`) is read as that numeral, if its digits could come from a
text at all (`Numeral.WellFormed`, `Numeral.ofChars?_of_isSpelling`).  The numerals of natural numbers
and of double precision numbers are such.
-/

namespace TensorRecipe

namespace Digit

theorem ofChar?_digitChar : ∀ d : Digit, ofChar? d.val.digitChar = some d := by decide

theorem char_ne_minus : ∀ d : Digit, d.char ≠ '-' := by decide

theorem char_ne_plus : ∀ d : Digit, d.char ≠ '+' := by decide

/-! ### Digits of natural numbers -/

theorem ofNat_of_lt {n : Nat} (h : n < 10) : ofNat n = [⟨n, h⟩] := by
  rw [ofNat, Nat.toDigits_of_lt_base h]
  simp only [List.filterMap_cons, ofChar?_digitChar ⟨n, h⟩, List.filterMap_nil]

theorem ofNat_of_le {n : Nat} (h : 10 ≤ n) :
    ofNat n = ofNat (n / 10) ++ [⟨n % 10, Nat.mod_lt n (by decide)⟩] := by
  rw [ofNat, Nat.toDigits_of_base_le (by decide) h, List.filterMap_append]
  simp only [List.filterMap_cons, List.filterMap_nil, ofNat,
    ofChar?_digitChar ⟨n % 10, Nat.mod_lt n (by decide)⟩]

theorem toNat_concat (ds : List Digit) (d : Digit) : toNat (ds ++ [d]) = 10 * toNat ds + d.val := by
  rw [toNat, List.foldl_append]
  rfl

theorem toNat_ofNat (n : Nat) : toNat (ofNat n) = n := by
  induction n using Nat.strongRecOn with
  | ind n ih =>
    rcases Nat.lt_or_ge n 10 with h | h
    · rw [ofNat_of_lt h]
      simp [toNat]
    · rw [ofNat_of_le h, toNat_concat, ih (n / 10) (by omega)]
      show 10 * (n / 10) + n % 10 = n
      omega

theorem ofNat_ne_nil (n : Nat) : ofNat n ≠ [] := by
  rcases Nat.lt_or_ge n 10 with h | h
  · simp [ofNat_of_lt h]
  · simp [ofNat_of_le h]

/-- The first digit of a number is no zero, unless the number is. -/
theorem head?_ofNat {n : Nat} (h : 0 < n) : (ofNat n).head? ≠ some 0 := by
  induction n using Nat.strongRecOn with
  | ind n ih =>
    rcases Nat.lt_or_ge n 10 with hlt | hge
    · rw [ofNat_of_lt hlt]
      simp only [List.head?_cons, ne_eq, Option.some.injEq, Fin.ext_iff]
      show n ≠ 0
      omega
    · rw [ofNat_of_le hge, List.head?_append_of_ne_nil _ (ofNat_ne_nil _)]
      exact ih (n / 10) (by omega) (by omega)

/-! ### Digits at the front of a text -/

theorem span_append {rest : List Char} (h : span rest = ([], rest)) (ds : List Digit) :
    span (ds.map char ++ rest) = (ds, rest) := by
  induction ds with
  | nil => exact h
  | cons d ds ih =>
    rw [List.map_cons, List.cons_append, span]
    simp only [ofChar?_char, ih]

end Digit

namespace Numeral

/-- The digits of the numeral are those of some text: before the point there is at least one, with
no zero in front of another, and after a point there is at least one. -/
structure WellFormed (n : Numeral) : Prop where
  whole : isWhole n.whole
  places : n.places ≠ some []

theorem isWhole_of_head? {ds : List Digit} (hne : ds ≠ []) (h : ds.head? ≠ some 0) :
    isWhole ds := by
  obtain ⟨d, ds, rfl⟩ := List.exists_cons_of_ne_nil hne
  cases ds with
  | nil => rfl
  | cons e ds =>
    have hd : d ≠ 0 := by simpa using h
    simpa [isWhole, Digit.zero] using hd

theorem isWhole_ofNat (n : Nat) : isWhole (Digit.ofNat n) := by
  rcases Nat.eq_zero_or_pos n with rfl | h
  · decide
  · exact isWhole_of_head? (Digit.ofNat_ne_nil n) (Digit.head?_ofNat h)

theorem wellFormed_ofNat (n : Nat) : (ofNat n).WellFormed := ⟨isWhole_ofNat n, by simp [ofNat]⟩

theorem toNat?_ofNat {bound n : Nat} (h : n < bound) : (ofNat n).toNat? bound = some n := by
  simp [toNat?, ofNat, Digit.toNat_ofNat, h]

/-! ### Reading what was written -/

/-- The text writes the power of ten, if there is one: after a letter of either case, with a sign
that may be left out where it is positive. -/
inductive SpellsPower : Option Int → List Char → Prop where
  | absent : SpellsPower none []
  | plain {letter : Char} {ds : List Digit} (hletter : letter = 'e' ∨ letter = 'E') (hds : ds ≠ []) :
    SpellsPower (some (Digit.toNat ds)) (letter :: ds.map Digit.char)
  | positive {letter : Char} {ds : List Digit} (hletter : letter = 'e' ∨ letter = 'E') (hds : ds ≠ []) :
    SpellsPower (some (Digit.toNat ds)) (letter :: '+' :: ds.map Digit.char)
  | negative {letter : Char} {ds : List Digit} (hletter : letter = 'e' ∨ letter = 'E') (hds : ds ≠ []) :
    SpellsPower (some (-(Digit.toNat ds : Int))) (letter :: '-' :: ds.map Digit.char)

theorem spellsPower_powerChars (power : Int) : SpellsPower (some power) (powerChars power) := by
  have hvalue := Digit.toNat_ofNat power.natAbs
  have hds := Digit.ofNat_ne_nil power.natAbs
  rw [powerChars]
  split
  · have hspells := SpellsPower.negative (.inl rfl) hds
    rwa [show -(Digit.toNat (Digit.ofNat power.natAbs) : Int) = power by omega] at hspells
  · have hspells := SpellsPower.positive (.inl rfl) hds
    rwa [show (Digit.toNat (Digit.ofNat power.natAbs) : Int) = power by omega] at hspells

theorem readPower?_map_char (negative : Bool) {ds : List Digit} (h : ds ≠ []) :
    readPower? negative (ds.map Digit.char) =
      some (if negative then -(Digit.toNat ds : Int) else Digit.toNat ds) := by
  have hspan := Digit.span_append (show Digit.span [] = ([], []) from rfl) ds
  obtain ⟨d, ds, rfl⟩ := List.exists_cons_of_ne_nil h
  rw [List.append_nil] at hspan
  rw [readPower?, hspan]

section

variable {power : Option Int} {es : List Char}

theorem SpellsPower.span (h : SpellsPower power es) : Digit.span es = ([], es) := by
  cases h with
  | absent => rfl
  | plain hletter | positive hletter | negative hletter => rcases hletter with rfl | rfl <;> rfl

theorem SpellsPower.readPlaces? (h : SpellsPower power es) :
    Numeral.readPlaces? es = some (none, es) := by
  cases h with
  | absent => rfl
  | plain hletter | positive hletter | negative hletter => rcases hletter with rfl | rfl <;> rfl

theorem SpellsPower.readPlaces?_point (h : SpellsPower power es) {places : List Digit}
    (hplaces : places ≠ []) :
    Numeral.readPlaces? ('.' :: (places.map Digit.char ++ es)) = some (some places, es) := by
  obtain ⟨d, ds, rfl⟩ := List.exists_cons_of_ne_nil hplaces
  rw [Numeral.readPlaces?, Digit.span_append h.span (d :: ds)]

theorem SpellsPower.readExponent? (h : SpellsPower power es) :
    Numeral.readExponent? es = some power := by
  cases h with
  | absent => rfl
  | @plain letter ds hletter hds =>
    -- the first digit is no sign
    obtain ⟨d, ds, rfl⟩ := List.exists_cons_of_ne_nil hds
    have hread := readPower?_map_char false hds
    rw [List.map_cons] at hread ⊢
    rw [Numeral.readExponent?, if_pos hletter]
    · rw [hread]
      rfl
    · exact fun _ heq => d.char_ne_minus (List.cons.inj heq).1
    · exact fun _ heq => d.char_ne_plus (List.cons.inj heq).1
  | positive hletter hds =>
    rw [Numeral.readExponent?, if_pos hletter]
    simp [readPower?_map_char false hds]
  | negative hletter hds =>
    rw [Numeral.readExponent?, if_pos hletter]
    simp [readPower?_map_char true hds]

end

/-- The text of a numeral without its sign, with a text for its power of ten. -/
def unsignedChars (n : Numeral) (es : List Char) : List Char :=
  n.whole.map Digit.char ++ ((match n.places with
    | some places => '.' :: places.map Digit.char
    | none => []) ++ es)

/-- The text writes the numeral. -/
def IsSpelling (n : Numeral) (cs : List Char) : Prop :=
  ∃ es, SpellsPower n.power es ∧ cs = (if n.negative then ['-'] else []) ++ n.unsignedChars es

theorem isSpelling_chars (n : Numeral) : n.IsSpelling n.chars := by
  obtain ⟨negative, whole, places, power⟩ := n
  cases power with
  | none =>
    exact ⟨[], .absent, (List.append_assoc _ _ _).trans (List.append_assoc _ _ _)⟩
  | some power =>
    exact ⟨powerChars power, spellsPower_powerChars power,
      (List.append_assoc _ _ _).trans (List.append_assoc _ _ _)⟩

section

variable {n : Numeral} {es cs : List Char}

theorem ofUnsigned?_unsignedChars (h : n.WellFormed) (hes : SpellsPower n.power es) :
    ofUnsigned? n.negative (n.unsignedChars es) = some n := by
  obtain ⟨negative, whole, places, power⟩ := n
  obtain ⟨hwhole, hplaces⟩ := h
  cases places with
  | none =>
    rw [ofUnsigned?, unsignedChars, List.nil_append, Digit.span_append hes.span whole]
    simp only [show isWhole whole from hwhole, if_true, hes.readPlaces?, Option.bind_eq_bind,
      Option.bind_some, hes.readExponent?]
    rfl
  | some places =>
    have hpoint : Digit.span ('.' :: (places.map Digit.char ++ es)) =
        ([], '.' :: (places.map Digit.char ++ es)) := rfl
    have hne : places ≠ [] := fun hnil => hplaces (congrArg some hnil)
    rw [ofUnsigned?, unsignedChars, List.cons_append, Digit.span_append hpoint whole]
    simp only [show isWhole whole from hwhole, if_true, hes.readPlaces?_point hne,
      Option.bind_eq_bind, Option.bind_some, hes.readExponent?]
    rfl

/-- A numeral begins with a digit, if there is no sign. -/
theorem exists_unsignedChars_eq (h : n.WellFormed) (es : List Char) :
    ∃ (d : Digit) (cs : List Char), n.unsignedChars es = d.char :: cs := by
  obtain ⟨d, ds, hds⟩ : ∃ d ds, n.whole = d :: ds := by
    refine List.exists_cons_of_ne_nil fun hnil => ?_
    have hwhole := h.whole
    rw [hnil] at hwhole
    cases hwhole
  exact ⟨d, _, by rw [unsignedChars, hds]; rfl⟩

theorem ofChars?_of_isSpelling (h : n.WellFormed) (hcs : n.IsSpelling cs) :
    ofChars? cs = some n := by
  obtain ⟨es, hes, rfl⟩ := hcs
  have hread := ofUnsigned?_unsignedChars h hes
  by_cases hn : n.negative
  · rw [hn] at hread
    simpa [hn, ofChars?] using hread
  · obtain ⟨d, cs, hcs⟩ := exists_unsignedChars_eq h es
    rw [hcs] at hread ⊢
    simp only [hn, if_false, List.nil_append, Bool.false_eq_true]
    rw [ofChars?]
    · rwa [Bool.eq_false_iff.2 hn] at hread
    · rintro _ heq
      exact d.char_ne_minus (List.cons.inj heq).1

end

end Numeral

/-! ### Numerals of double precision numbers -/

namespace Decimal

theorem trimmed_eq (d : Decimal) : d.trimmed.1 = (Digit.ofNat d.coefficient).rdropWhile (· == 0) := rfl

/-- Of the digits of a number other than zero some are left, and the first of them is no zero. -/
theorem trimmed_head {d : Decimal} (h : 0 < d.coefficient) :
    d.trimmed.1 ≠ [] ∧ d.trimmed.1.head? ≠ some 0 := by
  obtain ⟨first, rest, hdigits⟩ := List.exists_cons_of_ne_nil (Digit.ofNat_ne_nil d.coefficient)
  have hfirst : first ≠ 0 := by
    have := Digit.head?_ofNat h
    simpa [hdigits] using this
  have hne : d.trimmed.1 ≠ [] := by
    rw [trimmed_eq, Ne, List.rdropWhile_eq_nil_iff]
    intro hall
    exact hfirst (by simpa using hall first (by simp [hdigits]))
  refine ⟨hne, ?_⟩
  have hprefix : d.trimmed.1 <+: Digit.ofNat d.coefficient := List.rdropWhile_prefix _ _
  obtain ⟨e, es, hes⟩ := List.exists_cons_of_ne_nil hne
  rw [hes, hdigits] at hprefix
  rw [hes]
  obtain rfl : e = first := (List.cons_prefix_cons.1 hprefix).1
  simpa using hfirst

namespace Interval

variable {r : Interval} {tie : TieRule} {power : Int} {n : Nat}

theorem contains_zero (h : 0 < r.low) : r.contains 0 = false := by
  have hne : r.low ≠ 0 := by omega
  rw [contains]
  split
  · simp [hne]
  · simp

/-- The multiple of the unit that is found lies among the reals. -/
theorem contains_of_onGrid? (h : r.onGrid? tie power = some n) :
    (r.onGrid power).1.contains (n * (r.onGrid power).2) := by
  simp only [onGrid?] at h
  split at h
  · next hbelow habove =>
    -- it is one of the two neighbours, whichever way a tie goes
    have hn : n = (r.onGrid power).1.value / (r.onGrid power).2 ∨
        n = (r.onGrid power).1.value / (r.onGrid power).2 + 1 := by
      rw [Option.some.injEq] at h
      split at h
      · exact .inl h.symm
      · split at h
        · exact .inr h.symm
        · cases tie with
          | toEven =>
            simp only at h
            omega
          | up => exact .inr h.symm
    rcases hn with rfl | rfl
    · exact hbelow
    · exact habove
  · next hbelow _ =>
    obtain rfl := Option.some.inj h
    exact hbelow
  · next _ habove =>
    obtain rfl := Option.some.inj h
    exact habove
  · cases h

theorem onGrid?_pos (hlow : 0 < r.low) (hunit : 0 < r.unitNum) (h : r.onGrid? tie power = some n) :
    0 < n := by
  by_contra hn
  obtain rfl : n = 0 := by omega
  have hfactor : 0 < r.unitNum * Nat.pow 10 (-power).toNat :=
    Nat.mul_pos hunit (Nat.pow_pos (by decide))
  have hzero : (r.onGrid power).1.contains 0 = false := contains_zero (Nat.mul_pos hlow hfactor)
  have hfound := contains_of_onGrid? h
  rw [Nat.zero_mul, hzero] at hfound
  cases hfound

end Interval

/-- The shortest decimal of a positive number is positive, where there is one. -/
theorem coefficient_shortest {tie : TieRule} {x : Binary64} (h : 0 < x.mantissa) :
    shortest tie x = ⟨0, 0⟩ ∨ 0 < (shortest tie x).coefficient := by
  unfold shortest
  simp only
  generalize hfound : List.findSome? _ _ = found
  cases found with
  | none => exact .inl rfl
  | some d =>
    refine .inr ?_
    obtain ⟨power, -, hd⟩ := List.exists_of_findSome?_eq_some hfound
    obtain ⟨n, hn, rfl⟩ := Option.map_eq_some_iff.1 hd
    refine Interval.onGrid?_pos ?_ ?_ hn
    · show 0 < 4 * x.mantissa - _
      split <;> omega
    · exact Nat.pow_pos (by decide)

theorem isWhole_positional {d : Decimal} (h : d = ⟨0, 0⟩ ∨ 0 < d.coefficient) :
    Numeral.isWhole d.positional.1 := by
  rcases h with rfl | h
  · decide
  obtain ⟨hne, hhead⟩ := trimmed_head h
  obtain ⟨first, rest, hdigits⟩ := List.exists_cons_of_ne_nil hne
  have hfirst : first ≠ 0 := by simpa [hdigits] using hhead
  simp only [positional]
  split
  · refine Numeral.isWhole_of_head? ?_ ?_
    · simp [hdigits]
    · simp [hdigits, hfirst]
  · next hpower =>
    by_cases hzeros : (-d.trimmed.2).toNat + 1 - d.trimmed.1.length = 0
    · rw [hzeros, List.replicate_zero, List.nil_append, hdigits]
      have hlength : 0 < (first :: rest).length - (-d.trimmed.2).toNat := by
        rw [hdigits] at hzeros
        omega
      refine Numeral.isWhole_of_head? ?_ ?_
      · rw [Ne, List.take_eq_nil_iff]
        simp only [reduceCtorEq, or_false]
        omega
      · rw [List.head?_take, if_neg (by omega), List.head?_cons]
        simpa using hfirst
    · -- a single zero is before the point
      obtain ⟨k, hk⟩ := Nat.exists_eq_succ_of_ne_zero hzeros
      have hone : (List.replicate (k + 1) (0 : Digit) ++ d.trimmed.1).length -
          (-d.trimmed.2).toNat = 1 := by
        rw [List.length_append, List.length_replicate]
        omega
      rw [hk, hone, List.replicate_succ]
      rfl

end Decimal

namespace Binary64

theorem wellFormed_numeral {x : Binary64} {n : Numeral} (h : x.numeral? = some n) :
    n.WellFormed := by
  unfold numeral? at h
  split at h
  · cases h
  · split at h
    · obtain rfl := Option.some.inj h
      exact ⟨rfl, by simp⟩
    · next hfinite hzero =>
      obtain rfl := Option.some.inj h
      have hmantissa : 0 < x.mantissa := by
        simp only [isZero, Bool.and_eq_true, beq_iff_eq, not_and] at hzero
        exact Nat.pos_of_ne_zero (hzero (by simpa using hfinite))
      unfold magnitudeNumeral
      simp only
      split
      · refine ⟨Decimal.isWhole_positional (Decimal.coefficient_shortest hmantissa), ?_⟩
        simp only [ne_eq, Option.some.injEq]
        split
        · simp
        · next hne => simpa using hne
      · refine ⟨rfl, ?_⟩
        simp only [ne_eq]
        split
        · simp
        · next hne => simpa using hne

end Binary64

end TensorRecipe
