import Mathlib.Data.List.Chain
import TensorRecipe.Json.Lexer
import TensorRecipe.Proofs.Json.Numerals

/-!
# Texts of tokens are read as those tokens

A token may be spelled in several ways (`Token.IsSpelling`): a power of ten with or without its sign,
a character as itself or after a backslash.  A text of tokens may have white space between them, and
must have some only where a word or a number would run into another one (`Token.Separate`).  The
lexer is `AtEnd` of a token when nothing but a letter or a part of a numeral would change that token;
it is then brought from one token to the next (`Lexer.exists_foldlM_of_isSpelling`), and to the end of
the text (`Token.lex_of_spelled`).
-/

namespace TensorRecipe

/-! ### Quoted text -/

namespace QuotedPart

/-- The part stands for the character, whatever follows. -/
def Spells (part : QuotedPart) (c : Char) : Prop :=
  ∀ parts, decode? (part :: parts) = (decode? parts).map (c :: ·)

theorem spells_char (c : Char) : (char c).Spells c := fun _ => rfl

/-- A unit that is no half of a pair stands for a character by itself. -/
theorem spells_unit {n : Nat} (h : n < 0xD800) : (unit n).Spells (Char.ofNat n) := by
  have hhigh : isHigh n = false := by simp [isHigh, h]
  have hlow : isLow n = false := by
    have : n < 0xDC00 := by omega
    simp [isLow, this]
  rintro (_ | ⟨c | low, parts⟩)
  · simp [decode?, hhigh, hlow]
  · simp [decode?, hhigh, hlow]
  · simp [decode?, hhigh, hlow]

/-- The text writes the part: a character as itself or by a letter after a backslash, a unit by four
hexadecimal digits. -/
inductive IsSpelling : QuotedPart → List Char → Prop where
  | plain {c : Char} (hquote : c ≠ '"') (hslash : c ≠ '\\') (hcontrol : 32 ≤ c.toNat) :
    IsSpelling (char c) [c]
  | letter {c d : Char} (h : Lexer.unescape? c = some d) : IsSpelling (char d) ['\\', c]
  | hex {a b c d : Char} {w x y z : Nat} (ha : Lexer.hexValue? a = some w)
    (hb : Lexer.hexValue? b = some x) (hc : Lexer.hexValue? c = some y)
    (hd : Lexer.hexValue? d = some z) :
    IsSpelling (unit (16 * (16 * (16 * w + x) + y) + z)) ['\\', 'u', a, b, c, d]

/-- The text writes the parts one after another. -/
inductive AreSpelled : List QuotedPart → List Char → Prop where
  | nil : AreSpelled [] []
  | cons {part : QuotedPart} {parts : List QuotedPart} {cs text : List Char}
    (head : part.IsSpelling cs) (tail : AreSpelled parts text) : AreSpelled (part :: parts) (cs ++ text)

theorem hexValue?_hexChar : ∀ n < 16, Lexer.hexValue? (Token.hexChar n) = some n := by decide

theorem exists_isSpelling_escape (c : Char) :
    ∃ part : QuotedPart, part.IsSpelling (Token.escape c) ∧ part.Spells c := by
  have hof : ∀ n, c.toNat = n → c = Char.ofNat n := fun n hn => by rw [← hn, Char.ofNat_toNat]
  unfold Token.escape
  split_ifs with hquote hslash hb ht hn hf hr hcontrol
  · exact ⟨_, .letter rfl, hquote ▸ spells_char _⟩
  · exact ⟨_, .letter rfl, hslash ▸ spells_char _⟩
  · exact ⟨_, .letter rfl, hof _ hb ▸ spells_char _⟩
  · exact ⟨_, .letter rfl, hof _ ht ▸ spells_char _⟩
  · exact ⟨_, .letter rfl, hof _ hn ▸ spells_char _⟩
  · exact ⟨_, .letter rfl, hof _ hf ▸ spells_char _⟩
  · exact ⟨_, .letter rfl, hof _ hr ▸ spells_char _⟩
  · refine ⟨_, @IsSpelling.hex '0' '0' _ _ 0 0 _ _ rfl rfl
      (hexValue?_hexChar (c.toNat / 16) (by omega)) (hexValue?_hexChar (c.toNat % 16) (by omega)), ?_⟩
    have hvalue : 16 * (16 * (16 * 0 + 0) + c.toNat / 16) + c.toNat % 16 = c.toNat := by omega
    have hspells := spells_unit (n := c.toNat) (by omega)
    rwa [Char.ofNat_toNat, ← hvalue] at hspells
  · exact ⟨_, .plain hquote hslash (by omega), spells_char c⟩

theorem exists_areSpelled_escape : ∀ cs : List Char,
    ∃ parts, AreSpelled parts (cs.flatMap Token.escape) ∧ decode? parts = some cs
  | [] => ⟨[], .nil, rfl⟩
  | c :: cs => by
    obtain ⟨part, hpart, hspells⟩ := exists_isSpelling_escape c
    obtain ⟨parts, hparts, hdecode⟩ := exists_areSpelled_escape cs
    exact ⟨part :: parts, .cons hpart hparts, by rw [hspells, hdecode, Option.map_some]⟩

end QuotedPart

namespace Lexer

variable {lexer : Lexer} {tokens : List Token}

/-- A part of quoted text is read from every text that writes it. -/
theorem foldlM_part {part : QuotedPart} {cs : List Char} (h : part.IsSpelling cs)
    (parts : List QuotedPart) (tokens : List Token) :
    cs.foldlM step ⟨.quoted parts, tokens⟩ = some ⟨.quoted (part :: parts), tokens⟩ := by
  cases h with
  | plain hquote hslash hcontrol =>
    simp [step, hquote, hslash, Nat.not_lt.2 hcontrol]
  | @letter c d h =>
    have hu : c ≠ 'u' := by
      rintro rfl
      cases h
    show [c].foldlM step ⟨.escaped parts, tokens⟩ = _
    simp [step, hu, h]
  | @hex a b c d w x y z ha hb hc hd =>
    show [a, b, c, d].foldlM step ⟨.hex parts 0 3, tokens⟩ = _
    simp [step, ha, hb, hc, hd]

theorem foldlM_parts {new : List QuotedPart} {text : List Char} (h : QuotedPart.AreSpelled new text)
    (parts : List QuotedPart) (tokens : List Token) :
    text.foldlM step ⟨.quoted parts, tokens⟩ = some ⟨.quoted (new.reverse ++ parts), tokens⟩ := by
  induction h generalizing parts with
  | nil => rfl
  | cons head _ ih =>
    rw [List.foldlM_append, foldlM_part head, List.reverse_cons, List.append_assoc]
    exact ih _

theorem foldlM_quoted {parts : List QuotedPart} {text : List Char}
    (h : QuotedPart.AreSpelled parts text) (tokens : List Token) :
    ('"' :: text ++ ['"']).foldlM step ⟨.between, tokens⟩ =
      some ⟨.between, .str (QuotedPart.text? parts) :: tokens⟩ := by
  have hopen : step ⟨.between, tokens⟩ '"' = some ⟨.quoted [], tokens⟩ := rfl
  rw [List.cons_append, List.foldlM_cons, hopen]
  show (text ++ ['"']).foldlM step _ = _
  rw [List.foldlM_append, foldlM_parts h, List.append_nil]
  simp [step]

/-! ### Tokens -/

/-- The tokens have been read, and a character that belongs to no word and to no numeral begins the
next one. -/
structure AtEnd (lexer : Lexer) (tokens : List Token) : Prop where
  close : lexer.close = some tokens
  step : ∀ c, isNumeral c = false → isLetter c = false → lexer.step c = start tokens c

theorem atEnd_between (tokens : List Token) : AtEnd ⟨.between, tokens⟩ tokens :=
  ⟨rfl, fun _ _ _ => rfl⟩

theorem atEnd_word (letters : List Char) {t : Token} (h : Token.ofWord? letters = some t) :
    AtEnd ⟨.word letters.reverse, tokens⟩ (t :: tokens) := by
  have hclose : close ⟨.word letters.reverse, tokens⟩ = some (t :: tokens) := by
    simp [close, h]
  refine ⟨hclose, fun c _ hc => ?_⟩
  simp [Lexer.step, hc, hclose]

theorem atEnd_number {n : Numeral} {cs : List Char} (h : n.WellFormed) (hcs : n.IsSpelling cs) :
    AtEnd ⟨.number cs.reverse, tokens⟩ (.num n :: tokens) := by
  have hclose : close ⟨.number cs.reverse, tokens⟩ = some (.num n :: tokens) := by
    simp [close, Numeral.ofChars?_of_isSpelling h hcs]
  refine ⟨hclose, fun c hc _ => ?_⟩
  simp [Lexer.step, hc, hclose]

/-! ### Numerals -/

theorem isNumeral_char : ∀ d : Digit, isNumeral d.char = true := by decide

theorem isNumeral_of_mem {n : Numeral} {cs : List Char} (h : n.IsSpelling cs) :
    ∀ c ∈ cs, isNumeral c = true := by
  have hdigits : ∀ ds : List Digit, ∀ c ∈ ds.map Digit.char, isNumeral c = true := by
    intro ds c hc
    obtain ⟨d, -, rfl⟩ := List.mem_map.1 hc
    exact isNumeral_char d
  have hletters : ∀ {letter : Char}, letter = 'e' ∨ letter = 'E' → isNumeral letter = true := by
    rintro _ (rfl | rfl) <;> rfl
  have hend : ∀ {power : Option Int} {es : List Char}, Numeral.SpellsPower power es →
      ∀ c ∈ es, isNumeral c = true := by
    intro power es hes
    cases hes with
    | absent => exact nofun
    | plain hletter => exact List.forall_mem_cons.2 ⟨hletters hletter, hdigits _⟩
    | positive hletter | negative hletter =>
      exact List.forall_mem_cons.2 ⟨hletters hletter, List.forall_mem_cons.2 ⟨rfl, hdigits _⟩⟩
  obtain ⟨es, hes, rfl⟩ := h
  intro c hc
  rw [Numeral.unsignedChars, List.mem_append, List.mem_append, List.mem_append] at hc
  rcases hc with hc | hc | hc | hc
  · split at hc
    · obtain rfl := List.mem_singleton.1 hc
      rfl
    · cases hc
  · exact hdigits _ c hc
  · split at hc
    · rcases List.mem_cons.1 hc with rfl | hc
      · rfl
      · exact hdigits _ c hc
    · cases hc
  · exact hend hes c hc

theorem start_minus (tokens : List Token) : start tokens '-' = some ⟨.number ['-'], tokens⟩ := rfl

theorem start_digit (d : Digit) (tokens : List Token) :
    start tokens d.char = some ⟨.number [d.char], tokens⟩ := by
  have hblank : ∀ d : Digit, isBlank d.char = false := by decide
  have hquote : ∀ d : Digit, d.char ≠ '"' := by decide
  rw [start, if_neg (by simp [hblank d]), if_neg (hquote d),
    if_pos (.inr (by rw [Digit.ofChar?_char]; rfl))]

/-- The first character of a numeral begins a number. -/
theorem exists_start_of_isSpelling {n : Numeral} {cs : List Char} (h : n.WellFormed)
    (hcs : n.IsSpelling cs) (tokens : List Token) :
    ∃ c rest, cs = c :: rest ∧ start tokens c = some ⟨.number [c], tokens⟩ := by
  obtain ⟨es, -, rfl⟩ := hcs
  split
  · exact ⟨'-', _, rfl, start_minus tokens⟩
  · obtain ⟨d, rest, hrest⟩ := Numeral.exists_unsignedChars_eq h es
    exact ⟨d.char, rest, hrest, start_digit d tokens⟩

theorem foldlM_number (tokens : List Token) : ∀ {cs : List Char} {chars : List Char},
    (∀ c ∈ cs, isNumeral c = true) → cs.foldlM step ⟨.number chars, tokens⟩ =
      some ⟨.number (cs.reverse ++ chars), tokens⟩
  | [], _, _ => rfl
  | c :: cs, chars, h => by
    have hc : step ⟨.number chars, tokens⟩ c = some ⟨.number (c :: chars), tokens⟩ := by
      simp [step, h c (by simp)]
    rw [List.foldlM_cons, hc, List.reverse_cons, List.append_assoc]
    exact foldlM_number tokens fun d hd => h d (List.mem_cons_of_mem c hd)

theorem foldlM_numeral {n : Numeral} {cs : List Char} (h : n.WellFormed) (hcs : n.IsSpelling cs)
    (tokens : List Token) :
    cs.foldlM step ⟨.between, tokens⟩ = some ⟨.number cs.reverse, tokens⟩ := by
  obtain ⟨c, rest, rfl, hstart⟩ := exists_start_of_isSpelling h hcs tokens
  have hnumeral : ∀ d ∈ rest, isNumeral d = true := fun d hd =>
    isNumeral_of_mem hcs d (List.mem_cons_of_mem c hd)
  rw [List.foldlM_cons, show step ⟨.between, tokens⟩ c = _ from hstart, List.reverse_cons]
  exact foldlM_number tokens hnumeral

end Lexer

/-! ### Texts -/

namespace Token

/-- The token is a word or a number: it ends where the next character cannot belong to it. -/
def isBare : Token → Bool
  | null => true
  | bool _ => true
  | num _ => true
  | _ => false

/-- A number is one that a text can write. -/
def WellFormed : Token → Prop
  | num n => n.WellFormed
  | _ => True

theorem WellFormed.of_isBare {t : Token} (h : t.isBare = false) : t.WellFormed := by
  cases t with
  | num n => cases h
  | _ => trivial

/-- The first token would not run into the second one. -/
def Separate (s t : Token) : Prop := s.isBare → t.isBare = false

theorem Separate.of_left {s t : Token} (h : s.isBare = false) : s.Separate t := by
  simp [Separate, h]

theorem Separate.of_right {s t : Token} (h : t.isBare = false) : s.Separate t := fun _ => h

/-- The text writes the token. -/
inductive IsSpelling : Token → List Char → Prop where
  | num {n : Numeral} {cs : List Char} (h : n.IsSpelling cs) : IsSpelling (num n) cs
  | str {parts : List QuotedPart} {text : List Char} (h : QuotedPart.AreSpelled parts text) :
    IsSpelling (str (QuotedPart.text? parts)) ('"' :: text ++ ['"'])
  | chars {t : Token} (hnum : ∀ n, t ≠ num n) (hstr : ∀ s, t ≠ str s) : IsSpelling t t.chars

theorem isSpelling_chars (t : Token) : t.IsSpelling t.chars := by
  cases t with
  | num n => exact .num n.isSpelling_chars
  | str text =>
    cases text with
    | some text =>
      obtain ⟨parts, hparts, hdecode⟩ := QuotedPart.exists_areSpelled_escape text.toList
      have htext : QuotedPart.text? parts = some text := by
        rw [QuotedPart.text?, hdecode, Option.map_some, String.ofList_toList]
      have hquoted := IsSpelling.str hparts
      rwa [htext] at hquoted
    | none =>
      -- half of a pair
      have hparts : QuotedPart.AreSpelled [.unit 0xD800] ['\\', 'u', 'd', '8', '0', '0'] :=
        .cons (@QuotedPart.IsSpelling.hex 'd' '8' '0' '0' 13 8 0 0 rfl rfl rfl rfl) .nil
      exact .str hparts
  | _ => exact .chars nofun nofun

/-- The text consists of the tokens, with or without white space before and after each. -/
inductive Spelled : List Token → List Char → Prop where
  | nil {blanks : List Char} (blank : ∀ c ∈ blanks, Lexer.isBlank c) : Spelled [] blanks
  | cons {blanks cs text : List Char} {t : Token} {ts : List Token}
    (blank : ∀ c ∈ blanks, Lexer.isBlank c) (spelling : t.IsSpelling cs) (rest : Spelled ts text) :
    Spelled (t :: ts) (blanks ++ (cs ++ text))

theorem spelled_flatMap : ∀ ts : List Token, Spelled ts (ts.flatMap chars)
  | [] => .nil (by simp)
  | t :: ts => @Spelled.cons [] _ _ t ts (by simp) t.isSpelling_chars (spelled_flatMap ts)

end Token

namespace Lexer

/-- A token is read from between two tokens. -/
theorem exists_foldlM_of_isSpelling {t : Token} {cs : List Char} (h : t.WellFormed)
    (hcs : t.IsSpelling cs) (tokens : List Token) :
    ∃ lexer, cs.foldlM step ⟨.between, tokens⟩ = some lexer ∧ AtEnd lexer (t :: tokens) ∧
      (t.isBare = false → lexer = ⟨.between, t :: tokens⟩) := by
  have hmark : ∀ {t : Token} {cs : List Char}, cs.foldlM step ⟨.between, tokens⟩ =
      some ⟨.between, t :: tokens⟩ → ∃ lexer, cs.foldlM step ⟨.between, tokens⟩ = some lexer ∧
        AtEnd lexer (t :: tokens) ∧ (t.isBare = false → lexer = ⟨.between, t :: tokens⟩) :=
    fun hread => ⟨_, hread, atEnd_between _, fun _ => rfl⟩
  cases hcs with
  | num hcs => exact ⟨_, foldlM_numeral h hcs tokens, atEnd_number h hcs, nofun⟩
  | str hparts => exact hmark (foldlM_quoted hparts tokens)
  | chars hnum hstr =>
    cases t with
    | openArray => exact hmark rfl
    | closeArray => exact hmark rfl
    | openObject => exact hmark rfl
    | closeObject => exact hmark rfl
    | colon => exact hmark rfl
    | comma => exact hmark rfl
    | null => exact ⟨_, rfl, atEnd_word ['n', 'u', 'l', 'l'] rfl, nofun⟩
    | bool value =>
      cases value with
      | true => exact ⟨_, rfl, atEnd_word ['t', 'r', 'u', 'e'] rfl, nofun⟩
      | false => exact ⟨_, rfl, atEnd_word ['f', 'a', 'l', 's', 'e'] rfl, nofun⟩
    | num n => exact absurd rfl (hnum n)
    | str text => exact absurd rfl (hstr text)

/-- White space ends what came before it. -/
theorem AtEnd.blank {lexer : Lexer} {tokens : List Token} (h : AtEnd lexer tokens) {c : Char}
    (hc : isBlank c) : lexer.step c = some ⟨.between, tokens⟩ := by
  have hblank : isNumeral c = false ∧ isLetter c = false := by
    simp only [isBlank, Bool.or_eq_true, decide_eq_true_eq] at hc
    rcases hc with ((rfl | rfl) | rfl) | rfl <;> decide
  rw [h.step c hblank.1 hblank.2, start, if_pos hc]

theorem exists_foldlM_blanks {tokens : List Token} : ∀ {blanks : List Char} {lexer : Lexer},
    (∀ c ∈ blanks, isBlank c) → AtEnd lexer tokens → ∃ lexer', blanks.foldlM step lexer = some lexer' ∧
      AtEnd lexer' tokens ∧ (lexer' = lexer ∨ lexer' = ⟨.between, tokens⟩)
  | [], lexer, _, h => ⟨lexer, rfl, h, .inl rfl⟩
  | c :: blanks, lexer, hblanks, h => by
    have hrest : ∀ d ∈ blanks, isBlank d := fun d hd => hblanks d (List.mem_cons_of_mem c hd)
    obtain ⟨lexer', hread, hend, hlexer'⟩ := exists_foldlM_blanks hrest (atEnd_between tokens)
    refine ⟨lexer', ?_, hend, .inr (hlexer'.elim id id)⟩
    rw [List.foldlM_cons, h.blank (hblanks c (by simp))]
    exact hread

/-- What is neither a word nor a number ends what came before it. -/
theorem AtEnd.foldlM_of_isSpelling {lexer : Lexer} {tokens : List Token} (h : AtEnd lexer tokens)
    {t : Token} {cs : List Char} (hcs : t.IsSpelling cs) (ht : t.isBare = false) :
    cs.foldlM Lexer.step lexer = cs.foldlM Lexer.step ⟨.between, tokens⟩ := by
  obtain ⟨c, rest, rfl, hnumeral, hletter⟩ : ∃ c rest, cs = c :: rest ∧ isNumeral c = false ∧
      isLetter c = false := by
    cases hcs with
    | num => cases ht
    | str => exact ⟨'"', _, rfl, by decide, by decide⟩
    | chars _ hstr =>
      cases t with
      | null => cases ht
      | bool _ => cases ht
      | num _ => cases ht
      | str text => exact absurd rfl (hstr text)
      | _ => exact ⟨_, [], rfl, by decide, by decide⟩
  rw [List.foldlM_cons, List.foldlM_cons, h.step c hnumeral hletter]
  rfl

theorem exists_foldlM_of_spelled {ts : List Token} {text : List Char} (hspelled : Token.Spelled ts text)
    (hwf : ∀ t ∈ ts, t.WellFormed) (hchain : ts.IsChain Token.Separate) {lexer : Lexer}
    {tokens : List Token} (hend : AtEnd lexer tokens)
    (hfirst : ∀ t ∈ ts.head?, t.isBare = false ∨ lexer = ⟨.between, tokens⟩) :
    ∃ lexer', text.foldlM step lexer = some lexer' ∧ lexer'.close = some (ts.reverse ++ tokens) := by
  induction hspelled generalizing lexer tokens with
  | nil blank =>
    obtain ⟨lexer', hread, hend', -⟩ := exists_foldlM_blanks blank hend
    exact ⟨lexer', hread, hend'.close⟩
  | @cons blanks cs text t ts blank spelling rest ih =>
    obtain ⟨lexer₁, hblanks, hend₁, hlexer₁⟩ := exists_foldlM_blanks blank hend
    obtain ⟨lexer₂, htoken, hend₂, hbetween⟩ :=
      exists_foldlM_of_isSpelling (hwf t (by simp)) spelling tokens
    have htoken₁ : cs.foldlM step lexer₁ = some lexer₂ := by
      rw [← htoken]
      rcases hfirst t rfl with hbare | rfl
      · exact hend₁.foldlM_of_isSpelling spelling hbare
      · rw [hlexer₁.elim id id]
    obtain ⟨lexer', htext, hclose⟩ := ih (fun s hs => hwf s (List.mem_cons_of_mem t hs))
      (List.isChain_cons.1 hchain).2 hend₂ fun s hs => by
        by_cases hbare : t.isBare
        · exact .inl ((List.isChain_cons.1 hchain).1 s hs hbare)
        · exact .inr (hbetween (Bool.eq_false_iff.2 hbare))
    refine ⟨lexer', ?_, by rw [hclose, List.reverse_cons, List.append_assoc]; rfl⟩
    rw [List.foldlM_append, hblanks]
    show (_ ++ _ : List Char).foldlM step lexer₁ = _
    rw [List.foldlM_append, htoken₁]
    exact htext

end Lexer

theorem Token.lex_of_spelled {ts : List Token} {text : List Char} (hspelled : Token.Spelled ts text)
    (hwf : ∀ t ∈ ts, t.WellFormed) (hchain : ts.IsChain Token.Separate) :
    Token.lex text = some ts := by
  obtain ⟨lexer, hread, hclose⟩ := Lexer.exists_foldlM_of_spelled hspelled hwf hchain
    (Lexer.atEnd_between []) fun _ _ => .inr rfl
  simp [Token.lex, hread, hclose]

end TensorRecipe
