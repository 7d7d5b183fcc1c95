import TensorRecipe.Json.Token

/-!
# Reading tokens

The lexer takes a text one character at a time.  `Lexer.step` is one such move, and `Token.lex`
folds it over the text.  Words and numbers end at the first character that cannot belong to them.
-/

namespace TensorRecipe

/-- A part of quoted text: a character, or a code unit of sixteen bits written in hexadecimal. -/
inductive QuotedPart where
  | char (c : Char)
  | unit (value : Nat)
deriving DecidableEq

namespace QuotedPart

/-- The first code unit of a pair. -/
def isHigh (n : Nat) : Bool := 0xD800 ≤ n && n < 0xDC00

/-- The second code unit of a pair. -/
def isLow (n : Nat) : Bool := 0xDC00 ≤ n && n < 0xE000

/-- The character that a pair of code units names. -/
def pair (high low : Nat) : Char := Char.ofNat (0x10000 + (high - 0xD800) * 0x400 + (low - 0xDC00))

/-- The characters that the parts spell, if every unit of a pair has its partner. -/
def decode? : List QuotedPart → Option (List Char)
  | [] => some []
  | char c :: parts => (decode? parts).map (c :: ·)
  | unit high :: unit low :: parts =>
    if isHigh high && isLow low then (decode? parts).map (pair high low :: ·)
    else if isHigh high || isLow high then none
    else (decode? (unit low :: parts)).map (Char.ofNat high :: ·)
  | unit n :: parts =>
    if isHigh n || isLow n then none else (decode? parts).map (Char.ofNat n :: ·)

/-- The text that the parts spell. -/
def text? (parts : List QuotedPart) : Option String := (decode? parts).map String.ofList

end QuotedPart

/-- What the lexer is in the middle of.  Parts read so far are listed from the newest. -/
inductive LexerMode where
  | between
  | word (letters : List Char)
  | number (chars : List Char)
  | quoted (parts : List QuotedPart)
  | escaped (parts : List QuotedPart)
  | hex (parts : List QuotedPart) (value : Nat) (missing : Nat)

/-- The lexer part way through a text, with the tokens read so far from the newest. -/
structure Lexer where
  mode : LexerMode
  tokens : List Token

namespace Lexer

/-- The white space of JSON. -/
def isBlank (c : Char) : Bool := c = ' ' || c = '\n' || c = '\r' || c = '\t'

/-- The characters that numerals are made of. -/
def isNumeral (c : Char) : Bool :=
  (Digit.ofChar? c).isSome || c = '-' || c = '+' || c = '.' || c = 'e' || c = 'E'

/-- The letters that words are made of. -/
def isLetter (c : Char) : Bool := 'a' ≤ c && c ≤ 'z'

/-- The character that a letter after a backslash stands for. -/
def unescape? (c : Char) : Option Char :=
  if c = '"' then some '"'
  else if c = '\\' then some '\\'
  else if c = '/' then some '/'
  else if c = 'b' then some (Char.ofNat 8)
  else if c = 't' then some (Char.ofNat 9)
  else if c = 'n' then some (Char.ofNat 10)
  else if c = 'f' then some (Char.ofNat 12)
  else if c = 'r' then some (Char.ofNat 13)
  else none

/-- The value of a hexadecimal digit of either case. -/
def hexValue? (c : Char) : Option Nat :=
  if '0' ≤ c && c ≤ '9' then some (c.toNat - 48)
  else if 'a' ≤ c && c ≤ 'f' then some (c.toNat - 87)
  else if 'A' ≤ c && c ≤ 'F' then some (c.toNat - 55)
  else none

/-- Begin with a character that belongs to no token so far. -/
def start (tokens : List Token) (c : Char) : Option Lexer :=
  if isBlank c then some ⟨.between, tokens⟩
  else if c = '"' then some ⟨.quoted [], tokens⟩
  else if c = '-' ∨ (Digit.ofChar? c).isSome then some ⟨.number [c], tokens⟩
  else if isLetter c then some ⟨.word [c], tokens⟩
  else (Token.ofMark? c).map fun token => ⟨.between, token :: tokens⟩

/-- The tokens once no more characters come; quoted text must have ended. -/
def close (lexer : Lexer) : Option (List Token) :=
  match lexer.mode with
  | .between => some lexer.tokens
  | .word letters => (Token.ofWord? letters.reverse).map (· :: lexer.tokens)
  | .number chars => (Numeral.ofChars? chars.reverse).map fun n => .num n :: lexer.tokens
  | .quoted _ => none
  | .escaped _ => none
  | .hex _ _ _ => none

/-- Take one more character. -/
def step (lexer : Lexer) (c : Char) : Option Lexer :=
  match lexer.mode with
  | .between => start lexer.tokens c
  | .word letters =>
    if isLetter c then some { lexer with mode := .word (c :: letters) }
    else lexer.close.bind (start · c)
  | .number chars =>
    if isNumeral c then some { lexer with mode := .number (c :: chars) }
    else lexer.close.bind (start · c)
  | .quoted parts =>
    if c = '"' then some ⟨.between, .str (QuotedPart.text? parts.reverse) :: lexer.tokens⟩
    else if c = '\\' then some { lexer with mode := .escaped parts }
    else if c.toNat < 32 then none
    else some { lexer with mode := .quoted (.char c :: parts) }
  | .escaped parts =>
    if c = 'u' then some { lexer with mode := .hex parts 0 3 }
    else (unescape? c).map fun d => { lexer with mode := .quoted (.char d :: parts) }
  | .hex parts value missing =>
    (hexValue? c).map fun d =>
      match missing with
      | 0 => { lexer with mode := .quoted (.unit (16 * value + d) :: parts) }
      | missing + 1 => { lexer with mode := .hex parts (16 * value + d) missing }

end Lexer

namespace Token

/-- The tokens of a text. -/
def lex (text : List Char) : Option (List Token) := do
  let lexer ← text.foldlM Lexer.step ⟨.between, []⟩
  let tokens ← lexer.close
  return tokens.reverse

end Token

end TensorRecipe
