import TensorRecipe.Json.Lexer

/-!
# JSON values

A `Json` value keeps what its text says: numbers as they are written, and the members of an object
in order, repetitions included.  `Json.tokens` lists the tokens of a value, `Json.write` writes them
without white space, and `Json.read?` reads any text of a value.

The reader takes one token at a time; `Frame`s are the arrays and objects it is inside of.
-/

namespace TensorRecipe

/-- A JSON value.  Text is absent where it names half of a surrogate pair alone. -/
inductive Json where
  | null
  | bool (value : Bool)
  | num (value : Numeral)
  | str (value : Option String)
  | arr (items : List Json)
  | obj (members : List (Option String × Json))

namespace Json

/-- The value of a text. -/
def text (s : String) : Json := .str (some s)

/-- The value of a natural number. -/
def nat (n : Nat) : Json := .num (.ofNat n)

/-- The object with the given members. -/
def object (members : List (String × Json)) : Json :=
  .obj (members.map fun (key, value) => (some key, value))

/-! ### Writing -/

mutual

/-- The tokens of a value. -/
def tokens : Json → List Token
  | .null => [.null]
  | .bool value => [.bool value]
  | .num value => [.num value]
  | .str value => [.str value]
  | .arr items => .openArray :: itemTokens items ++ [.closeArray]
  | .obj members => .openObject :: memberTokens members ++ [.closeObject]

/-- The tokens of the items of an array, with commas between them. -/
def itemTokens : List Json → List Token
  | [] => []
  | [item] => item.tokens
  | item :: items => item.tokens ++ .comma :: itemTokens items

/-- The tokens of the members of an object, with commas between them. -/
def memberTokens : List (Option String × Json) → List Token
  | [] => []
  | [(key, value)] => .str key :: .colon :: value.tokens
  | (key, value) :: members => .str key :: .colon :: value.tokens ++ .comma :: memberTokens members

end

/-- The text of a value, without white space. -/
def write (json : Json) : String := String.ofList (json.tokens.flatMap Token.chars)

/-! ### Reading -/

/-- An array or an object that is being read, with what it holds so far from the newest. -/
inductive Frame where
  | array (before : List Json)
  | object (before : List (Option String × Json)) (key : Option String)

/-- What the reader expects next, inside which frames, from the innermost. -/
inductive Reader where
  /-- A value. -/
  | value (outer : List Frame)
  /-- The first item of an array, or its end. -/
  | item (outer : List Frame)
  /-- The first key of an object, or its end. -/
  | member (outer : List Frame)
  /-- A further key. -/
  | key (before : List (Option String × Json)) (outer : List Frame)
  /-- The colon after a key. -/
  | colon (before : List (Option String × Json)) (key : Option String) (outer : List Frame)
  /-- What follows a value. -/
  | after (json : Json) (outer : List Frame)

namespace Reader

/-- Begin a value. -/
def start (outer : List Frame) : Token → Option Reader
  | .null => some (.after .null outer)
  | .bool b => some (.after (.bool b) outer)
  | .num n => some (.after (.num n) outer)
  | .str s => some (.after (.str s) outer)
  | .openArray => some (.item outer)
  | .openObject => some (.member outer)
  | _ => none

/-- Take one more token. -/
def step : Reader → Token → Option Reader
  | .value outer, token => start outer token
  | .item outer, .closeArray => some (.after (.arr []) outer)
  | .item outer, token => start (.array [] :: outer) token
  | .member outer, .closeObject => some (.after (.obj []) outer)
  | .member outer, .str name => some (.colon [] name outer)
  | .key before outer, .str name => some (.colon before name outer)
  | .colon before name outer, .colon => some (.value (.object before name :: outer))
  | .after json (.array before :: outer), .comma =>
    some (.value (.array (json :: before) :: outer))
  | .after json (.array before :: outer), .closeArray =>
    some (.after (.arr (json :: before).reverse) outer)
  | .after json (.object before name :: outer), .comma =>
    some (.key ((name, json) :: before) outer)
  | .after json (.object before name :: outer), .closeObject =>
    some (.after (.obj ((name, json) :: before).reverse) outer)
  | _, _ => none

/-- The value that was read, if it is whole. -/
def result? : Reader → Option Json
  | .after json [] => some json
  | _ => none

end Reader

/-- The value that the tokens spell. -/
def ofTokens? (tokens : List Token) : Option Json := do
  let reader ← tokens.foldlM Reader.step (.value [])
  reader.result?

/-- The value of a text. -/
def read? (text : String) : Option Json := do
  let tokens ← Token.lex text.toList
  ofTokens? tokens

end Json

end TensorRecipe
