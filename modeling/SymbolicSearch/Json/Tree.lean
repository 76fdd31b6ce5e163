/-
JSON values as trees, and the tokens they are made of. Objects keep their
members as written, repeated keys and all: what a repeated key means is
for the reader of a record to say.

A tree is read from its tokens with a stack of the arrays and objects
that are still open, one step for each token, so every text is read in
one pass and the reader stops with its text.
-/
import SymbolicSearch.Json.Token

namespace SymbolicSearch

/-- A JSON value. A string or a key without a text is `none`. -/
inductive Json
  | null
  | bool (b : Bool)
  | number (n : Json.Numeral)
  | string (s : Option String)
  | array (items : List Json)
  | object (members : List (Option String × Json))

namespace Json

instance : Inhabited Json := ⟨.null⟩

def str (s : String) : Json := .string (some s)

def nat (n : Nat) : Json := .number (.ofNat n)

def int (i : Int) : Json := .number (.ofInt i)

/-- An object with the given members. -/
def obj (members : List (String × Json)) : Json :=
  .object (members.map fun m => (some m.1, m.2))

-- ============================================== writing

mutual

/-- The tokens of a value. -/
def tokens : Json → List Token
  | .null => [.null]
  | .bool b => [.bool b]
  | .number n => [.number n]
  | .string s => [.string s]
  | .array items => .openBracket :: itemTokens items ++ [.closeBracket]
  | .object members => .openBrace :: memberTokens members ++ [.closeBrace]

/-- The tokens of an array's items, a comma between each two. -/
def itemTokens : List Json → List Token
  | [] => []
  | [v] => v.tokens
  | v :: rest => v.tokens ++ .comma :: itemTokens rest

/-- The tokens of an object's members, a comma between each two. -/
def memberTokens : List (Option String × Json) → List Token
  | [] => []
  | [(k, v)] => .string k :: .colon :: v.tokens
  | (k, v) :: rest => .string k :: .colon :: v.tokens ++ .comma :: memberTokens rest

end

/-- The compact text of a value: its tokens with nothing between. -/
def chars (v : Json) : List Char := v.tokens.flatMap Token.chars

def text (v : Json) : String := String.ofList v.chars

-- ============================================== reading

/-- An array or object still open, with what it holds so far, latest
first; an object also with the key whose value is to come. -/
inductive Frame
  | array (items : List Json)
  | object (members : List (Option String × Json)) (key : Option String)

/-- What may come next. -/
inductive Want
  | value
  /-- The first item of an array, or its end. -/
  | itemOrEnd
  /-- The first key of an object with no members, or its end. -/
  | keyOrEnd
  /-- A further key of an object with these members. -/
  | key (members : List (Option String × Json))
  /-- The colon after a key. -/
  | colon (members : List (Option String × Json)) (key : Option String)
  /-- A comma or the end of the innermost array or object, whose last
  value is the given one. -/
  | more (v : Json)

/-- A text half read. -/
structure Reading where
  frames : List Frame
  want : Want

namespace Reading

def start : Reading := ⟨[], .value⟩

/-- A value begins, and perhaps ends, with this token. -/
def value (frames : List Frame) : Token → Option Reading
  | .null => some ⟨frames, .more .null⟩
  | .bool b => some ⟨frames, .more (.bool b)⟩
  | .number n => some ⟨frames, .more (.number n)⟩
  | .string s => some ⟨frames, .more (.string s)⟩
  | .openBracket => some ⟨.array [] :: frames, .itemOrEnd⟩
  | .openBrace => some ⟨frames, .keyOrEnd⟩
  | _ => none

/-- One token more. -/
def step (r : Reading) (t : Token) : Option Reading :=
  match r.want with
  | .value => value r.frames t
  | .itemOrEnd =>
    match t, r.frames with
    | .closeBracket, .array items :: rest => some ⟨rest, .more (.array items.reverse)⟩
    | _, frames => value frames t
  | .keyOrEnd =>
    match t with
    | .closeBrace => some ⟨r.frames, .more (.object [])⟩
    | .string k => some ⟨r.frames, .colon [] k⟩
    | _ => none
  | .key members =>
    match t with
    | .string k => some ⟨r.frames, .colon members k⟩
    | _ => none
  | .colon members k =>
    match t with
    | .colon => some ⟨.object members k :: r.frames, .value⟩
    | _ => none
  | .more v =>
    match t, r.frames with
    | .comma, .array items :: rest => some ⟨.array (v :: items) :: rest, .value⟩
    | .closeBracket, .array items :: rest => some ⟨rest, .more (.array (v :: items).reverse)⟩
    | .comma, .object members k :: rest => some ⟨rest, .key ((k, v) :: members)⟩
    | .closeBrace, .object members k :: rest =>
      some ⟨rest, .more (.object ((k, v) :: members).reverse)⟩
    | _, _ => none

/-- The value, if the text may end here. -/
def finish? (r : Reading) : Option Json :=
  match r.want, r.frames with
  | .more v, [] => some v
  | _, _ => none

end Reading

/-- The value with these tokens. -/
def ofTokens? (l : List Token) : Option Json := do
  (← l.foldlM Reading.step Reading.start).finish?

/-- The value that a text writes. -/
def parse? (text : List Char) : Option Json := do ofTokens? (← tokens? text)

-- ============================================== soundness

mutual

/-- Every string in the value has a text, and every number can be read. -/
def isSound : Json → Bool
  | .null => true
  | .bool _ => true
  | .number n => n.isReadable
  | .string s => s.isSome
  | .array items => areSound items
  | .object members => membersAreSound members

def areSound : List Json → Bool
  | [] => true
  | v :: rest => v.isSound && areSound rest

def membersAreSound : List (Option String × Json) → Bool
  | [] => true
  | (k, v) :: rest => k.isSome && v.isSound && membersAreSound rest

end

-- ============================================== nesting

mutual

/-- How many arrays and objects stand within one another. -/
def depth : Json → Nat
  | .array items => itemDepth items + 1
  | .object members => memberDepth members + 1
  | _ => 0

/-- The greatest depth of an array's items. -/
def itemDepth : List Json → Nat
  | [] => 0
  | v :: rest => max v.depth (itemDepth rest)

/-- The greatest depth of an object's values. -/
def memberDepth : List (Option String × Json) → Nat
  | [] => 0
  | (_, v) :: rest => max v.depth (memberDepth rest)

end

end Json

end SymbolicSearch
