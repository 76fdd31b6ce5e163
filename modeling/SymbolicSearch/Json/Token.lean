/-
The tokens of a JSON text: how each is written, and how a text is cut
into them.

The cut is one pass over the characters with a small state, the token
being read (`Mode`). Blanks between tokens leave no trace, so two texts
that differ only in those have the same tokens. A string whose escapes
name half of a surrogate pair has no text; such a token is kept as
`string none`, since it does no harm in a place that is passed over.
-/
import SymbolicSearch.Json.Numeral

namespace SymbolicSearch.Json

/-- A token of a JSON text. -/
inductive Token
  | openBrace
  | closeBrace
  | openBracket
  | closeBracket
  | colon
  | comma
  | null
  | bool (b : Bool)
  | number (n : Numeral)
  | string (s : Option String)
deriving DecidableEq

-- ============================================== characters

def digit? (c : Char) : Option Nat :=
  if c.isDigit then some (c.toNat - '0'.toNat) else none

def hexDigit? (c : Char) : Option Nat :=
  if c.isDigit then some (c.toNat - '0'.toNat)
  else if 'a' ≤ c ∧ c ≤ 'f' then some (c.toNat - 'a'.toNat + 10)
  else if 'A' ≤ c ∧ c ≤ 'F' then some (c.toNat - 'A'.toNat + 10)
  else none

/-- A blank that may stand between tokens. -/
def isGap (c : Char) : Bool := c = ' ' || c = '\t' || c = '\n' || c = '\r'

/-- The character that a one-letter escape names. -/
def namedEscape? (c : Char) : Option Char :=
  if c = '"' || c = '\\' || c = '/' then some c
  else if c = 'b' then some '\x08'
  else if c = 'f' then some '\x0c'
  else if c = 'n' then some '\n'
  else if c = 'r' then some '\r'
  else if c = 't' then some '\t'
  else none

/-- The text of a string from its code units: an escape may give half of
a surrogate pair, and then the next unit has to be the other half. -/
def assemble : List Nat → Option (List Char)
  | [] => some []
  | hi :: rest =>
    if 0xD800 ≤ hi ∧ hi < 0xDC00 then
      match rest with
      | [] => none
      | lo :: rest =>
        if 0xDC00 ≤ lo ∧ lo < 0xE000 then
          (assemble rest).map
            (Char.ofNat (0x10000 + (hi - 0xD800) * 0x400 + (lo - 0xDC00)) :: ·)
        else none
    else if 0xDC00 ≤ hi ∧ hi < 0xE000 then none
    else (assemble rest).map (Char.ofNat hi :: ·)

-- ============================================== the cut

/-- Which part of a number was read last. -/
inductive Part
  | sign
  | zero
  | whole
  | point
  | fraction
  | mark
  | markSign (negative : Bool)
  | exponent (negative : Bool)
deriving DecidableEq

/-- A number may end after this part. -/
def Part.isEnd : Part → Bool
  | .zero | .whole | .fraction | .exponent _ => true
  | _ => false

/-- The number so far with one digit more, if a digit may stand there. -/
def Part.takeDigit (n : Numeral) (d : Nat) : Part → Option (Numeral × Part)
  | .sign => some ({ n with whole := d }, if d = 0 then .zero else .whole)
  | .zero => none
  | .whole => some ({ n with whole := n.whole * 10 + d }, .whole)
  | .point | .fraction => some ({ n with fraction := some (n.fraction.getD [] ++ [d]) }, .fraction)
  | .mark => some ({ n with exponent := some d }, .exponent false)
  | .markSign s => some ({ n with exponent := some (if s then -d else d) }, .exponent s)
  | .exponent s =>
    let e := n.exponent.getD 0 * 10
    some ({ n with exponent := some (if s then e - d else e + d) }, .exponent s)

/-- The number so far with one character more, if it goes on with it. -/
def Part.take (n : Numeral) (c : Char) (p : Part) : Option (Numeral × Part) :=
  match digit? c with
  | some d => p.takeDigit n d
  | none =>
    match p with
    | .zero | .whole =>
      if c = '.' then some (n, .point)
      else if c = 'e' || c = 'E' then some (n, .mark)
      else none
    | .fraction => if c = 'e' || c = 'E' then some (n, .mark) else none
    | .mark =>
      if c = '-' then some (n, .markSign true)
      else if c = '+' then some (n, .markSign false)
      else none
    | _ => none

/-- What is being read. The units of a string stand latest first. -/
inductive Mode
  | between
  /-- The rest of a word, and the token that it spells. -/
  | word (rest : List Char) (token : Token)
  | number (n : Numeral) (p : Part)
  | string (units : List Nat)
  | escape (units : List Nat)
  /-- The digits of a numbered escape, by how many are to come. -/
  | hex (units : List Nat) (missing : Nat) (value : Nat)
deriving DecidableEq

/-- The tokens read so far, latest first, and what is being read. -/
structure Cut where
  tokens : List Token
  mode : Mode
deriving DecidableEq

namespace Cut

def start : Cut := ⟨[], .between⟩

/-- A token is complete. -/
def emit (tokens : List Token) (t : Token) : Cut := ⟨t :: tokens, .between⟩

/-- A character that begins a token, or stands between two. -/
def begin (tokens : List Token) (c : Char) : Option Cut :=
  if isGap c then some ⟨tokens, .between⟩
  else if c = '\x7b' then some (emit tokens .openBrace)
  else if c = '\x7d' then some (emit tokens .closeBrace)
  else if c = '[' then some (emit tokens .openBracket)
  else if c = ']' then some (emit tokens .closeBracket)
  else if c = ':' then some (emit tokens .colon)
  else if c = ',' then some (emit tokens .comma)
  else if c = '"' then some ⟨tokens, .string []⟩
  else if c = 'n' then some ⟨tokens, .word ['u', 'l', 'l'] .null⟩
  else if c = 't' then some ⟨tokens, .word ['r', 'u', 'e'] (.bool true)⟩
  else if c = 'f' then some ⟨tokens, .word ['a', 'l', 's', 'e'] (.bool false)⟩
  else if c = '-' then some ⟨tokens, .number ⟨true, 0, none, none⟩ .sign⟩
  else
    (Part.sign.take ⟨false, 0, none, none⟩ c).map fun r => ⟨tokens, .number r.1 r.2⟩

/-- The token of a string from its units, latest first. -/
def stringToken (units : List Nat) : Token :=
  .string ((assemble units.reverse).map String.ofList)

/-- One character more. -/
def step (s : Cut) (c : Char) : Option Cut :=
  match s.mode with
  | .between => begin s.tokens c
  | .word [] _ => none
  | .word (x :: rest) t =>
    if c ≠ x then none
    else if rest.isEmpty then some (emit s.tokens t)
    else some ⟨s.tokens, .word rest t⟩
  | .number n p =>
    match p.take n c with
    | some r => some ⟨s.tokens, .number r.1 r.2⟩
    | none => if p.isEnd then begin (.number n :: s.tokens) c else none
  | .string units =>
    if c = '"' then some (emit s.tokens (stringToken units))
    else if c = '\\' then some ⟨s.tokens, .escape units⟩
    else if c.toNat < 0x20 then none
    else some ⟨s.tokens, .string (c.toNat :: units)⟩
  | .escape units =>
    if c = 'u' then some ⟨s.tokens, .hex units 3 0⟩
    else (namedEscape? c).map fun x => ⟨s.tokens, .string (x.toNat :: units)⟩
  | .hex units missing value =>
    (hexDigit? c).map fun d =>
      match missing with
      | 0 => ⟨s.tokens, .string ((value * 16 + d) :: units)⟩
      | k + 1 => ⟨s.tokens, .hex units k (value * 16 + d)⟩

/-- The tokens, if the text may end here. -/
def finish? (s : Cut) : Option (List Token) :=
  match s.mode with
  | .between => some s.tokens.reverse
  | .number n p => if p.isEnd then some (Token.number n :: s.tokens).reverse else none
  | _ => none

end Cut

/-- The tokens of a text. -/
def tokens? (text : List Char) : Option (List Token) := do
  (← text.foldlM Cut.step Cut.start).finish?

-- ============================================== writing

/-- How a character is written inside a string: as itself, but for the
quote, the backslash and the control characters. -/
def escaped (c : Char) : List Char :=
  if c = '"' || c = '\\' then ['\\', c]
  else if c = '\x08' then ['\\', 'b']
  else if c = '\x0c' then ['\\', 'f']
  else if c = '\n' then ['\\', 'n']
  else if c = '\r' then ['\\', 'r']
  else if c = '\t' then ['\\', 't']
  else if c.toNat < 0x20 then
    ['\\', 'u', '0', '0', Nat.digitChar (c.toNat / 16), Nat.digitChar (c.toNat % 16)]
  else [c]

def Numeral.chars (n : Numeral) : List Char :=
  (if n.negative then ['-'] else []) ++ Nat.toDigits 10 n.whole ++
    (match n.fraction with
      | some ds => '.' :: ds.map Nat.digitChar
      | none => []) ++
    (match n.exponent with
      | some e => 'e' :: (if e < 0 then ['-'] else []) ++ Nat.toDigits 10 e.natAbs
      | none => [])

/-- How a token is written. A string without a text is written empty. -/
def Token.chars : Token → List Char
  | .openBrace => ['\x7b']
  | .closeBrace => ['\x7d']
  | .openBracket => ['[']
  | .closeBracket => [']']
  | .colon => [':']
  | .comma => [',']
  | .null => ['n', 'u', 'l', 'l']
  | .bool true => ['t', 'r', 'u', 'e']
  | .bool false => ['f', 'a', 'l', 's', 'e']
  | .number n => n.chars
  | .string s => ('"' :: (s.getD "").toList.flatMap escaped) ++ ['"']

end SymbolicSearch.Json
