/-
Codecs: how values of a type are written as JSON values, and read back.
A codec for a structure is put together from the codecs of its fields, so
what holds of writing and reading is shown once for each way of putting
together and not for each structure.

Reading is freer than writing. The members of a record may come in any
order and with others between them, which are passed over; a record may
also be an array of its fields in order. Not allowed is a known member
given twice, or left out unless its field says what then stands there.
-/
import SymbolicSearch.IdSet
import SymbolicSearch.Json.Tree

namespace SymbolicSearch.Json

/-- How values of a type are written and read. -/
structure Codec (α : Type) where
  encode : α → Json
  decode? : Json → Option α

-- ============================================== single values

namespace Codec

variable {α β : Type}

/-- A natural number below a bound. -/
def natBelow (bound : Nat) : Codec Nat where
  encode := .nat
  decode?
    | .number n => n.nat? bound
    | _ => none

/-- A natural number of 32 bits. -/
def nat32 : Codec Nat := natBelow UInt32.size

/-- A natural number of 64 bits. -/
def nat64 : Codec Nat := natBelow UInt64.size

/-- A signed integer of 64 bits. -/
def int64 : Codec Int where
  encode := .int
  decode?
    | .number n => n.int?
    | _ => none

def bool : Codec Bool where
  encode := .bool
  decode?
    | .bool b => some b
    | _ => none

def string : Codec String where
  encode := .str
  decode?
    | .string s => s
    | _ => none

/-- A value or null. -/
def option (c : Codec α) : Codec (Option α) where
  encode
    | some a => c.encode a
    | none => .null
  decode?
    | .null => some none
    | j => (c.decode? j).map some

def list (c : Codec α) : Codec (List α) where
  encode l := .array (l.map c.encode)
  decode?
    | .array items => items.mapM c.decode?
    | _ => none

/-- A value by way of another type with the same content. -/
def via (c : Codec α) (out : β → α) (back : α → β) : Codec β where
  encode b := c.encode (out b)
  decode? j := (c.decode? j).map back

/-- A set of numbers as the list of its members; on reading, order and
repetition do not matter. -/
def idSet (c : Codec Nat) : Codec IdSet := (list c).via IdSet.toList IdSet.ofList

-- ============================================== choices

/-- One of several named values: its name, on reading also an object with
the name for its one key and null for its value. -/
def choice [DecidableEq α] (names : List (α × String)) : Codec α where
  encode a := .str ((names.lookup a).getD "")
  decode?
    | .string (some s) => (names.find? (·.2 = s)).map Prod.fst
    | .object [(some s, .null)] => (names.find? (·.2 = s)).map Prod.fst
    | _ => none

end Codec

/-- The one member of an object that has no other. -/
def only? : Json → Option (String × Json)
  | .object [(some k, v)] => some (k, v)
  | _ => none

-- ============================================== records

/-- The value of a member in an object: absent, present, or, if the key
comes twice, not to be had. -/
def slot? (members : List (Option String × Json)) (name : String) : Option (Option Json) :=
  match members.filter (·.1 = some name) with
  | [] => some none
  | [m] => some (some m.2)
  | _ => none

/-- The values of named members of a record, in the order of the names:
of an object by its keys, of an array by position. An array has to have
all fields, unless it may be `short`. -/
def slots? (names : List String) (short : Bool) : Json → Option (List (Option Json))
  | .object members =>
    if members.all (·.1.isSome) then names.mapM (slot? members) else none
  | .array items =>
    if items.length = names.length || (short && items.length < names.length) then
      some (items.map some ++ List.replicate (names.length - items.length) none)
    else none
  | _ => none

/-- A field of a record: its name, how it is written, and what stands for
it where it is left out. -/
structure Field (α : Type) where
  name : String
  codec : Codec α
  absent : Option α

namespace Field

variable {α : Type}

/-- A field that has to be given. -/
def required (name : String) (c : Codec α) : Field α := ⟨name, c, none⟩

/-- A field that may be left out for a value of its own. -/
def orElse (name : String) (c : Codec α) (a : α) : Field α := ⟨name, c, some a⟩

/-- A field that is none where it is left out. -/
def optional (name : String) (c : Codec α) : Field (Option α) := ⟨name, c.option, some none⟩

def decode? (f : Field α) : Option Json → Option α
  | some j => f.codec.decode? j
  | none => f.absent

end Field

/-- The fields of a record, in writing order. -/
structure Fields (α : Type) where
  names : List String
  encode : α → List Json
  decode? : List (Option Json) → Option α

namespace Fields

variable {α β : Type}

def done : Fields Unit where
  names := []
  encode _ := []
  decode?
    | [] => some ()
    | _ => none

/-- A field in front of others. -/
def cons (f : Field α) (rest : Fields β) : Fields (α × β) where
  names := f.name :: rest.names
  encode v := f.codec.encode v.1 :: rest.encode v.2
  decode?
    | [] => none
    | s :: slots => do return (← f.decode? s, ← rest.decode? slots)

/-- A record written as an object. -/
def record (fs : Fields α) (short : Bool) : Codec α where
  encode v := .obj (fs.names.zip (fs.encode v))
  decode? j := do fs.decode? (← slots? fs.names short j)

/-- A record whose fields are all to be given. -/
def whole (fs : Fields α) : Codec α := fs.record false

end Fields

-- ============================================== tagged messages

/-- The name of a message, which is either plain or the key of null. -/
def tag? : Json → Option String
  | .string s => s
  | .object [(some s, .null)] => some s
  | _ => none

/-- How deep a text may nest that is kept for later. -/
def depthLimit : Nat := 127

/-- A body can be kept until its type is known if it is sound, and not
nested too deep with the message around it. -/
def canWait (body : Json) : Bool := body.isSound && body.depth < depthLimit

/-- The type and the body of a message. In an object they are under the
two given keys. There the type may be the key of null, and the body, if
it comes before its type, has to wait for it; a body that comes after is
read at once. In an array the type is a plain name and comes first. -/
def message? (typeKey bodyKey : String) : Json → Option (String × Json)
  | .object members =>
    if members.all (·.1.isSome) then do
      let type ← (← slot? members typeKey)
      let body ← (← slot? members bodyKey)
      let first := (members.find? fun m => m.1 = some typeKey || m.1 = some bodyKey).bind (·.1)
      if first = some typeKey || canWait body then return (← tag? type, body) else none
    else none
  | .array [.string (some type), body] => some (type, body)
  | _ => none

/-- A message of one type. -/
def Codec.message {α : Type} (typeKey bodyKey name : String) (c : Codec α) : Codec α where
  encode a := .obj [(typeKey, .str name), (bodyKey, c.encode a)]
  decode? j := do
    let (t, body) ← message? typeKey bodyKey j
    if t = name then c.decode? body else none

end SymbolicSearch.Json
