/-
Dialogues: an oracle at the far end of a pair of byte streams. A report
is sent as one line of JSON; the answer is the first line that comes back
and is not blank. What comes back is kept as its lines, each with its
newline, so the next answer is found where the last one was left: a
blank line is passed over, any other line is spent on one answer, good
or bad, and if nothing could be sent no line is spent.
-/
import SymbolicSearch.Exchange.Game
import SymbolicSearch.Text.Blank

namespace SymbolicSearch

/-- How a dialogue can fail. -/
inductive Lapse
  /-- The report could not be written out. -/
  | notWritten
  /-- The end of the line could not be written out. -/
  | outletFull
  /-- What was written out could not be sent off. -/
  | notSent
  /-- A line that came back is no text. -/
  | notRead
  | closed
  /-- The line that came back is no answer. -/
  | malformed (reply : String)
deriving DecidableEq

def Lapse.message : Lapse → String
  | .notWritten => "failed to encode game state"
  | .outletFull => "writer full"
  | .notSent => "failed to send game state"
  | .notRead => "failed to read oracle reply"
  | .closed => "oracle closed the session"
  | .malformed reply => "malformed oracle reply: " ++ reply

-- ============================================== the way out

/-- Where lines are written: how many bytes it takes before it has to be
sent off, and whether sending off succeeds. Once it has refused to take
more, it takes nothing any more. -/
structure Outlet where
  capacity : Option Nat
  flushes : Bool
  jammed : Bool
deriving DecidableEq

namespace Outlet

/-- An outlet that takes and sends everything. -/
def free : Outlet := ⟨none, true, false⟩

/-- It takes a number of bytes at once. -/
def takes (o : Outlet) (bytes : Nat) : Bool := !o.jammed && o.capacity.all (bytes ≤ ·)

/-- Writes a text and a newline and sends them off. -/
def send (o : Outlet) (text : String) : Except Lapse Unit × Outlet :=
  if !o.takes text.utf8ByteSize then (.error .notWritten, { o with jammed := true })
  else if !o.takes (text.utf8ByteSize + 1) then (.error .outletFull, { o with jammed := true })
  else if !o.flushes then (.error .notSent, o)
  else (.ok (), o)

end Outlet

-- ============================================== the way in

/-- The byte that ends a line. -/
def newline : UInt8 := 10

/-- Puts a byte in front of the lines that follow it. -/
def addByte (b : UInt8) (lines : List (List UInt8)) : List (List UInt8) :=
  if b = newline then [b] :: lines
  else
    match lines with
    | [] => [[b]]
    | l :: rest => (b :: l) :: rest

/-- The lines of a stream, each with its newline; the last one may lack
it. -/
def linesOf (bytes : List UInt8) : List (List UInt8) := bytes.foldr addByte []

/-- The text that bytes encode. -/
def utf8? (bytes : List UInt8) : Option (List Char) :=
  (String.fromUTF8? ⟨bytes.toArray⟩).map String.toList

/-- The answer that a text gives. -/
def answerOf (text : List Char) : Except Lapse StateNo :=
  match (Json.parse? text).bind Exchange.answer.decode? with
  | some s => .ok s
  | none => .error (.malformed (String.ofList text))

/-- Reads lines up to the first one that is not blank: what it answers,
and the lines after it. -/
def nextAnswer : List (List UInt8) → Except Lapse StateNo × List (List UInt8)
  | [] => (.error .closed, [])
  | line :: rest =>
    match utf8? line with
    | none => (.error .notRead, rest)
    | some text =>
      if Text.trim text = [] then nextAnswer rest else (answerOf (Text.trim text), rest)

-- ============================================== both ways

/-- An oracle by its streams. -/
structure Dialogue where
  unread : List (List UInt8)
  outlet : Outlet
deriving DecidableEq

namespace Dialogue

/-- A dialogue in which these bytes will come back. -/
def ofBytes (bytes : List UInt8) (outlet : Outlet) : Dialogue := ⟨linesOf bytes, outlet⟩

/-- The number of bytes that have not been read. -/
def pending (d : Dialogue) : Nat := d.unread.flatten.length

/-- What one question came to: the text that went out, if any did, the
answer, and the dialogue afterwards. -/
structure Turn where
  sent : Option String
  answer : Except Lapse StateNo
  dialogue : Dialogue

/-- Tells the oracle a report and waits for its answer. -/
def ask (d : Dialogue) (r : Report) : Turn :=
  let text := (Exchange.request.encode r).text
  match d.outlet.send text with
  | (.error e, outlet) => ⟨none, .error e, { d with outlet := outlet }⟩
  | (.ok (), outlet) =>
    let (answer, rest) := nextAnswer d.unread
    ⟨some (text ++ "\n"), answer, ⟨rest, outlet⟩⟩

end Dialogue

end SymbolicSearch
