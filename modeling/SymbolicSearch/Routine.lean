/-
The control flow of one method, instruction by instruction, as a loader
hands it over. Targets are indices into the method's own code; a target
past the end is allowed and leads nowhere.
-/
import SymbolicSearch.Site

namespace SymbolicSearch

/-- How an instruction passes control on. -/
inductive InstrKind
  /-- Falls through to one successor. -/
  | plain
  | branch
  /-- Enters another method. -/
  | call
  /-- Raises an exception. -/
  | throw
  /-- Leaves the method. -/
  | leave
deriving DecidableEq

/-- One instruction: its kind, where control may go next, and where an
exception raised here may be caught. -/
structure Instr where
  kind : InstrKind
  targets : List Nat
  handlers : List Nat
deriving DecidableEq

/-- The code of one method. -/
structure Routine where
  method : MethodNo
  name : String
  code : List Instr
deriving DecidableEq

/-- Where methods come from: a loader knows a method, does not know it,
or fails for a reason of its own. -/
abbrev Loader := MethodNo → Except String (Option Routine)

namespace Routine

/-- A loader over the routines of a list, a later one in place of an
earlier one for the same method. -/
def loader (routines : List Routine) : Loader :=
  fun m => .ok (routines.reverse.find? fun r => r.method = m)

/-- The instruction at an index leaves its method: it returns or raises. -/
def leavesAt (r : Routine) (i : Nat) : Bool :=
  match r.code[i]? with
  | some ins => ins.kind = .leave || ins.kind = .throw
  | none => false

/-- The indices of all instructions that leave the method. -/
def exits (r : Routine) : List Nat :=
  (List.range r.code.length).filter r.leavesAt

/-- No straight run of code goes on past this index. Only a plain
instruction whose one successor is the next index lets a run go on. -/
def closesAt (r : Routine) (i : Nat) : Bool :=
  match r.code[i]? with
  | some ins => !(ins.kind = .plain && ins.targets = [i + 1])
  | none => true

end Routine

end SymbolicSearch
