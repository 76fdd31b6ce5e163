/-
Places in a program under search. A site is an instruction of a method;
a statement is what an interpreter executes. Two kinds of statement are
made up by the interpreter: the entry of a method and a call carried out
concretely. Each stands for one instruction, and every question about a
statement is a question about the site it stands for.
-/
namespace SymbolicSearch

/-- The number of a method. -/
abbrev MethodNo := Nat

/-- An instruction, by its method and its index there. -/
structure Site where
  method : MethodNo
  index : Nat
deriving DecidableEq

/-- The short form of a method's number. -/
def methodName (m : MethodNo) : String := "m" ++ toString m

/-- The short form of a site: method and index, a colon between. -/
def Site.name (s : Site) : String := methodName s.method ++ ":" ++ toString s.index

/-- A statement of the interpreter. -/
inductive Stmt
  | instr (at_ : Site)
  | methodEntry (first : Site)
  | concreteCall (call : Site)
deriving DecidableEq

/-- The instruction that a statement stands for. -/
def Stmt.site : Stmt → Site
  | .instr s => s
  | .methodEntry s => s
  | .concreteCall s => s

end SymbolicSearch
