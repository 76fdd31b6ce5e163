/-
A text as it is quoted in an error message: between double quotes, with
a backslash before a quote or a backslash, short names for the five
commonest control characters, and the number of every other character
that would not show.
-/
import SymbolicSearch.Text.Hidden

namespace SymbolicSearch.Text

/-- The characters that stand for one character inside quotes. -/
def shown (c : Char) : List Char :=
  if c = '\x00' then ['\\', '0']
  else if c = '\t' then ['\\', 't']
  else if c = '\r' then ['\\', 'r']
  else if c = '\n' then ['\\', 'n']
  else if c = '\\' || c = '"' then ['\\', c]
  else if isHidden c then ['\\', 'u', '\x7b'] ++ Nat.toDigits 16 c.toNat ++ ['\x7d']
  else [c]

def quoted (s : String) : String :=
  String.ofList (('"' :: s.toList.flatMap shown) ++ ['"'])

end SymbolicSearch.Text
