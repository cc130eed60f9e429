import Transducer.Text.Hidden

/-!
# Quoted text

Texts that messages cite stand between double quotes. A quote and a backslash are escaped by a
backslash, the usual controls by their letter, and any other hidden character by the number of its
code point in braces; every other character stands for itself.
-/

namespace Transducer.Text

/-- The characters that write one character inside quotes. -/
def escape (c : Char) : List Char :=
  match c with
  | '"' => ['\\', '"']
  | '\\' => ['\\', '\\']
  | '\n' => ['\\', 'n']
  | '\r' => ['\\', 'r']
  | '\t' => ['\\', 't']
  | '\x00' => ['\\', '0']
  | c =>
    if isHidden c then
      ['\\', 'u', '\x7b'] ++ Nat.toDigits 16 c.toNat ++ ['\x7d']
    else
      [c]

/-- The text between double quotes, with its special characters escaped. -/
def quoted (s : String) : String :=
  String.ofList ('"' :: s.toList.flatMap escape ++ ['"'])

end Transducer.Text
