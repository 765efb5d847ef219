import Shortcode.Text.Printable

namespace Shortcode.Text

def hexDigits (n : Nat) : List Char := (Nat.toDigits 16 n)

/-- A tab, line break or NUL has a letter of its own; another character that is not shown as it is
gives its code point in hexadecimal. -/
def escape (c : Char) : List Char :=
  match c with
  | '"' => ['\\', '"']
  | '\\' => ['\\', '\\']
  | '\t' => ['\\', 't']
  | '\n' => ['\\', 'n']
  | '\r' => ['\\', 'r']
  | '\x00' => ['\\', '0']
  | c => if isPrintable c then [c] else '\\' :: 'u' :: '{' :: hexDigits c.toNat ++ ['}']

def quoted (s : String) : String := String.ofList ('"' :: s.toList.flatMap escape ++ ['"'])

end Shortcode.Text
