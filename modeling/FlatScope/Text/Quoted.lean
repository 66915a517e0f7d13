import FlatScope.Text.Printable

/-!
# Quoted text

`quoted` writes a text between double quotes so that it stands on one line: printable characters
as they are, quotes and backslashes behind a backslash, NUL, tab and line ends by a letter, and all
others by their code point as `\u{hex}`.
-/

namespace FlatScope.Text

/-- The hexadecimal digits of a number, lower case. -/
def hex (n : Nat) : List Char := Nat.toDigits 16 n

def quotedChar (c : Char) : List Char :=
  match c with
  | '\x00' => ['\\', '0']
  | '\t' => ['\\', 't']
  | '\r' => ['\\', 'r']
  | '\n' => ['\\', 'n']
  | '"' => ['\\', '"']
  | '\\' => ['\\', '\\']
  | _ => if isPrintable c then [c] else ['\\', 'u', '\x7b'] ++ hex c.toNat ++ ['\x7d']

def quoted (text : String) : String :=
  String.ofList ('"' :: text.toList.flatMap quotedChar ++ ['"'])

end FlatScope.Text
