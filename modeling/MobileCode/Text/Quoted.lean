import MobileCode.Text.CodePoints

/-! # Quoted texts

A text is displayed between double quotes. Quotes, backslashes and the usual controls get their
short escapes; every other character that would not show by itself is written by its code point.
-/
namespace MobileCode.Text

def hexText (n : Nat) : List Char := Nat.toDigits 16 n

def showsItself (c : Char) : Bool :=
  if c.toNat < 127 then 32 ≤ c.toNat
  else !extending.contains c && !unprintable.contains c

def quoteChar (c : Char) : List Char :=
  match c with
  | '"' => ['\\', '"']
  | '\\' => ['\\', '\\']
  | '\n' => ['\\', 'n']
  | '\r' => ['\\', 'r']
  | '\t' => ['\\', 't']
  | '\x00' => ['\\', '0']
  | c => if showsItself c then [c] else ['\\', 'u', '\x7b'] ++ hexText c.toNat ++ ['\x7d']

def quoted (text : String) : String :=
  String.ofList ('"' :: text.toList.flatMap quoteChar ++ ['"'])

end MobileCode.Text
