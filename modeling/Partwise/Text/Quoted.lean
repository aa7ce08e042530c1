import Partwise.Text.Printable

/-!
# Text · Quoted: a text between double quotes, every character of it visible

A quotation stands between double quotes. A quote or a backslash inside it is escaped by a
backslash, tab, line feed, carriage return and null have letters, and any other character that is
not printable is written by its number in base sixteen.
-/

namespace Partwise.Text

/-- The digits of a number in base sixteen, lower case. -/
def hexDigits (n : Nat) : String :=
  String.ofList (Nat.toDigits 16 n)

/-- How a quotation writes one character. -/
def quotedChar (c : Char) : String :=
  match c with
  | '"' => "\\\""
  | '\\' => "\\\\"
  | '\t' => "\\t"
  | '\n' => "\\n"
  | '\r' => "\\r"
  | '\x00' => "\\0"
  | c => if isPrintable c then c.toString else "\\u\x7b" ++ hexDigits c.toNat ++ "\x7d"

/-- The text as a quotation. -/
def quoted (s : String) : String :=
  "\"" ++ String.join (s.toList.map quotedChar) ++ "\""

end Partwise.Text
