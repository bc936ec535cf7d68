import Recognizer.Text.Unprintable

/-!
# Escaped text

How a character is shown inside a listing or between quotes: the usual control characters have a
letter, a backslash and a double quote are preceded by a backslash, and any other character that
would not be seen is given by its code point in hexadecimal.

## Main definitions

* `escaped c`: the text that shows `c`.
* `quoted s`: the text of `s` between double quotes.
-/

namespace Recognizer.Text

/-- The number in hexadecimal, in lower case and without leading zeros. -/
def hexadecimal (n : Nat) : String := String.ofList (Nat.toDigits 16 n)

/-- The text that shows a character between double quotes. -/
def escaped (c : Char) : String :=
  match c with
  | '\x00' => "\\0"
  | '\t' => "\\t"
  | '\n' => "\\n"
  | '\r' => "\\r"
  | '\\' => "\\\\"
  | '\x22' => "\\\""
  | c => if Unprintable c then "\\u\x7b" ++ hexadecimal c.toNat ++ "\x7d" else c.toString

/-- The text between double quotes, its characters escaped. -/
def quoted (s : String) : String := "\"" ++ String.join (s.toList.map escaped) ++ "\""

end Recognizer.Text
