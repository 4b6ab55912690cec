import ClassWeave.Text.Hex
import ClassWeave.Text.Printable

/-!
# Quoted text

Text between double quotes, in one line: a quote or a backslash inside it is marked by a backslash,
four control characters have a letter, and any other character without a form of its own is written
as its code point.
-/

namespace ClassWeave.Quoted

/-- A character as its code point. -/
def codePoint (c : Char) : String := "\\u\x7b" ++ Hex.ofNat c.toNat ++ "\x7d"

/-- A character between quotes. -/
def escape (c : Char) : String :=
  match c with
  | '\x00' => "\\0"
  | '\t' => "\\t"
  | '\r' => "\\r"
  | '\n' => "\\n"
  | '"' => "\\\""
  | '\\' => "\\\\"
  | _ => if Printable.isPlain c then String.singleton c else codePoint c

/-- A text between quotes. -/
def encode (s : String) : String :=
  "\"" ++ String.join (s.toList.map escape) ++ "\""

end ClassWeave.Quoted
