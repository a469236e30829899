/-
**Quoted text.**

* `shownChar`: how a character appears between the quotes. **The six characters with a short escape
  have it**, hidden characters appear by code point, and all others as themselves.
* `quoted`: a text in double quotes.

A quoted text has no line break inside: both line characters have a short escape, and every other
separator of lines is hidden.
-/

import ActionCode.Text.Hex
import ActionCode.Text.Printable

namespace ActionCode.Text

/-- How a character appears in quoted text. A single quote is not escaped. -/
def shownChar (char : Char) : String :=
  match char with
  | '\x00' => "\\0"
  | '\t' => "\\t"
  | '\n' => "\\n"
  | '\r' => "\\r"
  | '"' => "\\\""
  | '\\' => "\\\\"
  | _ => if isHidden char then "\\u\x7b" ++ hexLower char.toNat ++ "\x7d" else char.toString

/-- A text between double quotes. -/
def quoted (text : String) : String :=
  text.foldl (fun shown char => shown ++ shownChar char) "\"" ++ "\""

/-- Items one after another with a comma and a space between neighbours. -/
def commaSeparated (items : List String) : String :=
  ", ".intercalate items

end ActionCode.Text
