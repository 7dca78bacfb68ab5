import TtlCache.Text.Hidden

/-!
# Quoted text

Text between double quotes on one line: the quote, the backslash and the common controls have
escapes of two characters, and every other character without a glyph of its own is written by its
code point.
-/

namespace TtlCache

namespace Text

def codePoint (c : Char) : String :=
  "\\u\x7b" ++ String.ofList (Nat.toDigits 16 c.toNat) ++ "\x7d"

/-- One character as it stands between double quotes.  The single quote is not escaped. -/
def quotedChar (c : Char) : String :=
  match c with
  | '"' => "\\\""
  | '\\' => "\\\\"
  | '\n' => "\\n"
  | '\r' => "\\r"
  | '\t' => "\\t"
  | '\x00' => "\\0"
  | _ => if isHidden c then codePoint c else c.toString

def quoted (text : String) : String :=
  "\"" ++ String.join (text.toList.map quotedChar) ++ "\""

end Text

end TtlCache
