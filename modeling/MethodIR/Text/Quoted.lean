import MethodIR.Text.CodePoints
import MethodIR.Text.Hex

/-!
# Quoted text

A text between double quotes, on one line and readable: the quote, the backslash and the usual
controls have an escape of their own, every other character that cannot be seen by itself is
written by its code point.
-/

namespace MethodIR.Text

def codePoint (c : Char) : String := "\\u\x7b" ++ hex 1 c.toNat ++ "\x7d"

def escape (c : Char) : String :=
  match c with
  | '\x00' => "\\0"
  | '\t' => "\\t"
  | '\r' => "\\r"
  | '\n' => "\\n"
  | '"' => "\\\""
  | '\\' => "\\\\"
  | c => if isExtender c || !isPrintable c then codePoint c else c.toString

def quoted (s : String) : String := "\"" ++ String.join (s.toList.map escape) ++ "\""

end MethodIR.Text
