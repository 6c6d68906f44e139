import DualMachine.Text.Unprinted
import DualMachine.Text.Extender
import DualMachine.Text.Ignorable

/-!
# Quoted text

A name shown as a quoted literal: quotes and backslashes are escaped, the common
controls have short escapes, and other characters that print nothing, or only
together with the character before them, are written by code point.
-/

namespace DualMachine.Text

/-- Whether a character stands for itself between quotes: it prints something, which
is always displayed and does not merge with the quote or character before it. -/
def isPrintable (c : Char) : Bool := !isUnprinted c && !isIgnorable c && !isExtender c

/-- A character as it stands between quotes. -/
def quotedChar (c : Char) : String :=
  match c with
  | '"' => "\\\""
  | '\\' => "\\\\"
  | '\n' => "\\n"
  | '\r' => "\\r"
  | '\t' => "\\t"
  | '\x00' => "\\0"
  | c =>
    if isPrintable c then c.toString
    else "\\u\x7b" ++ String.ofList (Nat.toDigits 16 c.toNat) ++ "\x7d"

def quoted (text : String) : String :=
  "\"" ++ String.join (text.toList.map quotedChar) ++ "\""

end DualMachine.Text
