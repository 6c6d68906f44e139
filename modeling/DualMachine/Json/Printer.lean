import DualMachine.Json.Basic

/-!
# Writing JSON

Values are written without blanks, and members in their order. In a string the quote, the
backslash and the control characters are escaped, with the short escapes where there are
some; every other character stands for itself. A string without a text is written empty.
-/

namespace DualMachine.Json

/-- A character as it stands in a string. -/
def escaped (c : Char) : String :=
  match c with
  | '"' => "\\\""
  | '\\' => "\\\\"
  | '\x08' => "\\b"
  | '\x0c' => "\\f"
  | '\n' => "\\n"
  | '\r' => "\\r"
  | '\t' => "\\t"
  | c =>
    if c.toNat < 0x20 then
      "\\u00" ++ String.ofList [Nat.digitChar (c.toNat / 16), Nat.digitChar (c.toNat % 16)]
    else c.toString

def renderText (text : Option String) : String :=
  "\"" ++ String.join ((text.getD "").toList.map escaped) ++ "\""

mutual

def render : Json → String
  | .null => "null"
  | .bool true => "true"
  | .bool false => "false"
  | .integer value => toString value
  | .real literal => literal
  | .string text => renderText text
  | .array items => "[" ++ ",".intercalate (renderItems items) ++ "]"
  | .object members => "\x7b" ++ ",".intercalate (renderMembers members) ++ "\x7d"

def renderItems : List Json → List String
  | [] => []
  | item :: items => item.render :: renderItems items

def renderMembers : List (Option String × Json) → List String
  | [] => []
  | (name, value) :: members =>
    (renderText name ++ ":" ++ value.render) :: renderMembers members

end

end DualMachine.Json
