import DualMachine.Json.Parser
import DualMachine.Json.Printer
import DualMachine.Source.Basic

/-!
# Source packages as JSON

A record is an object of its fields; an alternative is an object with one member,
whose name is the alternative's tag. `Package.toJson` writes every field.
`Package.ofJson?` also takes what it can do without: a missing list is empty, a
missing or null `else_branch` is none, a record may be an array of its fields, and
unknown fields are passed over.

Reading is bounded by the number of arrays and objects that may nest in what is
read, so the readers recurse on that bound. Values that are passed over may nest
to any depth.
-/

namespace DualMachine.Source

/-! ## Operators -/

def UnaryOp.tag : UnaryOp → String
  | .neg => "neg"
  | .not => "not"

def UnaryOp.ofTag? : String → Option UnaryOp
  | "neg" => some .neg
  | "not" => some .not
  | _ => none

def BinaryOp.tag : BinaryOp → String
  | .add => "add"
  | .sub => "sub"
  | .mul => "mul"
  | .div => "div"
  | .mod => "mod"
  | .and => "and"
  | .or => "or"
  | .bitAnd => "bit_and"
  | .bitOr => "bit_or"
  | .bitXor => "bit_xor"
  | .eq => "eq"
  | .ne => "ne"
  | .lt => "lt"
  | .le => "le"
  | .gt => "gt"
  | .ge => "ge"

def BinaryOp.ofTag? : String → Option BinaryOp
  | "add" => some .add
  | "sub" => some .sub
  | "mul" => some .mul
  | "div" => some .div
  | "mod" => some .mod
  | "and" => some .and
  | "or" => some .or
  | "bit_and" => some .bitAnd
  | "bit_or" => some .bitOr
  | "bit_xor" => some .bitXor
  | "eq" => some .eq
  | "ne" => some .ne
  | "lt" => some .lt
  | "le" => some .le
  | "gt" => some .gt
  | "ge" => some .ge
  | _ => none

/-! ## Writing -/

mutual

def Expr.toJson : Expr → Json
  | .number value => .variant "number" (.integer value.toInt)
  | .boolean value => .variant "boolean" (.bool value)
  | .identifier name => .variant "identifier" (.text name)
  | .unary op operand =>
    .variant "unary" (.record [("op", .text op.tag), ("operand", operand.toJson)])
  | .binary op left right =>
    .variant "binary" (.record
      [("op", .text op.tag), ("left", left.toJson), ("right", right.toJson)])
  | .call name args =>
    .variant "call" (.record [("name", .text name), ("args", .array (Expr.listToJson args))])
  | .paren inner => .variant "paren" inner.toJson

def Expr.listToJson : List Expr → List Json
  | [] => []
  | e :: es => e.toJson :: Expr.listToJson es

end

mutual

def Stmt.toJson : Stmt → Json
  | .var name value =>
    .variant "var_decl" (.record [("name", .text name), ("value", value.toJson)])
  | .assign name value =>
    .variant "assign" (.record [("name", .text name), ("value", value.toJson)])
  | .return value => .variant "return" value.toJson
  | .if cond onTrue none =>
    .variant "if" (.record
      [("condition", cond.toJson), ("then_branch", .array (Stmt.listToJson onTrue)),
       ("else_branch", .null)])
  | .if cond onTrue (some onFalse) =>
    .variant "if" (.record
      [("condition", cond.toJson), ("then_branch", .array (Stmt.listToJson onTrue)),
       ("else_branch", .array (Stmt.listToJson onFalse))])
  | .while cond body =>
    .variant "while" (.record
      [("condition", cond.toJson), ("body", .array (Stmt.listToJson body))])

def Stmt.listToJson : List Stmt → List Json
  | [] => []
  | s :: ss => s.toJson :: Stmt.listToJson ss

end

def Body.toJson : Body → Json
  | .block statements => .variant "block" (.array (Stmt.listToJson statements))
  | .expression value => .variant "expression" value.toJson

def Definition.toJson (d : Definition) : Json :=
  .record [("name", .text d.name), ("args", .array (d.args.map .text)),
    ("body", d.body.toJson)]

mutual

def Package.toJson : Package → Json
  | .mk includes functions =>
    .record [("includes", .record (Package.includesToJson includes)),
      ("functions", .array (functions.map Definition.toJson))]

def Package.includesToJson : List (String × Package) → List (String × Json)
  | [] => []
  | (name, p) :: rest => (name, p.toJson) :: Package.includesToJson rest

end

def Package.render (p : Package) : String := p.toJson.render

/-! ## Reading

The first argument is how many arrays and objects may still nest. -/

/-- A tag, alone or as an object whose one member is null. -/
def tag? : (depth : Nat) → Json → Option String
  | depth, j =>
    match depth, j.text?, j.variant? with
    | _, some tag, _ => some tag
    | _ + 1, none, some (tag, .null) => some tag
    | _, _, _ => none

def word? : Json → Option Word
  | .integer v => if -(Nat.pow 2 31 : Int) ≤ v && v < Nat.pow 2 31 then some (Int32.ofInt v) else none
  | _ => none

/-- A list that is empty where it is missing. -/
def listOrEmpty {α : Type} (read : Json → Option (List α)) : Option Json → Option (List α)
  | none => some []
  | some j => read j

mutual

def Expr.ofJson? : (depth : Nat) → Json → Option Expr
  | 0, _ => none
  | depth + 1, j => do
    let (tag, content) ← j.variant?
    match tag with
    | "number" => return .number (← word? content)
    | "boolean" => return .boolean (← content.bool?)
    | "identifier" => return .identifier (← content.text?)
    | "paren" => return .paren (← Expr.ofJson? depth content)
    | tag => Expr.ofFields? depth tag content

/-- An expression whose parts are the fields of a record. -/
def Expr.ofFields? : (depth : Nat) → (tag : String) → Json → Option Expr
  | 0, _, _ => none
  | depth + 1, tag, content =>
    match tag with
    | "unary" => do
      let [op, operand] ← content.fields? ["op", "operand"] | none
      let op ← UnaryOp.ofTag? (← tag? depth (← op))
      return .unary op (← Expr.ofJson? depth (← operand))
    | "binary" => do
      let [op, left, right] ← content.fields? ["op", "left", "right"] | none
      let op ← BinaryOp.ofTag? (← tag? depth (← op))
      return .binary op (← Expr.ofJson? depth (← left)) (← Expr.ofJson? depth (← right))
    | "call" => do
      let [name, args] ← content.fields? ["name", "args"] | none
      return .call (← (← name).text?) (← listOrEmpty (Expr.listOfJson? depth) args)
    | _ => none

def Expr.listOfJson? : (depth : Nat) → Json → Option (List Expr)
  | 0, _ => none
  | depth + 1, j => do (← j.array?).mapM (Expr.ofJson? depth)

end

mutual

def Stmt.ofJson? : (depth : Nat) → Json → Option Stmt
  | 0, _ => none
  | depth + 1, j => do
    let (tag, content) ← j.variant?
    match tag with
    | "return" => return .return (← Expr.ofJson? depth content)
    | tag => Stmt.ofFields? depth tag content

def Stmt.ofFields? : (depth : Nat) → (tag : String) → Json → Option Stmt
  | 0, _, _ => none
  | depth + 1, tag, content =>
    match tag with
    | "var_decl" => do
      let [name, value] ← content.fields? ["name", "value"] | none
      return .var (← (← name).text?) (← Expr.ofJson? depth (← value))
    | "assign" => do
      let [name, value] ← content.fields? ["name", "value"] | none
      return .assign (← (← name).text?) (← Expr.ofJson? depth (← value))
    | "if" => do
      let [cond, onTrue, onFalse] ←
        content.fields? ["condition", "then_branch", "else_branch"] | none
      let cond ← Expr.ofJson? depth (← cond)
      let onTrue ← Stmt.listOfJson? depth (← onTrue)
      match onFalse with
      | none | some .null => return .if cond onTrue none
      | some onFalse => return .if cond onTrue (some (← Stmt.listOfJson? depth onFalse))
    | "while" => do
      let [cond, body] ← content.fields? ["condition", "body"] | none
      return .while (← Expr.ofJson? depth (← cond)) (← Stmt.listOfJson? depth (← body))
    | _ => none

def Stmt.listOfJson? : (depth : Nat) → Json → Option (List Stmt)
  | 0, _ => none
  | depth + 1, j => do (← j.array?).mapM (Stmt.ofJson? depth)

end

def Body.ofJson? : (depth : Nat) → Json → Option Body
  | 0, _ => none
  | depth + 1, j => do
    let (tag, content) ← j.variant?
    match tag with
    | "block" => return .block (← Stmt.listOfJson? depth content)
    | "expression" => return .expression (← Expr.ofJson? depth content)
    | _ => none

def textsOfJson? : (depth : Nat) → Json → Option (List String)
  | 0, _ => none
  | _ + 1, j => do (← j.array?).mapM Json.text?

def Definition.ofJson? : (depth : Nat) → Json → Option Definition
  | 0, _ => none
  | depth + 1, j => do
    let [name, args, body] ← j.fields? ["name", "args", "body"] | none
    return {
      name := ← (← name).text?
      args := ← listOrEmpty (textsOfJson? depth) args
      body := ← Body.ofJson? depth (← body) }

def Definition.listOfJson? : (depth : Nat) → Json → Option (List Definition)
  | 0, _ => none
  | depth + 1, j => do (← j.array?).mapM (Definition.ofJson? depth)

mutual

def Package.ofJson? : (depth : Nat) → Json → Option Package
  | 0, _ => none
  | depth + 1, j => do
    let [includes, functions] ← j.fields? ["includes", "functions"] | none
    return .ofIncludes (← listOrEmpty (Package.includesOfJson? depth) includes)
      (← listOrEmpty (Definition.listOfJson? depth) functions)

def Package.includesOfJson? : (depth : Nat) → Json → Option (List (String × Package))
  | 0, _ => none
  | depth + 1, j => do
    (← j.members?).mapM fun (name, p) => return (name, ← Package.ofJson? depth p)

end

/-- How many arrays and objects may nest in a text that is read. -/
def nestingLimit : Nat := 127

/-- The package that a text spells. -/
def Package.parse? (text : String) : Option Package := do
  Package.ofJson? nestingLimit (← Json.parse? text)

end DualMachine.Source
