import DualMachine.Json.Lexer

/-!
# JSON texts

Lexemes are put together by one pass that keeps the arrays and objects still open on a
stack, so values may nest to any depth and the pass needs no recursion of its own. What may
come next depends on the innermost open value only, and is kept beside the stack: a comma is
never followed by a closing mark, and nothing follows a complete value.
-/

namespace DualMachine.Json

/-- An array or object that is still open; its parts are kept latest first. -/
inductive Frame where
  | array (items : List Json)
  | object (members : List (Option String × Json)) (name : Option String)
  deriving Inhabited

inductive Awaiting where
  | value
  /-- A value or the end of an array with nothing in it. -/
  | item
  | name
  /-- A name or the end of an object with nothing in it. -/
  | member
  | colon
  /-- A comma or the end of what is open. -/
  | comma
  /-- Nothing: the value is complete. -/
  | nothing (value : Json)
  deriving Inhabited

structure Builder where
  stack : List Frame := []
  awaiting : Awaiting := .value
  deriving Inhabited

namespace Builder

/-- Puts a complete value in its place. -/
def complete (stack : List Frame) (value : Json) : Builder :=
  match stack with
  | [] => ⟨[], .nothing value⟩
  | .array items :: rest => ⟨.array (value :: items) :: rest, .comma⟩
  | .object members name :: rest => ⟨.object ((name, value) :: members) none :: rest, .comma⟩

def start? (stack : List Frame) : Token → Option Builder
  | .scalar value => some (complete stack value)
  | .string text => some (complete stack (.string text))
  | .openBracket => some ⟨.array [] :: stack, .item⟩
  | .openBrace => some ⟨.object [] none :: stack, .member⟩
  | _ => none

def close? (stack : List Frame) (token : Token) : Option Builder :=
  match stack, token with
  | .array items :: rest, .closeBracket => some (complete rest (.array items.reverse))
  | .object members _ :: rest, .closeBrace => some (complete rest (.object members.reverse))
  | _, _ => none

def name? (stack : List Frame) (token : Token) : Option Builder :=
  match stack, token with
  | .object members _ :: rest, .string name => some ⟨.object members name :: rest, .colon⟩
  | _, _ => none

def colon? (stack : List Frame) : Token → Option Builder
  | .colon => some ⟨stack, .value⟩
  | _ => none

/-- What is open tells whether an item or a member follows. -/
def comma? (stack : List Frame) (token : Token) : Option Builder :=
  match stack, token with
  | .array _ :: _, .comma => some ⟨stack, .value⟩
  | .object _ _ :: _, .comma => some ⟨stack, .name⟩
  | _, _ => none

def step (b : Builder) (token : Token) : Option Builder :=
  match b.awaiting with
  | .value => start? b.stack token
  | .item => start? b.stack token <|> close? b.stack token
  | .name => name? b.stack token
  | .member => name? b.stack token <|> close? b.stack token
  | .colon => colon? b.stack token
  | .comma => comma? b.stack token <|> close? b.stack token
  | .nothing _ => none

end Builder

def parse? (text : String) : Option Json := do
  let b ← (← tokens? text).foldlM Builder.step {}
  match b.awaiting with
  | .nothing value => some value
  | _ => none

end DualMachine.Json
