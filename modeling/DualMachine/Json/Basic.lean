/-!
# JSON values

A value as it is written, before it is known what it means. Integers have a value;
a number with a fraction or an exponent keeps its spelling, and so does the
negative zero. Text escapes can spell half of a surrogate pair, which is no text
at all: such a string has no text. Members of an object keep their order, and a
name may occur more than once.
-/

namespace DualMachine

inductive Json where
  | null
  | bool (b : Bool)
  | integer (value : Int)
  /-- A number that is no integer, as it was written. -/
  | real (literal : String)
  | string (text : Option String)
  | array (items : List Json)
  | object (members : List (Option String × Json))
  deriving Inhabited

namespace Json

def text (s : String) : Json := .string (some s)

def record (members : List (String × Json)) : Json :=
  .object (members.map fun (name, value) => (some name, value))

def variant (tag : String) (value : Json) : Json := record [(tag, value)]

/-! ## Taking values apart -/

def bool? : Json → Option Bool
  | .bool b => some b
  | _ => none

def text? : Json → Option String
  | .string text => text
  | _ => none

def array? : Json → Option (List Json)
  | .array items => some items
  | _ => none

def members? : Json → Option (List (String × Json))
  | .object members => members.mapM fun (name, value) => name.map (·, value)
  | _ => none

/-- The tag and the content of an object with one member. -/
def variant? (j : Json) : Option (String × Json) :=
  match j.members? with
  | some [member] => some member
  | _ => none

/-- The value of a field among the members of an object, which may lack it but may not
repeat it. -/
def field? (members : List (String × Json)) (name : String) : Option (Option Json) :=
  match members.filter (·.1 = name) with
  | [] => some none
  | [(_, value)] => some (some value)
  | _ => none

/-- The values of named fields, in the order of `names`. An object may lack some
and have others, which are ignored, but may not repeat one of them; an array gives
the fields by position and may be shorter. -/
def fields? (names : List String) : Json → Option (List (Option Json))
  | .array items =>
    if items.length ≤ names.length then
      some (items.map some ++ List.replicate (names.length - items.length) none)
    else none
  | j => do
    let members ← j.members?
    names.mapM (field? members)

end Json

end DualMachine
