import DualMachine.Assembly.Instruction
import DualMachine.Lowering.Error
import DualMachine.Lowering.Scope
import DualMachine.Machine.State

/-!
# Functions under compilation

A draft is a function that is being compiled: the variables in scope and the code so far,
with its length in bytes. `Gen` is the monad of changes to a draft, and an error keeps the
draft as it was when it arose.

A variable lives in a slot of the frame. Slots are given out in the order of the
declarations, and leaving a block takes its declarations back, so the variables in scope
always have the slots from 0 on without a gap. That is why a draft keeps them as a list: the
slot of a variable is its position there, and the next slot is the length of the list. A
block is left in this way also when its code fails (`Gen.inBlock`).

Declaring a name that is in scope is an error, in a nested block as well: there is no
shadowing. A name whose block has been left may be declared again. The name is checked
before the room in the frame, so the error for a name that would overflow the frame as well
is that it is declared twice.

A branch over a block comes before the block's code but needs its length.
`Gen.measure` compiles the block on the draft as it is, subtracts the length before from
the length after, and goes back to the draft from before; the block is then compiled a
second time for its code. A block that is nested `n` deep is compiled `2 ^ n` times.
-/

namespace DualMachine

/-- The state of compiling one function, known under the name it is registered by. -/
structure Draft where
  /-- Registered name of the function. -/
  function : String
  scope : Scope
  /-- Variables in scope, in the order of their slots. -/
  vars : List String := []
  code : Array Instruction := #[]
  /-- Length of the code in bytes. -/
  size : Nat := 0
  deriving Inhabited

abbrev Gen := EStateM CompileError Draft

namespace Gen

def declare (name : String) : Gen Nat := do
  let d ← get
  let slot := d.vars.length
  if name ∈ d.vars then throw (.duplicateVariable d.function name)
  if frameSize ≤ slot then throw (.frameOverflow d.function (slot + 1))
  set { d with vars := d.vars ++ [name] }
  return slot

def slot (name : String) : Gen Nat := do
  let d ← get
  match d.vars.idxOf? name with
  | some slot => return slot
  | none => throw (.undeclaredVariable d.function name)

def emit (i : Instruction) : Gen Unit :=
  modify fun d => { d with code := d.code.push i, size := d.size + i.length }

/-- Runs `body` in a nested block: what it declares is dropped at its end, also
when it fails. -/
def inBlock {α : Type} (body : Gen α) : Gen α := fun d =>
  match body d with
  | .ok a d' => .ok a { d' with vars := d.vars }
  | .error e d' => .error e { d' with vars := d.vars }

/-- The number of bytes that `body` would append, found on a copy of the draft
that is then dropped. -/
def measure (body : Gen Unit) : Gen Nat := fun d =>
  match body d with
  | .ok _ d' => .ok (d'.size - d.size) d
  | .error e _ => .error e d

def callee (name : String) : Gen String := do
  return (← get).scope.qualify name

def overflow {α : Type} (slots : Nat) : Gen α := do
  throw (.frameOverflow (← get).function slots)

end Gen

end DualMachine
