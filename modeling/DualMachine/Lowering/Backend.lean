import DualMachine.Lowering.Draft

/-!
# Backends

A backend turns function bodies into the code of one machine. What surrounds a body is the
same for both machines: the arguments of a function are declared first, in their order, so
they take the first slots of its frame, where a caller stores them; and a program starts
with a preamble that calls the entry point and halts when it returns. A call is not checked
against the number of arguments of its callee. An argument that a caller does not pass has
the value that is left in its slot.

A compiled function still has names in it, those of the functions that it calls. Its code
is a list of symbolic instructions whose length is known, which is all that the layout of
a program needs.

Operators are lowered to operations of the machines in one table (`BinaryOp.lowered`). The
machines have no `≠`, `≤` and `≥`, so these three are computed as the opposite comparison
with its answer inverted. The logical operators are the bitwise ones: both operands are
evaluated, and a value other than 0 and 1 is not made one of them first.
-/

namespace DualMachine

open Source

/-- A compiled function; its calls name the functions they go to. -/
structure CompiledFunction where
  name : String
  arity : Nat
  body : List Instruction
  deriving DecidableEq, Repr, Inhabited

namespace CompiledFunction

def length (f : CompiledFunction) : Nat := Instruction.totalLength f.body

/-- The functions that are called, in the order of their first calls. -/
def callees (f : CompiledFunction) : List String :=
  (f.body.flatMap Instruction.symbols).eraseDups

end CompiledFunction

structure Backend where
  target : Kind
  table : Table
  /-- Appends the code of a body, up to and with its last return. -/
  compileBody : Body → Gen Unit
  /-- The code before every function: a call of the entry point, then a halt. -/
  preamble : (entry : String) → List Instruction

namespace Backend

def instruction (b : Backend) (opcode : UInt8) (values : List Int) :
    Except CompileError Instruction :=
  match b.table.get? opcode with
  | some d => .ok (.ofValues d values)
  | none => .error (.missingInstruction opcode)

/-- An instruction whose one operand is resolved when the program is laid out. -/
def symbolic (b : Backend) (opcode : UInt8) (name : String) :
    Except CompileError Instruction :=
  match b.table.get? opcode with
  | some d => .ok (.ofSymbol d name)
  | none => .error (.missingInstruction opcode)

def compileFunction (b : Backend) (scope : Scope) (d : Definition) :
    Except CompileError CompiledFunction :=
  let name := scope.define d.name
  let compile : Gen Unit := do
    d.args.forM fun arg => do let _ ← Gen.declare arg
    b.compileBody d.body
  match compile { function := name, scope } with
  | .ok _ draft => .ok { name, arity := d.args.length, body := draft.code.toList }
  | .error e _ => .error e

end Backend

/-- The second part says whether the answer, 0 or 1, is inverted. -/
def Source.BinaryOp.lowered : BinaryOp → Alu × Bool
  | .add => (.add, false)
  | .sub => (.sub, false)
  | .mul => (.mul, false)
  | .div => (.div, false)
  | .mod => (.mod, false)
  | .and | .bitAnd => (.and, false)
  | .or | .bitOr => (.or, false)
  | .bitXor => (.xor, false)
  | .eq => (.eq, false)
  | .ne => (.eq, true)
  | .lt => (.lt, false)
  | .le => (.gt, true)
  | .gt => (.gt, false)
  | .ge => (.lt, true)

end DualMachine
