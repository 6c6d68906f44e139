import DualMachine.Assembly.Instruction

/-!
# Program builders

A program can be put together one typed instruction at a time, without names and without
text. A builder holds the bytes so far, and appending to it never fails: a typed
instruction has the operands its opcode takes, each of the right width.

`Instr.bytes` writes the operands directly, one byte for a register and four for a word.
Nothing here looks into a table, so this is a second way to the same bytes beside
`Instruction.encode`. `append?` is the way in for operands that come as integers, which
may be too few or too many.
-/

namespace DualMachine

def registerByte (r : UInt8) : Bytes := [r]

/-- The encoding of an immediate that is a word. -/
def wordBytes (w : Word) : Bytes := littleEndian 4 w.toUInt32.toNat

/-- The opcode and the operands in encoding order. -/
def Register.Instr.bytes (i : Register.Instr) : Bytes :=
  i.op.opcode :: match i with
    | .mov dst value => registerByte dst ++ wordBytes value
    | .alu _ dst lhs rhs => registerByte dst ++ registerByte lhs ++ registerByte rhs
    | .not dst src => registerByte dst ++ registerByte src
    | .jump offset => wordBytes offset
    | .cjump cond offset => registerByte cond ++ wordBytes offset
    | .load dst address isGlobal =>
      registerByte dst ++ registerByte address ++ registerByte isGlobal
    | .store src address isGlobal =>
      registerByte src ++ registerByte address ++ registerByte isGlobal
    | .dup dst src => registerByte dst ++ registerByte src
    | .call target => wordBytes target
    | .ret => []
    | .swap a b => registerByte a ++ registerByte b
    | .halt => []

def Stack.Instr.bytes (i : Stack.Instr) : Bytes :=
  i.op.opcode :: match i with
    | .push value => wordBytes value
    | .call target => wordBytes target
    | _ => []

structure Builder where
  bytes : Bytes := []
  deriving DecidableEq, Repr, Inhabited

namespace Builder

def register (b : Builder) (i : Register.Instr) : Builder := ⟨b.bytes ++ i.bytes⟩

def stack (b : Builder) (i : Stack.Instr) : Builder := ⟨b.bytes ++ i.bytes⟩

/-- Appends an operation of either machine with its operands, if their number is
right. -/
def append? (b : Builder) (action : Action) (values : List Int) : Option Builder :=
  match action with
  | .register op => (op.ofValues? values).map b.register
  | .stack op => (op.ofValues? values).map b.stack

def length (b : Builder) : Nat := b.bytes.length

def isEmpty (b : Builder) : Bool := b.bytes.isEmpty

end Builder

end DualMachine
