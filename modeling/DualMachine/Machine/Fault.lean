import DualMachine.Text.Decimal

/-!
# Faults

What can stop a machine. A fault is data: it carries the numbers that its message shows,
and two faults are equal when they would be reported in the same words about the same
place. Positions are positions of the counter, except for an unknown opcode, which is
reported where the opcode stands although the counter has moved past it.

A fault says nothing about the state it leaves behind: that follows from the operations
that raise it, which are defined together with the state.
-/

namespace DualMachine

/-- Where a machine keeps its operands. It is here because a fault names the storage that an
operation expected. -/
inductive Storage where
  | registers | stack
  deriving DecidableEq, Repr, Inhabited

def Storage.description : Storage → String
  | .registers => "register file"
  | .stack => "operand stack"

inductive Fault where
  | stackUnderflow
  | callStackUnderflow (pc : Nat)
  | invalidProgramCounter (target : Int)
  | unknownOpcode (opcode : UInt8) (pc : Nat)
  | truncatedInstruction (pc : Nat)
  | invalidRegister (index : UInt8)
  | addressOutOfRange (address : Int)
  | divisionByZero
  | storageMismatch (expected : Storage)
  deriving DecidableEq, Repr

def Fault.message : Fault → String
  | .stackUnderflow => "Stack underflow"
  | .callStackUnderflow pc => s!"Call stack underflow at pc {pc}"
  | .invalidProgramCounter target => s!"Invalid program counter: {target}"
  | .unknownOpcode opcode pc => s!"Unknown opcode 0x{Text.hexByte opcode} at pc {pc}"
  | .truncatedInstruction pc => s!"Truncated instruction at pc {pc}"
  | .invalidRegister index => s!"Invalid register: {index}"
  | .addressOutOfRange address => s!"Address out of range: {address}"
  | .divisionByZero => "Division by zero"
  | .storageMismatch expected => s!"Holder mismatch: expected {expected.description}"

end DualMachine
