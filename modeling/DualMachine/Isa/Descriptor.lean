import DualMachine.Machine.Register
import DualMachine.Machine.Stack
import DualMachine.Text.Quoted

/-!
# Instruction descriptors

A descriptor is one line of an instruction set: the mnemonic, the opcode byte, the widths of
the immediates that follow it, and the action that it stands for. The first three are all
that the assembler, the disassembler and the layout of programs look at; the action is what
the machine does with the instruction.

The widths are those that the assembler writes and the disassembler reads. A machine does
not consult them: `Action.perform` lets the operation fetch its own operands. For the
instructions of the two machines the widths are those of the operands that are fetched
(`Op.sizes`). Another instruction set may give an operation other widths, and then its
listings and its runs disagree about where the next instruction starts.

An instruction set may use operations of both machines. One that reads or writes the
storage that its machine lacks faults when it is performed.
-/

namespace DualMachine

/-- What an opcode makes a machine do: an operation of either machine. -/
inductive Action where
  | register (op : Register.Op)
  | stack (op : Stack.Op)
  deriving DecidableEq, Repr, Inhabited

/-- Reads the operands at the counter and carries the operation out. -/
def Action.perform : Action → Exec Unit
  | .register op => do (← op.fetch).exec
  | .stack op => do (← op.fetch).exec

structure Descriptor where
  name : String
  opcode : UInt8
  /-- Widths of the immediates in bytes, in encoding order. -/
  sizes : List Nat
  action : Action
  deriving DecidableEq, Repr, Inhabited

namespace Descriptor

def immediateLength (d : Descriptor) : Nat := d.sizes.foldr (· + ·) 0

def length (d : Descriptor) : Nat := 1 + d.immediateLength

/-- The fields but the action, as one line of text. -/
def describe (d : Descriptor) : String :=
  "InstructionDescriptor \x7b name: " ++ Text.quoted d.name
    ++ ", opcode: " ++ toString d.opcode.toNat
    ++ ", immediate_sizes: " ++ Text.bracketed (d.sizes.map Int.ofNat) ++ " \x7d"

end Descriptor

def Register.Op.descriptor (op : Register.Op) : Descriptor :=
  ⟨op.mnemonic, op.opcode, op.sizes, .register op⟩

def Stack.Op.descriptor (op : Stack.Op) : Descriptor :=
  ⟨op.mnemonic, op.opcode, op.sizes, .stack op⟩

end DualMachine
