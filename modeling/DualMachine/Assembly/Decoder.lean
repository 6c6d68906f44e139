import DualMachine.Assembly.Instruction

/-!
# Disassembly

Bytes are read from the front: an opcode, then the immediates of its instruction, without
padding. Each instruction comes with the offset of its opcode. There is no way to tell code
from data, so either all of the bytes are instructions or there is no disassembly; the
error names the offset of the opcode that could not go on. An unknown opcode is found out
before anything is known about its length, and an instruction counts as truncated when any
of its immediates is.

Immediates are read back as signed, whatever the assembler was given: a listing shows -1
for a byte that was written as 255.
-/

namespace DualMachine.Table

/-- The values of immediates with the given widths at the front of `bytes`. -/
def decodeImmediates : (sizes : List Nat) → (bytes : Bytes) → List Operand
  | [], _ => []
  | size :: sizes, bytes =>
    .value (Immediate.decode size bytes) :: decodeImmediates sizes (bytes.drop size)

/-- The instructions in `bytes`, which start at `offset`. -/
def decodeFrom (t : Table) (offset : Nat) :
    Bytes → Except AsmError (List (Nat × Instruction))
  | [] => .ok []
  | opcode :: rest =>
    match t.get? opcode with
    | none => .error (.unknownOpcode opcode offset)
    | some d =>
      let immediates := rest.take d.immediateLength
      if immediates.length < d.immediateLength then
        .error (.truncatedInstruction d.name offset)
      else do
        let following ←
          t.decodeFrom (offset + d.length) (rest.drop d.immediateLength)
        return (offset, ⟨d, decodeImmediates d.sizes immediates⟩) :: following
termination_by bytes => bytes.length
decreasing_by
  simp only [List.length_drop, List.length_cons]
  omega

def disassembleWithOffsets (t : Table) (bytes : Bytes) :
    Except AsmError (List (Nat × Instruction)) :=
  t.decodeFrom 0 bytes

def disassemble (t : Table) (bytes : Bytes) : Except AsmError (List Instruction) := do
  return (← t.disassembleWithOffsets bytes).map (·.2)

def listingLine (offset : Nat) (i : Instruction) : String :=
  Text.padded 4 offset ++ ": " ++ i.text ++ "\n"

def listing (t : Table) (bytes : Bytes) : Except AsmError String := do
  return String.join ((← t.disassembleWithOffsets bytes).map fun (o, i) => listingLine o i)

end DualMachine.Table
