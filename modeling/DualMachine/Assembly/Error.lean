import DualMachine.Text.Decimal

/-!
# Errors of assembly and disassembly

Both directions share one type of errors: the first four arise from text, the next two from
bytes, and the last from an instruction that still has a name in it. An error of text
quotes the word it is about and gives no place; an error of bytes gives the offset of the
opcode.
-/

namespace DualMachine

inductive AsmError where
  | unknownMnemonic (word : String)
  | missingImmediate (mnemonic : String) (expected found : Nat)
  | malformedImmediate (mnemonic word : String)
  | immediateOutOfRange (mnemonic : String) (value : Int) (size : Nat)
  | unknownOpcode (opcode : UInt8) (offset : Nat)
  | truncatedInstruction (mnemonic : String) (offset : Nat)
  | unresolvedSymbol (name : String)
  deriving DecidableEq, Repr

def AsmError.message : AsmError → String
  | .unknownMnemonic word => s!"Unknown mnemonic '{word}'"
  | .missingImmediate mnemonic expected found =>
    s!"Instruction '{mnemonic}' expects {expected} immediate(s), found {found}"
  | .malformedImmediate mnemonic word =>
    s!"Malformed immediate '{word}' for '{mnemonic}'"
  | .immediateOutOfRange mnemonic value size =>
    s!"Immediate {value} does not fit in {size} byte(s) for '{mnemonic}'"
  | .unknownOpcode opcode offset =>
    s!"Unknown opcode 0x{Text.hexByte opcode} at offset {offset}"
  | .truncatedInstruction mnemonic offset =>
    s!"Truncated instruction '{mnemonic}' at offset {offset}"
  | .unresolvedSymbol name => s!"Unresolved symbol '{name}'"

end DualMachine
