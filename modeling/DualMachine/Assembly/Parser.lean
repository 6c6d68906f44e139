import DualMachine.Assembly.Instruction

/-!
# Assembly text

A program text is a sequence of words: a mnemonic, then one integer for each immediate of
its instruction. Line breaks mean nothing, there are no comments and no labels, and the
case of a mnemonic's ASCII letters does not matter.

The text is read from left to right, and the first word that cannot go on is reported. An
immediate is read as an integer of 64 signed bits, then checked against its width (a value
is taken if it is representable as signed or as unsigned) and cut down to it. A mnemonic
that stands where an immediate is due is a malformed immediate, since words are only told
apart by their place; only the end of the text makes an immediate a missing one.
-/

namespace DualMachine.Table

def parseImmediate (d : Descriptor) (size : Nat) (word : String) :
    Except AsmError Operand :=
  match Text.readInteger? word with
  | none => .error (.malformedImmediate d.name word)
  | some v =>
    if Immediate.fits size v then .ok (.value (Immediate.normalize size v))
    else .error (.immediateOutOfRange d.name v size)

/-- The immediates for the widths `sizes`, of which `found` others have been read already. A
missing one is reported with how many there were. -/
def parseImmediates (d : Descriptor) (found : Nat) :
    (sizes : List Nat) → (words : List String) → Except AsmError (List Operand)
  | [], _ => .ok []
  | _ :: _, [] => .error (.missingImmediate d.name d.sizes.length found)
  | size :: sizes, word :: words => do
    let operand ← parseImmediate d size word
    return operand :: (← parseImmediates d (found + 1) sizes words)

/-- The instructions that a list of words spells. What an instruction does not take starts the
next one. -/
def parseWords (t : Table) : List String → Except AsmError (List Instruction)
  | [] => .ok []
  | word :: words =>
    match t.lookup? word with
    | none => .error (.unknownMnemonic word)
    | some d => do
      let operands ← parseImmediates d 0 d.sizes words
      return ⟨d, operands⟩ :: (← t.parseWords (words.drop d.sizes.length))
termination_by words => words.length
decreasing_by
  simp only [List.length_drop, List.length_cons]
  omega

def parse (t : Table) (text : String) : Except AsmError (List Instruction) :=
  t.parseWords (Text.words text)

def assemble (t : Table) (text : String) : Except AsmError Bytes := do
  Instruction.encodeAll (← t.parse text)

end DualMachine.Table
