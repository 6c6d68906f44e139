import DualMachine.Assembly.Error
import DualMachine.Isa.Table

/-!
# Symbolic instructions

An instruction is a descriptor with its operands. An operand is a value, or a name that
stands for an address not known yet. Between text and bytes, and between the source
language and bytes, programs are lists of such instructions.

The length of an instruction does not depend on its operands: a name takes the width of
the immediate it stands for. So a program can be laid out, and every name in it given its
address, before the first name is resolved.

`resolve` puts addresses in place of names, from left to right. It stops at the first name
that has no address and returns that name; the operands before it have been resolved by
then and stay so, and resolving again with more addresses goes on from there. `encode`
writes an instruction as bytes and fails on the first name. `encodePartial` is what has been
written by then: the opcode and the operands before that name.

Operands and widths are walked side by side, and what one has beyond the other is not looked
at: an instruction with fewer operands than widths is encoded in fewer bytes than its length,
and operands in excess are left out, names among them. `ofValues` cuts every value down to
its width, so the operands it makes are those that a disassembler reads back.
-/

namespace DualMachine

inductive Operand where
  | value (v : Int)
  | symbol (name : String)
  deriving DecidableEq, Repr, Inhabited

def Operand.text : Operand → String
  | .value v => toString v
  | .symbol name => "<" ++ name ++ ">"

def Operand.symbol? : Operand → Option String
  | .value _ => none
  | .symbol name => some name

structure Instruction where
  descriptor : Descriptor
  operands : List Operand
  deriving DecidableEq, Repr, Inhabited

namespace Instruction

/-- An instruction with concrete operands, each cut down to its width. Values in
excess of the immediates are left out. -/
def ofValues (d : Descriptor) (values : List Int) : Instruction where
  descriptor := d
  operands := d.sizes.zipWith (fun size v => .value (Immediate.normalize size v)) values

def ofSymbol (d : Descriptor) (name : String) : Instruction where
  descriptor := d
  operands := [.symbol name]

/-- Encoded length in bytes; a name takes the width of its immediate. -/
def length (i : Instruction) : Nat := i.descriptor.length

def symbols (i : Instruction) : List String := i.operands.filterMap Operand.symbol?

/-- Puts addresses in place of names, left to right, and stops at the first name
that has none, which is returned beside the operands reached so far. -/
def resolveOperands (addresses : String → Option Int) :
    List Nat → List Operand → List Operand × Option String
  | size :: sizes, .symbol name :: rest =>
    match addresses name with
    | none => (.symbol name :: rest, some name)
    | some address =>
      let (rest, missing) := resolveOperands addresses sizes rest
      (.value (Immediate.normalize size address) :: rest, missing)
  | _ :: sizes, .value v :: rest =>
    let (rest, missing) := resolveOperands addresses sizes rest
    (.value v :: rest, missing)
  | _, operands => (operands, none)

/-- The second part is the first name that has no address. -/
def resolve (addresses : String → Option Int) (i : Instruction) :
    Instruction × Option String :=
  let (operands, missing) := resolveOperands addresses i.descriptor.sizes i.operands
  ({ i with operands }, missing)

def encodeOperands : List Nat → List Operand → Bytes × Option String
  | _ :: _, .symbol name :: _ => ([], some name)
  | size :: sizes, .value v :: rest =>
    let (bytes, unresolved) := encodeOperands sizes rest
    (Immediate.encode size v ++ bytes, unresolved)
  | _, _ => ([], none)

/-- The opcode and the operands up to the first name, and that name. -/
def encodePartial (i : Instruction) : Bytes × Option String :=
  let (bytes, unresolved) := encodeOperands i.descriptor.sizes i.operands
  (i.descriptor.opcode :: bytes, unresolved)

def encode (i : Instruction) : Except AsmError Bytes :=
  match i.encodePartial with
  | (bytes, none) => .ok bytes
  | (_, some name) => .error (.unresolvedSymbol name)

/-- The first instruction with a name decides the error. -/
def encodeAll : List Instruction → Except AsmError Bytes
  | [] => .ok []
  | i :: rest => do
    let bytes ← i.encode
    return bytes ++ (← encodeAll rest)

def totalLength (code : List Instruction) : Nat := (code.map length).foldr (· + ·) 0

def text (i : Instruction) : String :=
  String.join (i.descriptor.name :: i.operands.map fun o => " " ++ o.text)

end Instruction

def Register.Instr.toInstruction (i : Register.Instr) : Instruction :=
  .ofValues i.op.descriptor i.values

def Stack.Instr.toInstruction (i : Stack.Instr) : Instruction :=
  .ofValues i.op.descriptor i.values

end DualMachine
