import DualMachine.Immediate
import DualMachine.Isa.Descriptor
import DualMachine.Isa.Kind
import DualMachine.Text.Blank

/-!
# Instruction tables

A table is the instruction set of one machine. A decoder asks it for the instruction of
an opcode byte and an assembler for the instruction of a mnemonic, so it keeps two
indexes: `slots` has a place for every opcode up to the highest one that is used, and
`byName` gives the opcode of a mnemonic, the case of ASCII letters aside. The places
between the opcodes that are used stay empty and are decoded as unknown.

Both indexes are filled in one pass over a list of descriptors (`Index.build`). Before a
descriptor is registered it has to pass three tests, in this order: its immediates have
supported widths, the place of its opcode is empty, and its mnemonic is not known yet. The
first test that fails ends the pass with its error.

An `Index` by itself may be anything. A `Table` is an index together with the fact that
the pass over some list ended with it, and this is where every property of a table comes
from: that the indexes agree, that no two instructions share an opcode or a mnemonic, and
that all widths are supported. The two instruction sets that are built in are written
down as the indexes they have, so that looking up an opcode in them is one access.
-/

namespace DualMachine

inductive TableError where
  | unsupportedSize (name : String) (size : Nat)
  | duplicateOpcode (opcode : UInt8) (first second : String)
  | duplicateMnemonic (name : String)
  deriving DecidableEq, Repr

def TableError.message : TableError → String
  | .unsupportedSize name size =>
    s!"Instruction '{name}' declares unsupported immediate size {size}"
  | .duplicateOpcode opcode first second =>
    s!"Opcode 0x{Text.hexByte opcode} registered by both '{first}' and '{second}'"
  | .duplicateMnemonic name => s!"Mnemonic '{name}' registered twice"

/-- The two indexes of an instruction set. -/
structure Index where
  /-- The descriptor of each opcode, as far as there are opcodes. -/
  slots : Array (Option Descriptor)
  /-- The opcodes of the mnemonics. -/
  byName : List (List Char × UInt8)

namespace Index

def get? (x : Index) (opcode : UInt8) : Option Descriptor := x.slots[opcode.toNat]?.join

def lookup? (x : Index) (mnemonic : String) : Option Descriptor :=
  match x.byName.lookup (Text.foldCase mnemonic) with
  | some opcode => x.get? opcode
  | none => none

/-- What is in the slots, in their order. -/
def descriptors (x : Index) : List Descriptor := x.slots.toList.filterMap id

/-- Room for the opcodes of a list, with nothing registered. -/
def blank (ds : List Descriptor) : Index where
  slots := match (ds.map (·.opcode.toNat)).max? with
    | some highest => Array.replicate (highest + 1) none
    | none => #[]
  byName := []

/-- Registers a descriptor, unless one of its widths is not supported, its opcode is
taken or its mnemonic is taken, checked in this order. -/
def register (x : Index) (d : Descriptor) : Except TableError Index :=
  match d.sizes.find? fun size => !Immediate.sizes.contains size with
  | some size => .error (.unsupportedSize d.name size)
  | none =>
    match x.get? d.opcode with
    | some first => .error (.duplicateOpcode d.opcode first.name d.name)
    | none =>
      let key := Text.foldCase d.name
      match x.byName.lookup key with
      | some _ => .error (.duplicateMnemonic (String.ofList key))
      | none => .ok {
          slots := x.slots.setIfInBounds d.opcode.toNat (some d)
          byName := x.byName ++ [(key, d.opcode)] }

def build (ds : List Descriptor) : Except TableError Index :=
  ds.foldlM register (blank ds)

end Index

/-- The instruction set of one machine. -/
structure Table where
  kind : Kind
  index : Index
  built : ∃ ds, Index.build ds = .ok index

namespace Table

def get? (t : Table) (opcode : UInt8) : Option Descriptor := t.index.get? opcode

/-- The instruction of a mnemonic; the case of ASCII letters does not matter. -/
def lookup? (t : Table) (mnemonic : String) : Option Descriptor := t.index.lookup? mnemonic

/-- The instructions in the order of their opcodes. -/
def descriptors (t : Table) : List Descriptor := t.index.descriptors

def size (t : Table) : Nat := t.index.byName.length

/-- The table of a list of descriptors, or what is wrong with the first one that cannot
be registered. -/
def ofDescriptors (kind : Kind) (ds : List Descriptor) : Except TableError Table :=
  match h : Index.build ds with
  | .ok index => .ok ⟨kind, index, ds, h⟩
  | .error e => .error e

end Table

def Register.table : Table where
  kind := .register
  index := {
    slots := (Register.Op.all.map fun op => some op.descriptor).toArray
    byName := Register.Op.all.map fun op => (Text.foldCase op.mnemonic, op.opcode) }
  built := ⟨Register.Op.all.map Register.Op.descriptor, rfl⟩

def Stack.table : Table where
  kind := .stack
  index := {
    slots := (Stack.Op.all.map fun op => some op.descriptor).toArray
    byName := Stack.Op.all.map fun op => (Text.foldCase op.mnemonic, op.opcode) }
  built := ⟨Stack.Op.all.map Stack.Op.descriptor, rfl⟩

def Kind.table : Kind → Table
  | .register => Register.table
  | .stack => Stack.table

end DualMachine
