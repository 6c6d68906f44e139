import DualMachine.Machine.State

/-!
# The register machine

An `Op` is what an opcode stands for; an `Instr` is an operation with its operands.
Operands name registers by one byte; values, offsets and call targets are words. `Op.fetch`
reads the operands at the counter and `Instr.exec` carries the instruction out, so all of
an instruction's bytes have been read before it does anything. A branch offset therefore
counts from the first byte after the branch. An instruction that is cut off by the end of
the program leaves the counter after the register operands that were still there.

The registers that an instruction reads are read from left to right, and before the one it
writes. The first operand may thus repeat one of the others, and the fault of an
instruction with several wrong registers is about the first one that is read. `swap` reads
both of its registers before it writes either, so it never writes only one. A division by
zero leaves the destination alone.

`ofValues?` and `values` go between typed instructions and lists of integers, the form in
which the assembler and the compiler have their operands.
-/

namespace DualMachine.Register

inductive Op where
  | mov
  | alu (op : Alu)
  | not
  | jump
  | cjump
  | load
  | store
  | dup
  | call
  | ret
  | swap
  | halt
  deriving DecidableEq, Repr, Inhabited

inductive Instr where
  /-- The register becomes the value. -/
  | mov (dst : UInt8) (value : Word)
  /-- The first register becomes the result on the other two. -/
  | alu (op : Alu) (dst lhs rhs : UInt8)
  /-- The bitwise complement. -/
  | not (dst src : UInt8)
  | jump (offset : Word)
  /-- Branches when the register is not zero. -/
  | cjump (cond : UInt8) (offset : Word)
  /-- Reads the word at the address in a register; the last register says
  whether the address is global. -/
  | load (dst address isGlobal : UInt8)
  /-- Writes a register to the address in another. -/
  | store (src address isGlobal : UInt8)
  | dup (dst src : UInt8)
  /-- Calls an absolute position. -/
  | call (target : Word)
  | ret
  | swap (a b : UInt8)
  | halt
  deriving DecidableEq, Repr, Inhabited

namespace Op

def mnemonic : Op → String
  | .mov => "mov"
  | .alu op => op.mnemonic
  | .not => "not"
  | .jump => "jump"
  | .cjump => "cjump"
  | .load => "load"
  | .store => "store"
  | .dup => "dup"
  | .call => "call"
  | .ret => "ret"
  | .swap => "swap"
  | .halt => "halt"

def opcode : Op → UInt8
  | .mov => 0
  | .alu .add => 1
  | .alu .sub => 2
  | .alu .mul => 3
  | .alu .div => 4
  | .alu .and => 5
  | .alu .or => 6
  | .alu .xor => 7
  | .not => 8
  | .jump => 9
  | .cjump => 10
  | .load => 11
  | .store => 12
  | .dup => 13
  | .alu .gt => 14
  | .alu .lt => 15
  | .alu .eq => 16
  | .alu .mod => 17
  | .call => 18
  | .ret => 19
  | .swap => 20
  | .halt => 21

/-- Widths of the immediates: one byte for a register, four for a word. -/
def sizes : Op → List Nat
  | .mov => [1, 4]
  | .alu _ => [1, 1, 1]
  | .not => [1, 1]
  | .jump => [4]
  | .cjump => [1, 4]
  | .load => [1, 1, 1]
  | .store => [1, 1, 1]
  | .dup => [1, 1]
  | .call => [4]
  | .ret => []
  | .swap => [1, 1]
  | .halt => []

def all : List Op :=
  [.mov, .alu .add, .alu .sub, .alu .mul, .alu .div, .alu .and, .alu .or,
   .alu .xor, .not, .jump, .cjump, .load, .store, .dup, .alu .gt, .alu .lt,
   .alu .eq, .alu .mod, .call, .ret, .swap, .halt]

/-- The instruction with the given operands, if there are as many as it takes.
Each is cut down to the width of its immediate. -/
def ofValues? : Op → List Int → Option Instr
  | .mov, [dst, value] => some (.mov (byte dst) (Int32.ofInt value))
  | .alu op, [dst, lhs, rhs] => some (.alu op (byte dst) (byte lhs) (byte rhs))
  | .not, [dst, src] => some (.not (byte dst) (byte src))
  | .jump, [offset] => some (.jump (Int32.ofInt offset))
  | .cjump, [cond, offset] => some (.cjump (byte cond) (Int32.ofInt offset))
  | .load, [dst, address, isGlobal] =>
    some (.load (byte dst) (byte address) (byte isGlobal))
  | .store, [src, address, isGlobal] =>
    some (.store (byte src) (byte address) (byte isGlobal))
  | .dup, [dst, src] => some (.dup (byte dst) (byte src))
  | .call, [target] => some (.call (Int32.ofInt target))
  | .ret, [] => some .ret
  | .swap, [a, b] => some (.swap (byte a) (byte b))
  | .halt, [] => some .halt
  | _, _ => none
where
  /-- The byte that is congruent to a value. -/
  byte (v : Int) : UInt8 := UInt8.ofNat (v % 256).toNat

open Exec in
/-- Reads the operands at the counter, which stands after the opcode. -/
def fetch : Op → Exec Instr
  | .mov => return .mov (← fetchByte) (← fetchWord)
  | .alu op => return .alu op (← fetchByte) (← fetchByte) (← fetchByte)
  | .not => return .not (← fetchByte) (← fetchByte)
  | .jump => return .jump (← fetchWord)
  | .cjump => return .cjump (← fetchByte) (← fetchWord)
  | .load => return .load (← fetchByte) (← fetchByte) (← fetchByte)
  | .store => return .store (← fetchByte) (← fetchByte) (← fetchByte)
  | .dup => return .dup (← fetchByte) (← fetchByte)
  | .call => return .call (← fetchWord)
  | .ret => return .ret
  | .swap => return .swap (← fetchByte) (← fetchByte)
  | .halt => return .halt

end Op

namespace Instr

def op : Instr → Op
  | .mov .. => .mov
  | .alu op .. => .alu op
  | .not .. => .not
  | .jump _ => .jump
  | .cjump .. => .cjump
  | .load .. => .load
  | .store .. => .store
  | .dup .. => .dup
  | .call _ => .call
  | .ret => .ret
  | .swap .. => .swap
  | .halt => .halt

def values : Instr → List Int
  | .mov dst value => [dst.toNat, value.toInt]
  | .alu _ dst lhs rhs => [dst.toNat, lhs.toNat, rhs.toNat]
  | .not dst src => [dst.toNat, src.toNat]
  | .jump offset => [offset.toInt]
  | .cjump cond offset => [cond.toNat, offset.toInt]
  | .load dst address isGlobal => [dst.toNat, address.toNat, isGlobal.toNat]
  | .store src address isGlobal => [src.toNat, address.toNat, isGlobal.toNat]
  | .dup dst src => [dst.toNat, src.toNat]
  | .call target => [target.toInt]
  | .ret => []
  | .swap a b => [a.toNat, b.toNat]
  | .halt => []

open Exec in
/-- Carries an instruction out; the counter stands after its last byte. -/
def exec : Instr → Exec Unit
  | .mov dst value => writeRegister dst value
  | .alu op dst lhs rhs => do
    let a ← readRegister lhs
    let b ← readRegister rhs
    writeRegister dst (← compute op a b)
  | .not dst src => do
    writeRegister dst (~~~ (← readRegister src))
  | .jump offset => jumpBy offset
  | .cjump cond offset => do
    if (← readRegister cond) ≠ 0 then jumpBy offset
  | .load dst address isGlobal => do
    let a ← readRegister address
    let g ← readRegister isGlobal
    writeRegister dst (← Exec.load a (g != 0))
  | .store src address isGlobal => do
    let value ← readRegister src
    let a ← readRegister address
    let g ← readRegister isGlobal
    Exec.store a (g != 0) value
  | .dup dst src => do
    writeRegister dst (← readRegister src)
  | .call target => Exec.call target
  | .ret => Exec.ret
  | .swap a b => do
    let x ← readRegister a
    let y ← readRegister b
    writeRegister a y
    writeRegister b x
  | .halt => Exec.halt

end Instr

end DualMachine.Register
