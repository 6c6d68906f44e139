import DualMachine.Machine.State

/-!
# The stack machine

Operands are popped from the operand stack; only `push` and `call` carry an immediate,
which is a word. An `Op` is what an opcode stands for and an `Instr` is an operation with
its immediate, as on the register machine; here the two differ only in those operations.

The order of the pops is part of the machine's interface. A two-operand operation pops its
left operand first, so the right one has to be pushed before it. A branch pops its offset
and then the condition, and memory operations pop the global flag, then the address, then
the value to store. `swap` pushes the two topmost values back in the order in which it has
popped them, which exchanges them.

An instruction pops as it goes. One that faults half-way, because the stack runs out, an
address lies outside memory, a branch leaves the program or a divisor is zero, has used up
the operands that it popped until then.
-/

namespace DualMachine.Stack

inductive Op where
  | push
  | pop
  | alu (op : Alu)
  | not
  | jump
  | cjump
  | load
  | store
  | dup
  | call
  | ret
  | swap
  | halt
  deriving DecidableEq, Repr, Inhabited

inductive Instr where
  | push (value : Word)
  | pop
  | alu (op : Alu)
  /-- The bitwise complement of the top. -/
  | not
  | jump
  /-- Branches when the condition is not zero. -/
  | cjump
  | load
  | store
  | dup
  /-- Calls an absolute position. -/
  | call (target : Word)
  | ret
  | swap
  | halt
  deriving DecidableEq, Repr, Inhabited

namespace Op

def mnemonic : Op → String
  | .push => "push"
  | .pop => "pop"
  | .alu op => op.mnemonic
  | .not => "not"
  | .jump => "jump"
  | .cjump => "cjump"
  | .load => "load"
  | .store => "store"
  | .dup => "dup"
  | .call => "call"
  | .ret => "ret"
  | .swap => "swap"
  | .halt => "halt"

def opcode : Op → UInt8
  | .push => 0
  | .pop => 1
  | .alu .add => 2
  | .alu .sub => 3
  | .alu .mul => 4
  | .alu .div => 5
  | .alu .and => 6
  | .alu .or => 7
  | .alu .xor => 8
  | .not => 9
  | .jump => 10
  | .cjump => 11
  | .load => 12
  | .store => 13
  | .dup => 14
  | .alu .gt => 15
  | .alu .lt => 16
  | .alu .eq => 17
  | .alu .mod => 18
  | .call => 19
  | .ret => 20
  | .swap => 21
  | .halt => 22

/-- Widths of the immediates: four bytes for the word of `push` and `call`. -/
def sizes : Op → List Nat
  | .push => [4]
  | .call => [4]
  | _ => []

def all : List Op :=
  [.push, .pop, .alu .add, .alu .sub, .alu .mul, .alu .div, .alu .and, .alu .or,
   .alu .xor, .not, .jump, .cjump, .load, .store, .dup, .alu .gt, .alu .lt,
   .alu .eq, .alu .mod, .call, .ret, .swap, .halt]

/-- The instruction with the given immediates, if there are as many as it takes.
Each is cut down to a word. -/
def ofValues? : Op → List Int → Option Instr
  | .push, [value] => some (.push (Int32.ofInt value))
  | .pop, [] => some .pop
  | .alu op, [] => some (.alu op)
  | .not, [] => some .not
  | .jump, [] => some .jump
  | .cjump, [] => some .cjump
  | .load, [] => some .load
  | .store, [] => some .store
  | .dup, [] => some .dup
  | .call, [target] => some (.call (Int32.ofInt target))
  | .ret, [] => some .ret
  | .swap, [] => some .swap
  | .halt, [] => some .halt
  | _, _ => none

open Exec in
def fetch : Op → Exec Instr
  | .push => return .push (← fetchWord)
  | .pop => return .pop
  | .alu op => return .alu op
  | .not => return .not
  | .jump => return .jump
  | .cjump => return .cjump
  | .load => return .load
  | .store => return .store
  | .dup => return .dup
  | .call => return .call (← fetchWord)
  | .ret => return .ret
  | .swap => return .swap
  | .halt => return .halt

end Op

namespace Instr

def op : Instr → Op
  | .push _ => .push
  | .pop => .pop
  | .alu op => .alu op
  | .not => .not
  | .jump => .jump
  | .cjump => .cjump
  | .load => .load
  | .store => .store
  | .dup => .dup
  | .call _ => .call
  | .ret => .ret
  | .swap => .swap
  | .halt => .halt

def values : Instr → List Int
  | .push value => [value.toInt]
  | .call target => [target.toInt]
  | _ => []

/-- Carries an instruction out; the counter stands after its last byte. -/
def exec : Instr → Exec Unit
  | .push value => Exec.push value
  | .pop => do
    let _ ← Exec.pop
  | .alu op => do
    let left ← Exec.pop
    let right ← Exec.pop
    Exec.push (← Exec.compute op left right)
  | .not => do
    Exec.push (~~~ (← Exec.pop))
  | .jump => do
    Exec.jumpBy (← Exec.pop)
  | .cjump => do
    let offset ← Exec.pop
    let cond ← Exec.pop
    if cond ≠ 0 then Exec.jumpBy offset
  | .load => do
    let isGlobal ← Exec.pop
    let address ← Exec.pop
    Exec.push (← Exec.load address (isGlobal != 0))
  | .store => do
    let isGlobal ← Exec.pop
    let address ← Exec.pop
    let value ← Exec.pop
    Exec.store address (isGlobal != 0) value
  | .dup => do
    Exec.push (← Exec.peek)
  | .call target => Exec.call target
  | .ret => Exec.ret
  | .swap => do
    let a ← Exec.pop
    let b ← Exec.pop
    Exec.push a
    Exec.push b
  | .halt => Exec.halt

end Instr

end DualMachine.Stack
