import DualMachine.Bytes
import DualMachine.Machine.Fault
import DualMachine.Word

/-!
# Machine state

The state of a run: the operands (a register file or an operand stack), the pending
return addresses, memory, the program and the counter into it. The program belongs to the
state because jumps, calls and the halt are bounded by its length; no operation changes
it.

Memory has `memorySize` words and is split by call depth. A local address is relative to
the frame of the current activation: one frame of `frameSize` words for each pending call,
the first at the bottom of memory. A global address is relative to `globalStart`. Only the
two ends of memory are checked (`State.address`), so a local address may well reach into
another frame. Arguments are passed that way: a caller stores them just above its own
frame, where the frame of the callee is going to be. Nor does anything keep deep calls from
growing into the global words.

`Exec` is the monad of state changes that may fault. A fault keeps the state reached so
far, so a run can be looked at, and gone on with, after it. How much of an instruction has
happened by then is settled by the operations here, from which the instructions of both
machines are put together. A word is fetched whole or not at all; a refused jump, call or
return changes nothing; a value that was popped before the fault stays popped; and an
operation on the storage that the machine does not have is refused before anything else is
looked at.
-/

namespace DualMachine

def memorySize : Nat := 1024

def frameSize : Nat := 16

/-- Physical address of global slot 0. The word before it belongs to neither region. -/
def globalStart : Nat := 513

/-- End, not included, of the region that local frames are meant for. -/
def localEnd : Nat := 512

/-- The operands of a machine. A stack is kept top first. -/
inductive Holder where
  | registers (file : Array Word)
  | stack (values : List Word)
  deriving DecidableEq, Repr

def Storage.fresh (count : Nat) : Storage → Holder
  | .registers => .registers (Array.replicate count 0)
  | .stack => .stack []

structure State where
  holder : Holder
  /-- Pending return addresses, the latest first. -/
  calls : List Nat
  memory : Vector Word memorySize
  pc : Nat
  program : Array UInt8
  deriving DecidableEq

abbrev Exec := EStateM Fault State

namespace State

def initial (holder : Holder) (program : Bytes) : State where
  holder := holder
  calls := []
  memory := Vector.replicate memorySize 0
  pc := 0
  program := program.toArray

/-- Whether there is an instruction left to fetch. The end of the program is a place the counter
may go to, and the only one where a run stops without a fault. -/
def running (s : State) : Bool := s.pc < s.program.size

def depth (s : State) : Nat := s.calls.length

/-- The first register or the top of the stack: what a program leaves there is its answer. -/
def result? (s : State) : Option Word :=
  match s.holder with
  | .registers file => file[0]?
  | .stack values => values.head?

def registers? (s : State) : Option (Array Word) :=
  match s.holder with
  | .registers file => some file
  | .stack _ => none

def stack? (s : State) : Option (List Word) :=
  match s.holder with
  | .registers _ => none
  | .stack values => some values

/-- First physical address of the words that an address is relative to. Code
that no call has reached uses the frame of the first activation. -/
def frameBase (s : State) (isGlobal : Bool) : Nat :=
  if isGlobal then globalStart else (s.depth - 1) * frameSize

/-- The memory index of a logical address. The sum is taken before it is checked, and the
fault shows the sum. -/
def address (s : State) (logical : Word) (isGlobal : Bool) :
    Except Fault (Fin memorySize) :=
  let physical : Int := s.frameBase isGlobal + logical.toInt
  if h : 0 ≤ physical ∧ physical < memorySize then
    .ok ⟨physical.toNat, by omega⟩
  else .error (.addressOutOfRange physical)

/-- The memory words other than zero with their addresses, ascending. -/
def nonzeroMemory (s : State) : List (Nat × Word) :=
  (s.memory.toList.zipIdx.filter fun (w, _) => w != 0).map fun (w, i) => (i, w)

end State

namespace Exec

def ofExcept {α : Type} : Except Fault α → Exec α
  | .ok a => pure a
  | .error fault => throw fault

/-! ## Reading the program -/

def fetchByte : Exec UInt8 := do
  let s ← get
  match s.program[s.pc]? with
  | some b =>
    set { s with pc := s.pc + 1 }
    return b
  | none => throw (.truncatedInstruction s.pc)

/-- Takes the four bytes at the counter as a word, or none of them. -/
def fetchWord : Exec Word := do
  let s ← get
  if s.pc + 4 ≤ s.program.size then
    set { s with pc := s.pc + 4 }
    return Int32.ofNat (ofLittleEndian (s.program.extract s.pc (s.pc + 4)).toList)
  else throw (.truncatedInstruction s.pc)

/-! ## Registers -/

def readRegister (index : UInt8) : Exec Word := do
  match (← get).holder with
  | .registers file =>
    match file[index.toNat]? with
    | some w => return w
    | none => throw (.invalidRegister index)
  | .stack _ => throw (.storageMismatch .registers)

def writeRegister (index : UInt8) (value : Word) : Exec Unit := do
  let s ← get
  match s.holder with
  | .registers file =>
    if h : index.toNat < file.size then
      set { s with holder := .registers (file.set index.toNat value h) }
    else throw (.invalidRegister index)
  | .stack _ => throw (.storageMismatch .registers)

/-! ## Operand stack -/

def push (value : Word) : Exec Unit := do
  let s ← get
  match s.holder with
  | .stack values => set { s with holder := .stack (value :: values) }
  | .registers _ => throw (.storageMismatch .stack)

def pop : Exec Word := do
  let s ← get
  match s.holder with
  | .stack (value :: values) =>
    set { s with holder := .stack values }
    return value
  | .stack [] => throw .stackUnderflow
  | .registers _ => throw (.storageMismatch .stack)

def peek : Exec Word := do
  match (← get).holder with
  | .stack (value :: _) => return value
  | .stack [] => throw .stackUnderflow
  | .registers _ => throw (.storageMismatch .stack)

/-! ## Control -/

/-- Moves the counter to a position in the program or to its end. -/
def jumpTo (target : Int) : Exec Unit := do
  let s ← get
  if 0 ≤ target ∧ target ≤ s.program.size then
    set { s with pc := target.toNat }
  else throw (.invalidProgramCounter target)

def jumpBy (offset : Word) : Exec Unit := do
  jumpTo ((← get).pc + offset.toInt)

/-- Calls an absolute position. The return address is pushed last, so a call that is refused
leaves none behind. -/
def call (target : Word) : Exec Unit := do
  let back := (← get).pc
  jumpTo target.toInt
  modify fun s => { s with calls := back :: s.calls }

def ret : Exec Unit := do
  let s ← get
  match s.calls with
  | back :: calls => set { s with pc := back, calls := calls }
  | [] => throw (.callStackUnderflow s.pc)

/-- Moves the counter to the end of the program, where nothing is left to fetch. -/
def halt : Exec Unit :=
  modify fun s => { s with pc := s.program.size }

/-! ## Memory -/

def load (logical : Word) (isGlobal : Bool) : Exec Word := do
  let s ← get
  let address ← ofExcept (s.address logical isGlobal)
  return s.memory[address]

def store (logical : Word) (isGlobal : Bool) (value : Word) : Exec Unit := do
  let s ← get
  let address ← ofExcept (s.address logical isGlobal)
  set { s with memory := s.memory.set address value }

def compute (op : Alu) (a b : Word) : Exec Word :=
  match op.eval a b with
  | some w => return w
  | none => throw .divisionByZero

end Exec

end DualMachine
