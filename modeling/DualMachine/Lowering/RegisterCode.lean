import DualMachine.Lowering.Backend

/-!
# Code for the register machine

An expression is evaluated into the lowest free register, a temporary; those below it are
in use. Nothing is spilled for want of registers: an expression that needs more temporaries
than the file has is an error, which says how many registers would have been enough for it
to go on (`reserve`). The two highest registers are never temporaries. They hold the address and the
global flag of every load and store, and the flag register also holds the zero that values
are compared with.

A call has to keep the registers in use, because the callee uses them too. They are stored
in the frame, above the variables, and read back afterwards. The arguments are evaluated
into temporaries from the target of the call on, then stored to the slots after the frame,
which are the first slots of the callee's frame. The result comes back in register 0 and is
copied to the target before the other registers are restored. Errors show the order in which
a call is checked: the target, the number of arguments against the size of a frame, the
temporaries of the arguments, and then the room for the registers in use.

Branch offsets count from the byte after the branch. In a conditional the code for false
comes first, so that the branch to the code for true needs no inverted condition; a loop
inverts its condition to branch past its end. The code that either branch skips ends with a
jump, `jumpLength` bytes that a measured block does not count.

Registers are named by `UInt8` and counted by `Nat`; `File` bounds the count so that the two
agree.
-/

namespace DualMachine.RegisterCode

open Source
open Register (Instr)

/-- A register file that code can be generated for: two registers for addressing
and at least one temporary, all of which one byte can name. -/
structure File where
  count : Nat
  three_le : 3 ≤ count
  le_256 : count ≤ 256

namespace File

def ofCount (count : Nat) : Except CompileError File :=
  if h : 3 ≤ count ∧ count ≤ 256 then .ok ⟨count, h.1, h.2⟩
  else .error (.registerPressure "" 3 count)

def standard : File := ⟨8, by decide, by decide⟩

variable (file : File)

def address : UInt8 := UInt8.ofNat (file.count - 2)

/-- The register that holds global flags, and zero to compare with. -/
def flag : UInt8 := UInt8.ofNat (file.count - 1)

def temporaries : Nat := file.count - 2

end File

def emit (i : Instr) : Gen Unit := Gen.emit i.toInstruction

variable (file : File)

/-- The register of temporary `t`, if there is one. -/
def reserve (t : Nat) : Gen UInt8 := do
  if t < file.temporaries then return UInt8.ofNat t
  else throw (.registerPressure (← get).function (t + 3) file.count)

def loadSlot (dst : UInt8) (slot : Nat) : Gen Unit := do
  emit (.mov file.address (Int32.ofNat slot))
  emit (.mov file.flag 0)
  emit (.load dst file.address file.flag)

def storeSlot (src : UInt8) (slot : Nat) : Gen Unit := do
  emit (.mov file.address (Int32.ofNat slot))
  emit (.mov file.flag 0)
  emit (.store src file.address file.flag)

/-- Makes a register 1 if it is zero, and 0 otherwise. -/
def invert (reg : UInt8) : Gen Unit := do
  emit (.mov file.flag 0)
  emit (.alu .eq reg reg file.flag)

def unary (op : UnaryOp) (reg : UInt8) : Gen Unit :=
  match op with
  | .neg => do
    emit (.mov file.flag 0)
    emit (.alu .sub reg file.flag reg)
  | .not => invert file reg

def binary (op : BinaryOp) (dst rhs : UInt8) : Gen Unit := do
  let (alu, inverted) := op.lowered
  emit (.alu alu dst dst rhs)
  if inverted then invert file dst

/-- Checks that a call with `count` arguments from temporary `t` fits, and keeps
the registers in use above the variables. The first slot used is returned. -/
def beginCall (count t : Nat) : Gen Nat := do
  if frameSize < count then Gen.overflow count
  if count ≠ 0 then
    let _ ← reserve file (t + count - 1)
  let base := (← get).vars.length
  if frameSize < base + t then Gen.overflow (base + t)
  (List.range t).forM fun live => storeSlot file (UInt8.ofNat live) (base + live)
  return base

/-- Passes the evaluated arguments, calls, and puts the result into temporary `t`
and the registers in use back from `base`. -/
def endCall (name : String) (count t base : Nat) : Gen Unit := do
  (List.range count).forM fun i =>
    storeSlot file (UInt8.ofNat (t + i)) (frameSize + i)
  Gen.emit (.ofSymbol (Register.Op.descriptor .call) (← Gen.callee name))
  -- register 0 is among those read back below, so the result has to leave it first
  if t ≠ 0 then emit (.dup (UInt8.ofNat t) 0)
  (List.range t).forM fun live => loadSlot file (UInt8.ofNat live) (base + live)

mutual

/-- Evaluates an expression into temporary `t`, leaving those below it alone. -/
def expr : (e : Expr) → (t : Nat) → Gen Unit
  | .number n, t => do
    emit (.mov (← reserve file t) n)
  | .boolean b, t => do
    emit (.mov (← reserve file t) (Word.ofBool b))
  | .identifier name, t => do
    let dst ← reserve file t
    loadSlot file dst (← Gen.slot name)
  | .paren inner, t => do
    let _ ← reserve file t
    expr inner t
  | .unary op operand, t => do
    let dst ← reserve file t
    expr operand t
    unary file op dst
  | .binary op left right, t => do
    let dst ← reserve file t
    let rhs ← reserve file (t + 1)
    expr left t
    expr right (t + 1)
    binary file op dst rhs
  | .call name args, t => do
    let _ ← reserve file t
    let base ← beginCall file args.length t
    exprs args t
    endCall file name args.length t base

def exprs : (es : List Expr) → (t : Nat) → Gen Unit
  | [], _ => pure ()
  | e :: es, t => do
    expr e t
    exprs es (t + 1)

end

def jumpLength : Nat := 5

/-- A branch on the condition: the code for zero comes first, and the jump before
the other code skips it. -/
def conditional (cond : Expr) (onTrue onFalse : Gen Unit) : Gen Unit := do
  expr file cond 0
  let falseSize ← Gen.measure onFalse
  let trueSize ← Gen.measure onTrue
  emit (.cjump 0 (Int32.ofNat (falseSize + jumpLength)))
  onFalse
  emit (.jump (Int32.ofNat trueSize))
  onTrue

/-- A loop: the condition, a branch past the end when it is zero, the body and a jump back. -/
def loop (cond : Expr) (body : Gen Unit) : Gen Unit := do
  let start := (← get).size
  expr file cond 0
  invert file 0
  let bodySize ← Gen.measure body
  emit (.cjump 0 (Int32.ofNat (bodySize + jumpLength)))
  body
  -- offsets count from the end of the jump, which is not appended yet
  let stop := (← get).size + jumpLength
  emit (.jump (Int32.ofInt ((start : Int) - stop)))

mutual

def statement : Stmt → Gen Unit
  | .var name value => do
    expr file value 0
    storeSlot file 0 (← Gen.declare name)
  | .assign name value => do
    expr file value 0
    storeSlot file 0 (← Gen.slot name)
  | .return value => do
    expr file value 0
    emit .ret
  | .if cond onTrue none =>
    conditional file cond (Gen.inBlock (statements onTrue)) (pure ())
  | .if cond onTrue (some onFalse) =>
    conditional file cond (Gen.inBlock (statements onTrue)) (Gen.inBlock (statements onFalse))
  | .while cond body =>
    loop file cond (Gen.inBlock (statements body))

def statements : List Stmt → Gen Unit
  | [] => pure ()
  | s :: ss => do
    statement s
    statements ss

end

def block (ss : List Stmt) : Gen Unit := Gen.inBlock (statements file ss)

/-- A block that comes to its end returns 0. -/
def body : Body → Gen Unit
  | .block ss => do
    block file ss
    emit (.mov 0 0)
    emit .ret
  | .expression value => do
    expr file value 0
    emit .ret

def backend : Backend where
  target := .register
  table := Register.table
  compileBody := body file
  preamble entry :=
    [.ofSymbol (Register.Op.descriptor .call) entry, Instr.toInstruction .halt]

end DualMachine.RegisterCode
