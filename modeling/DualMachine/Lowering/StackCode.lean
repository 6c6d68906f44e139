import DualMachine.Lowering.Backend

/-!
# Code for the stack machine

An expression leaves its value on the operand stack, above what was there. The right
operand of an operator is pushed before the left one, so that the machine pops them in
order. The operands of a source expression are thus evaluated from right to left here, and
from left to right on the register machine.

Arguments are pushed from left to right, then stored from the last one down to the slots
after the frame, which are the first slots of the callee's frame. A call leaves its result
on the stack. Nothing has to be kept around a call, because the callee works above what is
on the stack, and there is no limit to the depth of an expression. The number of arguments
is checked against the size of a frame before any of them is evaluated.

Branches are laid out as for the register machine, with a push of the offset in front of
each. A jump and its push, `jumpLength` bytes together, end the code that a branch skips.
-/

namespace DualMachine.StackCode

open Source
open Stack (Instr)

def emit (i : Instr) : Gen Unit := Gen.emit i.toInstruction

def push (value : Word) : Gen Unit := emit (.push value)

def loadSlot (slot : Nat) : Gen Unit := do
  push (Int32.ofNat slot)
  push 0
  emit .load

def storeSlot (slot : Nat) : Gen Unit := do
  push (Int32.ofNat slot)
  push 0
  emit .store

/-- Makes the top 1 if it is zero, and 0 otherwise. -/
def invert : Gen Unit := do
  push 0
  emit (.alu .eq)

def unary : UnaryOp → Gen Unit
  | .neg => do
    push 0
    emit (.alu .sub)
  | .not => invert

def binary (op : BinaryOp) : Gen Unit := do
  let (alu, inverted) := op.lowered
  emit (.alu alu)
  if inverted then invert

/-- Passes the `count` topmost values as arguments and calls. -/
def endCall (name : String) (count : Nat) : Gen Unit := do
  (List.range count).reverse.forM fun i => storeSlot (frameSize + i)
  Gen.emit (.ofSymbol (Stack.Op.descriptor .call) (← Gen.callee name))

mutual

/-- Pushes the value of an expression. -/
def expr : Expr → Gen Unit
  | .number n => push n
  | .boolean b => push (Word.ofBool b)
  | .identifier name => do
    loadSlot (← Gen.slot name)
  | .paren inner => expr inner
  | .unary op operand => do
    expr operand
    unary op
  | .binary op left right => do
    expr right
    expr left
    binary op
  | .call name args => do
    if frameSize < args.length then Gen.overflow args.length
    exprs args
    endCall name args.length

def exprs : List Expr → Gen Unit
  | [] => pure ()
  | e :: es => do
    expr e
    exprs es

end

def jumpLength : Nat := 6

/-- A branch on the condition: the code for zero comes first, and the jump before
the other code skips it. -/
def conditional (cond : Expr) (onTrue onFalse : Gen Unit) : Gen Unit := do
  expr cond
  let falseSize ← Gen.measure onFalse
  let trueSize ← Gen.measure onTrue
  push (Int32.ofNat (falseSize + jumpLength))
  emit .cjump
  onFalse
  push (Int32.ofNat trueSize)
  emit .jump
  onTrue

/-- A loop: the condition, a branch past the end when it is zero, the body and a jump back. -/
def loop (cond : Expr) (body : Gen Unit) : Gen Unit := do
  let start := (← get).size
  expr cond
  invert
  let bodySize ← Gen.measure body
  push (Int32.ofNat (bodySize + jumpLength))
  emit .cjump
  body
  -- offsets count from the end of the jump, which is not appended yet
  let stop := (← get).size + jumpLength
  push (Int32.ofInt ((start : Int) - stop))
  emit .jump

mutual

def statement : Stmt → Gen Unit
  | .var name value => do
    expr value
    storeSlot (← Gen.declare name)
  | .assign name value => do
    expr value
    storeSlot (← Gen.slot name)
  | .return value => do
    expr value
    emit .ret
  | .if cond onTrue none =>
    conditional cond (Gen.inBlock (statements onTrue)) (pure ())
  | .if cond onTrue (some onFalse) =>
    conditional cond (Gen.inBlock (statements onTrue)) (Gen.inBlock (statements onFalse))
  | .while cond body =>
    loop cond (Gen.inBlock (statements body))

def statements : List Stmt → Gen Unit
  | [] => pure ()
  | s :: ss => do
    statement s
    statements ss

end

def block (ss : List Stmt) : Gen Unit := Gen.inBlock (statements ss)

/-- A block that comes to its end returns 0. -/
def body : Body → Gen Unit
  | .block ss => do
    block ss
    push 0
    emit .ret
  | .expression value => do
    expr value
    emit .ret

def backend : Backend where
  target := .stack
  table := Stack.table
  compileBody := body
  preamble entry :=
    [.ofSymbol (Stack.Op.descriptor .call) entry, Instr.toInstruction .halt]

end DualMachine.StackCode
