/-!
# Machine words

A word is 32 bits wide. It is the same bits everywhere; it is read as signed where order,
division or text matters. Arithmetic wraps and never fails, with one exception: division
and remainder have no value for a zero divisor. A comparison answers the word 0 or 1, so
truth values need no type of their own on the machines, and a branch takes every word
other than 0 as true.

`Alu` names the two-operand operations that both machines share, and `Alu.eval` is what
they mean. The machines differ only in where the two operands come from and where the
value goes, and the compiler picks an `Alu` for every operator of the source language
without asking for which machine.
-/

namespace DualMachine

abbrev Word := Int32

/-- The word a truth value is stored as. -/
def Word.ofBool (b : Bool) : Word := if b then 1 else 0

inductive Alu where
  | add | sub | mul | div | mod | and | or | xor | gt | lt | eq
  deriving DecidableEq, Repr, Inhabited

namespace Alu

/-- Division and remainder go toward zero; the smallest word divided by -1 wraps to itself
and leaves the remainder 0. -/
def eval (op : Alu) (a b : Word) : Option Word :=
  match op with
  | .add => some (a + b)
  | .sub => some (a - b)
  | .mul => some (a * b)
  | .div => if b = 0 then none else some (a / b)
  | .mod => if b = 0 then none else some (a % b)
  | .and => some (a &&& b)
  | .or => some (a ||| b)
  | .xor => some (a ^^^ b)
  | .gt => some (Word.ofBool (b < a))
  | .lt => some (Word.ofBool (a < b))
  | .eq => some (Word.ofBool (a == b))

/-- The operation's mnemonic on both machines. -/
def mnemonic : Alu → String
  | .add => "add"
  | .sub => "sub"
  | .mul => "mul"
  | .div => "div"
  | .mod => "mod"
  | .and => "and"
  | .or => "or"
  | .xor => "xor"
  | .gt => "gt"
  | .lt => "lt"
  | .eq => "eq"

end Alu

end DualMachine
