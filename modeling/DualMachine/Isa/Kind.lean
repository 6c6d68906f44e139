/-!
# The two machines

A program is a string of bytes, and nothing in it says which machine it is meant for. So
every table, image and compiled program carries the kind of its machine, as a name where
it is reported and as one byte where it is stored. Bytes other than the two that
`toByte` gives stand for no machine.
-/

namespace DualMachine

/-- The machine a program is meant for: one that computes in a register file or
one that computes on an operand stack. -/
inductive Kind where
  | register | stack
  deriving DecidableEq, Repr, Inhabited

namespace Kind

def name : Kind → String
  | .register => "register"
  | .stack => "stack"

def toByte : Kind → UInt8
  | .register => 0
  | .stack => 1

def ofByte? (b : UInt8) : Option Kind :=
  if b = 0 then some .register else if b = 1 then some .stack else none

end Kind

end DualMachine
