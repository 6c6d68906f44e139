import DualMachine.Link.Reach

/-!
# Laying out a program

The preamble and the functions follow each other without gaps. The length of an instruction
does not depend on its operands, so `place` gives every function its offset while the calls
still are names. Then the calls are resolved, all of them against the same offsets, and the
code is encoded; a call is an absolute position, so nothing moves any more.

A call to a function that is not there is found out when it is resolved. All calls are
resolved before anything is encoded. Offsets are natural numbers here and immediates are
cut down to their width, as everywhere.
-/

namespace DualMachine

structure Program where
  target : Kind
  bytes : Bytes
  /-- The offset of every function, in the order of the layout. -/
  symbols : List (String × Nat)
  deriving DecidableEq, Repr, Inhabited

namespace Link

/-- The offsets of functions that follow each other from `offset` on. -/
def place (offset : Nat) : List CompiledFunction → List (String × Nat)
  | [] => []
  | f :: rest => (f.name, offset) :: place (offset + f.length) rest

def address? (symbols : List (String × Nat)) (name : String) : Option Int :=
  (symbols.lookup name).map Int.ofNat

def resolveCalls (symbols : List (String × Nat)) (i : Instruction) :
    Except CompileError Instruction :=
  match i.resolve (address? symbols) with
  | (i, none) => .ok i
  | (_, some name) => .error (.undefinedFunction name)

/-- The bytes and the offsets of a preamble followed by functions. -/
def collapse (preamble : List Instruction) (functions : List CompiledFunction) :
    Except CompileError (Bytes × List (String × Nat)) := do
  let symbols := place (Instruction.totalLength preamble) functions
  let code := preamble ++ functions.flatMap (·.body)
  let resolved ← code.mapM (resolveCalls symbols)
  match Instruction.encodeAll resolved with
  | .ok bytes => return (bytes, symbols)
  | .error cause => throw (.assembly cause)

end Link

end DualMachine
