import DualMachine.Event
import DualMachine.Image
import DualMachine.Link.Layout
import DualMachine.Lowering.RegisterCode
import DualMachine.Lowering.StackCode

/-!
# Compilation sessions

A session compiles packages one after the other and keeps their functions; no two of them
have the same name, and an index finds each by its name. Finishing a session keeps what the
entry point needs and lays it out as a program. Finishing changes nothing, so a session can
be finished, given another package, and finished again.

Included packages come before the package that includes them, in the order of their names,
and each before its own functions; the functions of one package come in the order in which
they are written. The layout follows this order too, but for the entry point, which comes
first. A function is compiled before its name is compared with those that are registered
already, so one that is wrong in both respects is reported for its code.

`SessionM` keeps the session reached when an error arises. A package that fails thus leaves
behind the functions that were compiled before the failure, and they may be part of a
program that is finished later. A caller that wants all or nothing has to keep the session
from before.

Compiling reports one event for each function that is added, and finishing one event with
the counts of kept and dropped functions. Both are computed from the sessions before and
after, as on the machines. `compile` is the whole way for a single package whose entry point
is `main`.
-/

namespace DualMachine

open Source

structure Session where
  backend : Backend
  entry : String := "main"
  /-- Compiled functions, in the order of compilation. -/
  functions : List CompiledFunction := []
  /-- The position of every function among them, by its name. -/
  index : List (String × Nat) := []

/-- Adds a function, and its position to the index. -/
def Session.register (s : Session) (f : CompiledFunction) : Session :=
  { s with
    functions := s.functions ++ [f]
    index := (f.name, s.functions.length) :: s.index }

/-- Changes to a session that may fail; an error keeps the session reached. -/
abbrev SessionM := EStateM CompileError Session

namespace SessionM

def addFunction (scope : Scope) (d : Definition) : SessionM Unit := do
  let s ← get
  match s.backend.compileFunction scope d with
  | .error e => throw e
  | .ok f =>
    -- only now: what is wrong with the code comes before a name that is taken
    if (s.index.lookup f.name).isSome then throw (.duplicateFunction f.name)
    set (s.register f)

mutual

/-- Compiles the packages included in a package, then its own functions, all of
them named after `path`. -/
def addPackage (path : String) : Package → SessionM Unit
  | .mk includes functions => do
    addIncludes path includes
    functions.forM (addFunction (.ofPackage path (.mk includes functions)))

def addIncludes (path : String) : List (String × Package) → SessionM Unit
  | [] => pure ()
  | (name, p) :: rest => do
    addPackage (path ++ name ++ ".") p
    addIncludes path rest

end

end SessionM

namespace Session

/-- The error a package failed with, if any, beside the session after it. -/
def compile (s : Session) (p : Package) : Option CompileError × Session :=
  match SessionM.addPackage "" p s with
  | .ok _ s => (none, s)
  | .error e s => (some e, s)

def finish (s : Session) : Except CompileError Program := do
  let kept ← Link.reachable s.functions s.entry
  let (bytes, symbols) ← Link.collapse (s.backend.preamble s.entry) kept
  return { target := s.backend.target, bytes, symbols }

/-! ## What a session reports -/

def compiledEvent (s : Session) (f : CompiledFunction) : Event :=
  ⟨.debug, "compiled function",
    [("target_machine", s.backend.target.name), ("function", f.name),
     ("arity", toString f.arity), ("bytes", toString f.length)]⟩

/-- The events of compiling a package: one for each function that is added. -/
def compileEvents (s : Session) (p : Package) : List Event :=
  ((s.compile p).2.functions.drop s.functions.length).map s.compiledEvent

/-- Nothing is reported where there is no entry point. -/
def finishEvents (s : Session) : List Event :=
  match Link.reachable s.functions s.entry with
  | .error _ => []
  | .ok kept =>
    [⟨.debug, "pruned call graph",
      [("entry", s.entry), ("kept", toString kept.length),
       ("dropped", toString (s.functions.length - kept.length))]⟩]

end Session

def Kind.backend : Kind → Backend
  | .register => RegisterCode.backend .standard
  | .stack => StackCode.backend

def compile (p : Package) (target : Kind) : Except CompileError Program :=
  match ({ backend := target.backend } : Session).compile p with
  | (none, s) => s.finish
  | (some e, _) => .error e

def compileEvents (p : Package) (target : Kind) : List Event :=
  let s : Session := { backend := target.backend }
  match s.compile p with
  | (none, s') => s.compileEvents p ++ s'.finishEvents
  | (some _, _) => s.compileEvents p

def Program.toImage (p : Program) (name : String) : Image :=
  { name, kind := p.target, code := p.bytes }

end DualMachine
