import DualMachine.Isa.Table

/-!
# Running programs

`Table.step` fetches one opcode, finds its instruction and performs it; `Table.run` steps
until the counter leaves the program, a fault stops it, or the step limit is used up. A
step is a function of the table and the state alone. The configuration of a machine decides
how many registers it starts with and what it reports, not what its instructions do.

A program may run for ever, so a run takes a limit. `Vm.stepLimit` is more steps than any
run can be waited for, and an ending by the limit is told apart from the other two. A run
counts the instructions that were carried out to the end. One that faults does not count,
though it may have changed the state.

A `Vm` is a machine with its configuration and the state of the program that is loaded. The
functions on it return the machine after a step or a run whether or not it faulted, and a
machine that has faulted may be stepped or run again: it goes on from the state that the
fault left. `load` resets everything but the configuration; `fresh` resets the configuration
as well.

A machine may also be put together from descriptors and a storage (`Machine.custom`). It
is reported as a machine of the stack kind, and whether its instructions suit its storage
shows only when they are performed.
-/

namespace DualMachine

structure Config where
  /-- Number of registers of a register file. -/
  registers : Nat := 8
  /-- Whether every instruction is reported. -/
  trace : Bool := false
  /-- Whether loads, ends of runs and faults are reported. -/
  debug : Bool := false
  deriving DecidableEq, Repr, Inhabited

inductive Ending where
  | finished
  | faulted (fault : Fault)
  /-- The step limit was used up first. -/
  | unfinished
  deriving DecidableEq, Repr

structure Run where
  ending : Ending
  /-- Instructions carried out to the end. -/
  executed : Nat
  state : State
  deriving DecidableEq

namespace Table

/-- Fetches, decodes and performs one instruction. An unknown opcode is reported at the place
it was fetched from. -/
def step (t : Table) : Exec Unit := do
  let pc := (← get).pc
  let opcode ← Exec.fetchByte
  match t.get? opcode with
  | some d => d.action.perform
  | none => throw (.unknownOpcode opcode pc)

/-- Steps while the program runs, at most `limit` times, after `executed` others. -/
def runFrom (t : Table) : (limit executed : Nat) → State → Run
  | 0, executed, s => ⟨if s.running then .unfinished else .finished, executed, s⟩
  | limit + 1, executed, s =>
    if s.running then
      match t.step s with
      | .ok _ s => t.runFrom limit (executed + 1) s
      | .error fault s => ⟨.faulted fault, executed, s⟩
    else ⟨.finished, executed, s⟩

def run (t : Table) (limit : Nat) (s : State) : Run := t.runFrom limit 0 s

end Table

structure Machine where
  table : Table
  storage : Storage

def Kind.machine : Kind → Machine
  | .register => ⟨Register.table, .registers⟩
  | .stack => ⟨Stack.table, .stack⟩

inductive VmError where
  | invalidTable (cause : TableError)
  | fault (cause : Fault)
  deriving DecidableEq, Repr

def VmError.message : VmError → String
  | .invalidTable cause => s!"Invalid instruction table: {cause.message}"
  | .fault cause => cause.message

/-- A machine of the stack kind with the given instructions and storage. -/
def Machine.custom (ds : List Descriptor) (storage : Storage) : Except VmError Machine :=
  match Table.ofDescriptors .stack ds with
  | .ok table => .ok ⟨table, storage⟩
  | .error cause => .error (.invalidTable cause)

def Machine.start (m : Machine) (config : Config) (program : Bytes) : State :=
  .initial (m.storage.fresh config.registers) program

structure Vm where
  machine : Machine
  config : Config
  state : State

namespace Vm

def stepLimit : Nat := Nat.pow 2 62

def new (machine : Machine) (config : Config) : Vm :=
  ⟨machine, config, machine.start config []⟩

/-- Puts a program in place of the loaded one and resets the state. -/
def load (vm : Vm) (program : Bytes) : Vm :=
  { vm with state := vm.machine.start vm.config program }

/-- The same machine, configured by default, with a program loaded. -/
def fresh (vm : Vm) (program : Bytes) : Vm :=
  (new vm.machine {}).load program

def step (vm : Vm) : Option Fault × Vm :=
  match vm.machine.table.step vm.state with
  | .ok _ s => (none, { vm with state := s })
  | .error fault s => (some fault, { vm with state := s })

/-- At most `count` steps while the program runs, up to the first fault. The
counter and the result after each of them come after those in `trail`. -/
def stepsFrom (trail : Array (Nat × Option Word)) :
    (count : Nat) → Vm → Option Fault × Vm × Array (Nat × Option Word)
  | 0, vm => (none, vm, trail)
  | count + 1, vm =>
    if vm.state.running then
      let (fault, vm) := vm.step
      let trail := trail.push (vm.state.pc, vm.state.result?)
      match fault with
      | none => stepsFrom trail count vm
      | some fault => (some fault, vm, trail)
    else (none, vm, trail)

def steps (vm : Vm) (count : Nat) : Option Fault × Vm × Array (Nat × Option Word) :=
  stepsFrom #[] count vm

def run (vm : Vm) : Run × Vm :=
  let run := vm.machine.table.run stepLimit vm.state
  (run, { vm with state := run.state })

end Vm

end DualMachine
