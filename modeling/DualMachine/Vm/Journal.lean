import DualMachine.Event
import DualMachine.Vm

/-!
# What a machine reports

The events of loading, stepping and running, as functions of the machine before it does so.
The machine itself writes nothing: a step is the same whether it is reported or not, and
what would be reported can be computed from the state before it.

There are two levels. With `trace` every instruction is reported once its opcode is known,
before it is performed; an instruction that then faults has been reported all the same,
and an unknown opcode is not. With `debug` loads and the ends of runs are reported. A
single step reports neither an end nor a fault.

`traceFrom` steps through the run on its own to collect its events, so the events of a run
cost as much as the run.
-/

namespace DualMachine

/-- The operands as one line of text, a stack from its bottom. -/
def Holder.text : Holder → String
  | .registers file => "Registers(" ++ Text.bracketed (file.toList.map (·.toInt)) ++ ")"
  | .stack values => "Stack(" ++ Text.bracketed (values.reverse.map (·.toInt)) ++ ")"

def resultText : Option Word → String
  | some w => "Some(" ++ toString w.toInt ++ ")"
  | none => "None"

namespace Vm

/-- The event of the instruction at the counter, if the opcode there is known. -/
def executing? (kind : Kind) (t : Table) (s : State) : Option Event := do
  let d ← t.get? (← s.program[s.pc]?)
  return {
    level := .trace
    message := "executing"
    fields := [("machine", kind.name), ("pc", toString s.pc), ("op", d.name),
      ("holder", s.holder.text)] }

def traceFrom (kind : Kind) (t : Table) (log : Array Event) :
    (limit : Nat) → State → Array Event
  | 0, _ => log
  | limit + 1, s =>
    if s.running then
      let log := match executing? kind t s with
        | some event => log.push event
        | none => log
      match t.step s with
      | .ok _ s => traceFrom kind t log limit s
      | .error _ _ => log
    else log

variable (vm : Vm)

def kind : Kind := vm.machine.table.kind

def loadEvents (program : Bytes) : List Event :=
  if vm.config.debug then
    [⟨.debug, "loading program",
      [("machine", vm.kind.name), ("bytes", toString program.length)]⟩]
  else []

def stepEvents : List Event :=
  if vm.config.trace then (executing? vm.kind vm.machine.table vm.state).toList else []

def endEvent (run : Run) : Event :=
  let machine := ("machine", vm.kind.name)
  let executed := ("executed", toString run.executed)
  match run.ending with
  | .faulted fault =>
    ⟨.debug, "execution faulted",
      [machine, ("pc", toString run.state.pc), executed, ("error", fault.message)]⟩
  | _ =>
    ⟨.debug, "execution completed",
      [machine, executed, ("result", resultText run.state.result?)]⟩

def stepsEvents (count : Nat) : List Event :=
  if vm.config.trace then
    (traceFrom vm.kind vm.machine.table #[] count vm.state).toList
  else []

def runEvents : List Event :=
  vm.stepsEvents stepLimit ++ if vm.config.debug then [vm.endEvent vm.run.1] else []

end Vm

end DualMachine
