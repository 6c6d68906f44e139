import DualMachine.Proofs.Execution
import DualMachine.Proofs.Register.Simulation
import DualMachine.Proofs.Stack.Simulation

/-!
# Compiled programs mean what their packages mean

What a session makes of a package, run on a fresh machine, does what the evaluation
of the package's entry point says: it ends with the value exactly when there is
one, and with a division by zero exactly when the evaluation comes to one. This
holds of both backends (`register_program_preserves_meaning`,
`stack_program_preserves_meaning`) as long as no more activations are nested than
memory has frames for. They differ in the order of operands, which shows in the
evaluation that each of them follows.

Beyond 64 activations a program may go on, as long as it does not use frames that
memory does not have. The two machines then still agree on a value
(`programs_agree`); the register machine can fault where the stack machine does not,
since it also keeps registers in its frames.

In all of this, calls pass at least the arguments that the called function declares.
-/

namespace DualMachine

open Source

/-- A fresh machine, with a program loaded, comes to an ending. -/
def Kind.Ends (kind : Kind) (config : Config) (program : Bytes) (ending : Ending) (s : State) :
    Prop :=
  kind.machine.table.Ends (kind.machine.start config program) ending s

/-! ## Backends and their targets -/

namespace RegisterCode

def compiler (file : File) : (target file).Compiler (backend file) where
  generator := generator file
  compileBody_eq := rfl
  preamble_eq _ := rfl
  table_eq := rfl

/-- A fresh register file that is large enough. -/
theorem idle_fresh {file : File} {config : Config} (h : file.count ≤ config.registers) :
    (target file).idle config.registers (Storage.registers.fresh config.registers) :=
  ⟨_, rfl, Array.size_replicate, h⟩

end RegisterCode

namespace StackCode

def compiler : target.Compiler backend where
  generator := generator
  compileBody_eq := rfl
  preamble_eq _ := rfl
  table_eq := rfl

end StackCode

/-! ## Programs within memory -/

/-- Where no nest of activations is too deep, the limit does not matter. -/
theorem Source.Package.NestsWithin.evaluate_eq {p : Package} (hp : p.saturated = true)
    {rightFirst : Bool} {count : Nat} {entry : String}
    (h : p.NestsWithin rightFirst count entry) (fuel : Nat) :
    p.evaluate (.unlimited rightFirst) fuel entry
      = p.evaluate (.nesting rightFirst count) fuel entry := by
  refine p.evaluate_relax hp ?_ ?_ ?_ (h fuel)
  · rfl
  · exact fun _ _ => rfl
  · exact fun _ _ _ => rfl

section

variable {ι : Type} [InstructionSet ι] {T : Target ι} {W : World T} {entry : String}
  {kept : T.Kept} {holder : Holder} (hT : T.Sound) (hp : W.package.saturated = true)
  (hplaced : W.Placed 0 [.call entry, .plain InstructionSet.halt])
  (hidle : T.idle kept holder) (hstrict : W.strict = true)
  (hnest : W.package.NestsWithin T.rightFirst frameCount entry)

namespace World

include hp hstrict hnest in
theorem evaluate_strict (fuel : Nat) :
    W.package.evaluate W.rules fuel entry
      = W.package.evaluate (.unlimited T.rightFirst) fuel entry := by
  rw [hnest.evaluate_eq hp, World.rules, if_pos hstrict]

include hnest in
theorem not_refused (hstrict : W.strict = true) (fuel : Nat) :
    W.package.evaluate W.rules fuel entry ≠ .error .refused := by
  rw [World.rules, if_pos hstrict]
  exact hnest fuel

include hT hp hplaced hidle hstrict hnest

theorem yields_of_ends {s : State}
    (h : (InstructionSet.table ι).Ends (.initial holder (codeBytes W.code)) .finished s) :
    ∃ w, W.package.Yields T.rightFirst entry w ∧ W.Halted kept w s := by
  obtain ⟨n, ⟨w, hw, -, hhalted⟩ | ⟨-, hdiv⟩⟩ := evaluates_of_ends hT hp hplaced hidle
    (not_refused hnest) h (fun heq => nomatch heq) (fun _ heq => nomatch heq)
  · rw [evaluate_strict hp hstrict hnest] at hw
    exact ⟨w, ⟨n, hw⟩, hhalted⟩
  · cases hdiv

theorem ends_of_yields {w : Word} (h : W.package.Yields T.rightFirst entry w) :
    ∃ s, (InstructionSet.table ι).Ends (.initial holder (codeBytes W.code)) .finished s ∧
      W.Halted kept w s := by
  obtain ⟨n, hn⟩ := h
  rw [← evaluate_strict hp hstrict hnest] at hn
  refine (ends_of_value hT hp hplaced hidle hn).resolve_right fun hover => ?_
  exact Bool.false_ne_true (hover.not_strict.symm.trans hstrict)

theorem divides_iff :
    (∃ s, (InstructionSet.table ι).Ends (.initial holder (codeBytes W.code))
      (.faulted .divisionByZero) s) ↔ W.package.Divides T.rightFirst entry := by
  constructor
  · rintro ⟨s, h⟩
    obtain ⟨n, ⟨w, -, hfinished, -⟩ | ⟨hdiv, -⟩⟩ := evaluates_of_ends hT hp hplaced hidle
      (not_refused hnest) h (fun heq => nomatch heq) (fun _ heq => nomatch heq)
    · cases hfinished
    · rw [evaluate_strict hp hstrict hnest] at hdiv
      exact ⟨n, hdiv⟩
  · rintro ⟨n, hn⟩
    rw [← evaluate_strict hp hstrict hnest] at hn
    refine (ends_of_division hT hp hplaced hidle hn).resolve_right fun hover => ?_
    exact Bool.false_ne_true (hover.not_strict.symm.trans hstrict)

end World

end

/-- A package whose entry point divides by the value of a call. -/
def ratio : Package :=
  .mk [] [⟨"double", ["x"], .expression (.binary .add (.identifier "x") (.identifier "x"))⟩,
    ⟨"main", [], .block [.return (.binary .div (.number 24) (.call "double" [.number 3]))]⟩]

/-- Its program for a machine. -/
def ratioProgram (kind : Kind) : Program :=
  match compile ratio kind with
  | .ok program => program
  | .error _ => default

theorem ratio_compiles (kind : Kind) : Compiles kind.backend "main" ratio (ratioProgram kind) := by
  have hok : (compile ratio kind).isOk = true := by cases kind <;> decide +kernel
  refine compiles_of_compile ?_
  rw [ratioProgram]
  cases hcompile : compile ratio kind with
  | ok program => rfl
  | error e => rw [hcompile] at hok; cases hok

theorem ratioProgram_length_lt (kind : Kind) : (ratioProgram kind).bytes.length < 2 ^ 31 := by
  cases kind <;> decide +kernel

theorem ratio_nestsWithin (rightFirst : Bool) : ratio.NestsWithin rightFirst 64 "main" := by
  rintro (_ | _ | fuel) hrefused <;> cases rightFirst <;> cases hrefused

/-- The register machine ends with a value in register 0 and nothing called exactly
when the entry point, evaluated from left to right, has this value, and with a division
by zero exactly when the evaluation comes to one. -/
theorem register_program_preserves_meaning {file : RegisterCode.File} {config : Config}
    {p : Package} {entry : String} {program : Program}
    (hconfig : file.count ≤ config.registers)
    (hcompiles : Compiles (RegisterCode.backend file) entry p program)
    (hsize : program.bytes.length < 2 ^ 31) (hp : p.saturated = true)
    (hnest : p.NestsWithin false 64 entry) :
    (∀ w, (∃ s registers, Kind.register.Ends config program.bytes .finished s ∧
        s.registers? = some registers ∧ registers[0]? = some w ∧ s.calls = []) ↔
      p.Yields false entry w) ∧
    ((∃ s, Kind.register.Ends config program.bytes (.faulted .divisionByZero) s) ↔
      p.Divides false entry) := by
  obtain ⟨W, rfl, hstrict, hbytes, hplaced⟩ :=
    exists_world (RegisterCode.compiler file) hcompiles hsize true
  have hT := RegisterCode.target_sound file
  have hidle := RegisterCode.idle_fresh hconfig
  rw [hbytes]
  refine ⟨fun w => ⟨?_, fun hyields => ?_⟩,
    World.divides_iff hT hp hplaced hidle hstrict hnest⟩
  · rintro ⟨s, registers, hends, hregisters, hw, -⟩
    obtain ⟨v, hv, hhalted⟩ := World.yields_of_ends hT hp hplaced hidle hstrict hnest hends
    obtain ⟨regs, hholder, -, -, hvalue⟩ := hhalted.holder
    rw [State.registers?, hholder] at hregisters
    obtain rfl := Option.some.inj hregisters
    obtain rfl := Option.some.inj (hvalue.symm.trans hw)
    exact hv
  · obtain ⟨s, hends, hhalted⟩ :=
      World.ends_of_yields hT hp hplaced hidle hstrict hnest hyields
    obtain ⟨regs, hholder, -, -, hvalue⟩ := hhalted.holder
    refine ⟨s, regs, hends, ?_, hvalue, hhalted.calls⟩
    rw [State.registers?, hholder]

theorem register_program_ratio : ∃ s registers,
    Kind.register.Ends {} (ratioProgram .register).bytes .finished s ∧
    s.registers? = some registers ∧ registers[0]? = some 4 ∧ s.calls = [] :=
  ((register_program_preserves_meaning (by decide) (ratio_compiles .register)
    (ratioProgram_length_lt .register) (by decide) (ratio_nestsWithin false)).1 4).mpr ⟨2, rfl⟩

/-- The stack machine ends with a value as all of its stack and nothing called exactly
when the entry point, evaluated with right operands first, has this value, and
with a division by zero exactly when the evaluation comes to one. -/
theorem stack_program_preserves_meaning {config : Config} {p : Package} {entry : String}
    {program : Program} (hcompiles : Compiles StackCode.backend entry p program)
    (hsize : program.bytes.length < 2 ^ 31) (hp : p.saturated = true)
    (hnest : p.NestsWithin true 64 entry) :
    (∀ w, (∃ s, Kind.stack.Ends config program.bytes .finished s ∧ s.stack? = some [w] ∧
        s.calls = []) ↔ p.Yields true entry w) ∧
    ((∃ s, Kind.stack.Ends config program.bytes (.faulted .divisionByZero) s) ↔
      p.Divides true entry) := by
  obtain ⟨W, rfl, hstrict, hbytes, hplaced⟩ :=
    exists_world StackCode.compiler hcompiles hsize true
  have hT := StackCode.target_sound
  have hidle : StackCode.target.idle [] (Storage.stack.fresh config.registers) := rfl
  rw [hbytes]
  refine ⟨fun w => ⟨?_, fun hyields => ?_⟩,
    World.divides_iff hT hp hplaced hidle hstrict hnest⟩
  · rintro ⟨s, hends, hstack, -⟩
    obtain ⟨v, hv, hhalted⟩ := World.yields_of_ends hT hp hplaced hidle hstrict hnest hends
    have hholder : s.holder = .stack [v] := hhalted.holder
    rw [State.stack?, hholder] at hstack
    obtain ⟨rfl, -⟩ := List.cons.inj (Option.some.inj hstack)
    exact hv
  · obtain ⟨s, hends, hhalted⟩ :=
      World.ends_of_yields hT hp hplaced hidle hstrict hnest hyields
    have hholder : s.holder = .stack [w] := hhalted.holder
    refine ⟨s, hends, ?_, hhalted.calls⟩
    rw [State.stack?, hholder]

theorem stack_program_ratio : ∃ s,
    Kind.stack.Ends {} (ratioProgram .stack).bytes .finished s ∧ s.stack? = some [4] ∧
    s.calls = [] :=
  ((stack_program_preserves_meaning (ratio_compiles .stack) (ratioProgram_length_lt .stack)
    (by decide) (ratio_nestsWithin true)).1 4).mpr ⟨2, rfl⟩

/-! ## The two machines -/

theorem RegisterCode.result_of_halted {file : File} {W : World (target file)} {size : Nat}
    {w : Word} {s : State} (h : W.Halted size w s) : s.result? = some w := by
  obtain ⟨regs, hholder, -, -, hvalue⟩ := h.holder
  rw [State.result?, hholder]
  exact hvalue

theorem StackCode.result_of_halted {W : World target} {w : Word} {s : State}
    (h : W.Halted [] w s) : s.result? = some w := by
  have hholder : s.holder = .stack [w] := h.holder
  rw [State.result?, hholder]
  rfl

namespace World

variable {ι : Type} [InstructionSet ι] {T : Target ι} {W : World T} {entry : String}
  {kept : T.Kept} {holder : Holder} (hT : T.Sound) (hp : W.package.saturated = true)
  (hplaced : W.Placed 0 [.call entry, .plain InstructionSet.halt])
  (hidle : T.idle kept holder) (hstrict : W.strict = false)

include hstrict in
theorem rules_eq_frames : W.rules = .frames T.rightFirst frameCount := by
  rw [World.rules, hstrict]
  rfl

include hT hp hplaced hidle hstrict in
/-- What a run that ends has to do with the evaluation in which frames are used only as
far as memory has them. -/
theorem value_of_ends {s : State}
    (h : (InstructionSet.table ι).Ends (.initial holder (codeBytes W.code)) .finished s) :
    ∃ n w, W.package.evaluate (.frames T.rightFirst frameCount) n entry = .ok w ∧
      W.Halted kept w s := by
  have hrefused : W.strict = true →
      ∀ n, W.package.evaluate W.rules n entry ≠ .error .refused := fun htrue =>
    absurd (hstrict.symm.trans htrue) Bool.false_ne_true
  obtain ⟨n, ⟨w, hw, -, hhalted⟩ | ⟨-, hdiv⟩⟩ := evaluates_of_ends hT hp hplaced hidle hrefused h
    (fun heq => nomatch heq) (fun _ heq => nomatch heq)
  · rw [rules_eq_frames hstrict] at hw
    exact ⟨n, w, hw, hhalted⟩
  · cases hdiv

end World

/-- If the register machine ends with a result, so does the stack machine. If the stack
machine ends with a result, the register machine ends with the same one, unless
it has no memory left to keep its registers in. -/
theorem programs_agree {file : RegisterCode.File} {config config' : Config} {p : Package}
    {entry : String} {program program' : Program} (hconfig : file.count ≤ config.registers)
    (hregister : Compiles (RegisterCode.backend file) entry p program)
    (hstack : Compiles StackCode.backend entry p program')
    (hsize : program.bytes.length < 2 ^ 31) (hsize' : program'.bytes.length < 2 ^ 31)
    (hp : p.saturated = true) (w : Word) :
    ((∃ s, Kind.register.Ends config program.bytes .finished s ∧ s.result? = some w) →
      ∃ s, Kind.stack.Ends config' program'.bytes .finished s ∧ s.result? = some w) ∧
    ((∃ s, Kind.stack.Ends config' program'.bytes .finished s ∧ s.result? = some w) →
      (∃ s, Kind.register.Ends config program.bytes .finished s ∧ s.result? = some w) ∨
      ∃ address s,
        Kind.register.Ends config program.bytes (.faulted (.addressOutOfRange address)) s) := by
  obtain ⟨W, hW, hstrict, hbytes, hplaced⟩ :=
    exists_world (RegisterCode.compiler file) hregister hsize false
  obtain ⟨W', hW', hstrict', hbytes', hplaced'⟩ :=
    exists_world StackCode.compiler hstack hsize' false
  have hT := RegisterCode.target_sound file
  have hT' := StackCode.target_sound
  have hidle := RegisterCode.idle_fresh hconfig
  have hidle' : StackCode.target.idle [] (Storage.stack.fresh config'.registers) := rfl
  have hpW : W.package.saturated = true := hW ▸ hp
  have hpW' : W'.package.saturated = true := hW' ▸ hp
  rw [hbytes, hbytes']
  constructor
  · rintro ⟨s, hends, hw⟩
    obtain ⟨n, v, hv, hhalted⟩ := World.value_of_ends hT hpW hplaced hidle hstrict hends
    obtain rfl := Option.some.inj ((RegisterCode.result_of_halted hhalted).symm.trans hw)
    -- a value does not depend on the order of operands
    have hother : W'.package.evaluate W'.rules n entry = .ok v := by
      rw [World.rules_eq_frames hstrict', hW', ← hW]
      exact Package.evaluate_order hpW (by rfl) (by rfl) hv
    rcases World.ends_of_value hT' hpW' hplaced' hidle' hother with ⟨s', hends', hhalted'⟩ | hover
    · exact ⟨s', hends', StackCode.result_of_halted hhalted'⟩
    · exact absurd hover.spills Bool.false_ne_true
  · rintro ⟨s, hends, hw⟩
    obtain ⟨n, v, hv, hhalted⟩ := World.value_of_ends hT' hpW' hplaced' hidle' hstrict' hends
    obtain rfl := Option.some.inj ((StackCode.result_of_halted hhalted).symm.trans hw)
    have hother : W.package.evaluate W.rules n entry = .ok v := by
      rw [World.rules_eq_frames hstrict, hW, ← hW']
      exact Package.evaluate_order hpW' (by rfl) (by rfl) hv
    refine (World.ends_of_value hT hpW hplaced hidle hother).imp ?_ fun hover => hover.ends
    rintro ⟨s', hends', hhalted'⟩
    exact ⟨s', hends', RegisterCode.result_of_halted hhalted'⟩

theorem ratio_register_ends : ∃ s,
    Kind.register.Ends {} (ratioProgram .register).bytes .finished s ∧ s.result? = some 4 := by
  have hending : (Kind.register.machine.table.run 40 (Kind.register.machine.start {}
      (ratioProgram .register).bytes)).ending = .finished := by decide +kernel
  exact ⟨_, Table.ends_run hending, by decide +kernel⟩

theorem programs_agree_ratio :
    ∃ s, Kind.stack.Ends {} (ratioProgram .stack).bytes .finished s ∧ s.result? = some 4 :=
  (programs_agree (by decide) (ratio_compiles .register) (ratio_compiles .stack)
    (ratioProgram_length_lt .register) (ratioProgram_length_lt .stack) (by decide) 4).1
    ratio_register_ends

end DualMachine
