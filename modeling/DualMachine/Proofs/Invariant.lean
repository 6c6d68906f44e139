import DualMachine.Proofs.Operation

/-!
# What every state of a machine satisfies

A fault leaves the state as far as the instruction got: the counter may stand inside
an instruction, operands may be gone. `Vm.Sound` is what holds of every state all the
same, whatever the table, the bytes and the operands. `Exec.Keeps` says of a
computation that it keeps an invariant on each of its exits, so that a step or a run
can follow a faulted one.

Every operation but `Exec.call` keeps `Sound` wherever it is used. A call keeps it
after its own bytes only: the return address it remembers is then the end of a call.
-/

namespace DualMachine

/-! ## Computations that keep an invariant on every exit -/

namespace Exec

variable {α β : Type}

/-- A computation keeps an invariant, whether it faults or not. -/
def Keeps (I : State → Prop) (x : Exec α) : Prop := ∀ s, I s → I (x.after s)

namespace Keeps

variable {I : State → Prop}

theorem pure (a : α) : Keeps I (Pure.pure a : Exec α) := by
  intro s hs
  exact hs

theorem throw (fault : Fault) : Keeps I (throw fault : Exec α) := by
  intro s hs
  exact hs

theorem ofExcept (x : Except Fault α) : Keeps I (Exec.ofExcept x) := by
  cases x with
  | ok a => exact Keeps.pure a
  | error fault => exact Keeps.throw fault

theorem bind {x : Exec α} {f : α → Exec β} (hx : Keeps I x) (hf : ∀ a, Keeps I (f a)) :
    Keeps I (x >>= f) := by
  intro s hs
  have hafter := hx s hs
  cases h : x s with
  | ok a s' =>
      rw [after_of_ok h] at hafter
      rw [after_bind_of_ok h]
      exact hf a s' hafter
  | error fault s' =>
      rw [after_of_error h] at hafter
      rw [after_of_error (bind_error_eq h f)]
      exact hafter

theorem ite {p : Prop} [Decidable p] {x : Exec Unit} (hx : Keeps I x) :
    Keeps I (if p then x else Pure.pure ()) := by
  split
  · exact hx
  · exact Keeps.pure ()

/-- A computation that looks at the state first. -/
theorem get_bind {f : State → Exec β} (hf : ∀ s, I s → I ((f s).after s)) :
    Keeps I ((get : Exec State) >>= f) := by
  intro s hs
  rw [after, get_bind_eq]
  exact hf s hs

end Keeps

end Exec

/-! ## The invariant -/

/-- Operands of the variant that a storage has, with as many registers as configured. -/
def Storage.Holds (count : Nat) : Storage → Holder → Prop
  | .registers, .registers file => file.size = count
  | .stack, .stack _ => True
  | _, _ => False

theorem Storage.holds_fresh (count : Nat) (storage : Storage) :
    storage.Holds count (storage.fresh count) := by
  cases storage with
  | registers => exact Array.size_replicate
  | stack => trivial

/-- Whether an action is the call of its machine. -/
def Action.isCall : Action → Bool
  | .register .call | .stack .call => true
  | _ => false

/-- A whole call instruction ends at the position: its opcode and the four bytes of
its target. -/
def Table.CallBefore (t : Table) (program : Bytes) (back : Nat) : Prop :=
  5 ≤ back ∧ back ≤ program.length ∧
    ∃ opcode d, program[back - 5]? = some opcode ∧ t.get? opcode = some d ∧ d.action.isCall

/-- What holds of a state of a machine that was started with a program. -/
structure Vm.Sound (m : Machine) (config : Config) (program : Bytes) (s : State) : Prop where
  program_eq : s.program = program.toArray
  pc_le : s.pc ≤ program.length
  calls : ∀ back ∈ s.calls, m.table.CallBefore program back
  holder : m.storage.Holds config.registers s.holder

namespace Vm.Sound

variable {m : Machine} {config : Config} {program : Bytes} {s : State}

theorem start (m : Machine) (config : Config) (program : Bytes) :
    Sound m config program (m.start config program) where
  program_eq := rfl
  pc_le := Nat.zero_le _
  calls := by simp [Machine.start, State.initial]
  holder := m.storage.holds_fresh config.registers

theorem size_eq (hs : Sound m config program s) : s.program.size = program.length := by
  rw [hs.program_eq, List.size_toArray]

theorem moved (hs : Sound m config program s) {pc : Nat} (hpc : pc ≤ s.program.size) :
    Sound m config program { s with pc } :=
  { hs with pc_le := hs.size_eq ▸ hpc }

theorem held (hs : Sound m config program s) {holder : Holder}
    (hholder : m.storage.Holds config.registers holder) :
    Sound m config program { s with holder } :=
  { hs with holder := hholder }

theorem stack (hs : Sound m config program s) {before values : List Word}
    (hholder : s.holder = .stack before) :
    Sound m config program { s with holder := .stack values } := by
  refine hs.held ?_
  have hstack := hs.holder
  rw [hholder] at hstack
  cases hstorage : m.storage with
  | registers => rw [hstorage] at hstack; exact hstack
  | stack => trivial

theorem registers (hs : Sound m config program s) {before file : Array Word}
    (hholder : s.holder = .registers before) (hsize : file.size = before.size) :
    Sound m config program { s with holder := .registers file } := by
  refine hs.held ?_
  have hfile := hs.holder
  rw [hholder] at hfile
  cases hstorage : m.storage with
  | stack => rw [hstorage] at hfile; exact hfile
  | registers =>
      rw [hstorage] at hfile
      exact hsize.trans hfile

end Vm.Sound

/-! ## The operations -/

namespace Exec.Keeps

variable {m : Machine} {config : Config} {program : Bytes}

theorem fetchByte : Keeps (Vm.Sound m config program) Exec.fetchByte := by
  refine get_bind fun s hs => ?_
  cases hb : s.program[s.pc]? with
  | none => exact hs
  | some b =>
      obtain ⟨hlt, -⟩ := Array.getElem?_eq_some_iff.mp hb
      exact hs.moved hlt

theorem fetchWord : Keeps (Vm.Sound m config program) Exec.fetchWord := by
  refine get_bind fun s hs => ?_
  by_cases hle : s.pc + 4 ≤ s.program.size
  · rw [if_pos hle]
    exact hs.moved hle
  · rw [if_neg hle]
    exact hs

theorem readRegister (r : UInt8) : Keeps (Vm.Sound m config program) (Exec.readRegister r) := by
  refine get_bind fun s hs => ?_
  cases s.holder with
  | stack values => exact hs
  | registers file =>
      cases hw : file[r.toNat]? with
      | none => simp only [hw]; exact hs
      | some w => simp only [hw]; exact hs

theorem writeRegister (r : UInt8) (w : Word) :
    Keeps (Vm.Sound m config program) (Exec.writeRegister r w) := by
  refine get_bind fun s hs => ?_
  cases hholder : s.holder with
  | stack values => exact hs
  | registers file =>
      by_cases hr : r.toNat < file.size
      · simp only [dif_pos hr]
        exact hs.registers hholder (Array.size_set hr)
      · simp only [dif_neg hr]
        exact hs

theorem push (w : Word) : Keeps (Vm.Sound m config program) (Exec.push w) := by
  refine get_bind fun s hs => ?_
  cases hholder : s.holder with
  | registers file => exact hs
  | stack values => exact hs.stack hholder

theorem pop : Keeps (Vm.Sound m config program) Exec.pop := by
  refine get_bind fun s hs => ?_
  rcases hholder : s.holder with file | (_ | ⟨w, values⟩)
  · exact hs
  · exact hs
  · exact hs.stack hholder

theorem peek : Keeps (Vm.Sound m config program) Exec.peek := by
  refine get_bind fun s hs => ?_
  rcases s.holder with file | (_ | ⟨w, values⟩) <;> exact hs

theorem compute (op : Alu) (a b : Word) :
    Keeps (Vm.Sound m config program) (Exec.compute op a b) := by
  rw [Exec.compute]
  cases op.eval a b with
  | some w => exact Keeps.pure w
  | none => exact Keeps.throw _

theorem jumpTo (target : Int) : Keeps (Vm.Sound m config program) (Exec.jumpTo target) := by
  refine get_bind fun s hs => ?_
  by_cases hbound : 0 ≤ target ∧ target ≤ s.program.size
  · rw [if_pos hbound]
    exact hs.moved (by omega)
  · rw [if_neg hbound]
    exact hs

theorem jumpBy (offset : Word) : Keeps (Vm.Sound m config program) (Exec.jumpBy offset) :=
  get_bind fun s hs => jumpTo (s.pc + offset.toInt) s hs

theorem ret : Keeps (Vm.Sound m config program) Exec.ret := by
  refine get_bind fun s hs => ?_
  cases hcalls : s.calls with
  | nil => exact hs
  | cons back rest =>
      obtain ⟨⟨-, hback, -⟩, hrest⟩ := List.forall_mem_cons.mp (hcalls ▸ hs.calls)
      exact { hs with pc_le := hback, calls := hrest }

theorem halt : Keeps (Vm.Sound m config program) Exec.halt := by
  intro s hs
  exact hs.moved (Nat.le_refl _)

theorem load (logical : Word) (isGlobal : Bool) :
    Keeps (Vm.Sound m config program) (Exec.load logical isGlobal) :=
  get_bind fun s hs => bind (ofExcept (s.address logical isGlobal)) (fun _ => Keeps.pure _) s hs

theorem store (logical : Word) (isGlobal : Bool) (w : Word) :
    Keeps (Vm.Sound m config program) (Exec.store logical isGlobal w) := by
  refine get_bind fun s hs => ?_
  cases h : s.address logical isGlobal with
  | error fault => exact hs
  | ok a => exact { hs with }

/-- A call where a call instruction ends. -/
theorem sound_after_call {s : State} {target : Word} (hs : Vm.Sound m config program s)
    (hpc : m.table.CallBefore program s.pc) :
    Vm.Sound m config program ((Exec.call target).after s) := by
  have hjump := jumpTo target.toInt s hs
  cases h : Exec.jumpTo target.toInt s with
  | error fault s' =>
      rw [after_of_error h] at hjump
      rw [Exec.call, after, get_bind_eq, bind_error_eq h]
      exact hjump
  | ok _ s' =>
      rw [after_of_ok h] at hjump
      rw [Exec.call, after, get_bind_eq, bind_eq h]
      exact { hjump with calls := List.forall_mem_cons.mpr ⟨hpc, hjump.calls⟩ }

/-! ## Instructions -/

theorem register {op : Register.Op} (hop : op ≠ .call) :
    Keeps (Vm.Sound m config program) (Action.register op).perform := by
  cases op <;> simp only [Action.perform, Register.Op.fetch, bind_assoc, pure_bind]
  case mov => exact fetchByte.bind fun dst => fetchWord.bind fun w => writeRegister dst w
  case alu op =>
    refine fetchByte.bind fun dst => fetchByte.bind fun lhs => fetchByte.bind fun rhs => ?_
    refine (readRegister lhs).bind fun a => (readRegister rhs).bind fun b => ?_
    exact (compute op a b).bind fun w => writeRegister dst w
  case not =>
    refine fetchByte.bind fun dst => fetchByte.bind fun src => ?_
    exact (readRegister src).bind fun a => writeRegister dst (~~~a)
  case jump => exact fetchWord.bind fun offset => jumpBy offset
  case cjump =>
    refine fetchByte.bind fun cond => fetchWord.bind fun offset => ?_
    exact (readRegister cond).bind fun a => ite (jumpBy offset)
  case load =>
    refine fetchByte.bind fun dst => fetchByte.bind fun address => fetchByte.bind fun flag => ?_
    refine (readRegister address).bind fun a => (readRegister flag).bind fun g => ?_
    exact (load a (g != 0)).bind fun w => writeRegister dst w
  case store =>
    refine fetchByte.bind fun src => fetchByte.bind fun address => fetchByte.bind fun flag => ?_
    refine (readRegister src).bind fun w => (readRegister address).bind fun a => ?_
    exact (readRegister flag).bind fun g => store a (g != 0) w
  case dup =>
    refine fetchByte.bind fun dst => fetchByte.bind fun src => ?_
    exact (readRegister src).bind fun a => writeRegister dst a
  case call => exact absurd rfl hop
  case ret => exact ret
  case swap =>
    refine fetchByte.bind fun r => fetchByte.bind fun q => ?_
    refine (readRegister r).bind fun x => (readRegister q).bind fun y => ?_
    exact (writeRegister r y).bind fun _ => writeRegister q x
  case halt => exact halt

theorem stack {op : Stack.Op} (hop : op ≠ .call) :
    Keeps (Vm.Sound m config program) (Action.stack op).perform := by
  cases op <;> simp only [Action.perform, Stack.Op.fetch, bind_assoc, pure_bind]
  case push => exact fetchWord.bind fun w => push w
  case pop => exact pop.bind fun _ => Keeps.pure ()
  case alu op =>
    exact pop.bind fun a => pop.bind fun b => (compute op a b).bind fun w => push w
  case not => exact pop.bind fun a => push (~~~a)
  case jump => exact pop.bind fun offset => jumpBy offset
  case cjump => exact pop.bind fun offset => pop.bind fun cond => ite (jumpBy offset)
  case load =>
    exact pop.bind fun g => pop.bind fun a => (load a (g != 0)).bind fun w => push w
  case store => exact pop.bind fun g => pop.bind fun a => pop.bind fun w => store a (g != 0) w
  case dup => exact peek.bind fun w => push w
  case call => exact absurd rfl hop
  case ret => exact ret
  case swap =>
    exact pop.bind fun a => pop.bind fun b => (push a).bind fun _ => push b
  case halt => exact halt

/-- Every action but the calls of the two machines. -/
theorem perform {a : Action} (ha : a.isCall = false) :
    Keeps (Vm.Sound m config program) a.perform := by
  cases a with
  | register op => exact register (by rintro rfl; cases ha)
  | stack op => exact stack (by rintro rfl; cases ha)

end Exec.Keeps

/-! ## Steps and runs -/

theorem Action.perform_of_isCall {a : Action} (ha : a.isCall = true) :
    a.perform = Exec.fetchWord >>= Exec.call := by
  cases a with
  | register op =>
      cases op <;> cases ha
      simp only [perform, Register.Op.fetch, bind_assoc, pure_bind]
      rfl
  | stack op =>
      cases op <;> cases ha
      simp only [perform, Stack.Op.fetch, bind_assoc, pure_bind]
      rfl

namespace Vm.Sound

variable {m : Machine} {config : Config} {program : Bytes} {s : State}

/-- A call that is reached at its own opcode. -/
theorem call {opcode : UInt8} {d : Descriptor} (hs : Sound m config program s)
    (hopcode : program[s.pc]? = some opcode) (hd : m.table.get? opcode = some d)
    (hcall : d.action.isCall = true) :
    Sound m config program (d.action.perform.after (s.skip 1)) := by
  obtain ⟨hlt, -⟩ := List.getElem?_eq_some_iff.mp hopcode
  have hs₁ : Sound m config program (s.skip 1) := hs.moved (by rw [hs.size_eq]; exact hlt)
  rw [Action.perform_of_isCall hcall, Exec.after, Exec.fetchWord, bind_assoc, Exec.get_bind_eq]
  by_cases hle : (s.skip 1).pc + 4 ≤ (s.skip 1).program.size
  · rw [if_pos hle]
    have hend : s.pc + 1 + 4 ≤ program.length := hs.size_eq ▸ hle
    refine Exec.Keeps.sound_after_call (hs₁.moved hle) ⟨?_, hend, opcode, d, ?_, hd, hcall⟩
    · exact Nat.le_add_left 5 s.pc
    · exact hopcode
  · rw [if_neg hle]
    exact hs₁

theorem step (hs : Sound m config program s) :
    Sound m config program (m.table.step.after s) := by
  rw [Table.step, Exec.after, Exec.get_bind_eq]
  have hfetch := Exec.Keeps.fetchByte s hs
  cases h : Exec.fetchByte s with
  | error fault s₁ =>
      rw [Exec.after_of_error h] at hfetch
      rw [Exec.bind_error_eq h]
      exact hfetch
  | ok opcode s₁ =>
      rw [Exec.after_of_ok h] at hfetch
      rw [Exec.bind_eq h]
      cases hd : m.table.get? opcode with
      | none => exact hfetch
      | some d =>
          cases hcall : d.action.isCall with
          | false => exact Exec.Keeps.perform hcall s₁ hfetch
          | true =>
              obtain ⟨hopcode, rfl⟩ := Exec.fetchByte_ok h
              rw [hs.program_eq, List.getElem?_toArray] at hopcode
              exact hs.call hopcode hd hcall

theorem run (hs : Sound m config program s) (limit executed : Nat) :
    Sound m config program (m.table.runFrom limit executed s).state := by
  induction limit generalizing executed s with
  | zero => exact hs
  | succ limit ih =>
      rw [Table.runFrom]
      by_cases hrunning : s.running
      · rw [if_pos hrunning]
        have hstep := hs.step
        cases h : m.table.step s with
        | error fault s₁ =>
            rw [Exec.after_of_error h] at hstep
            exact hstep
        | ok _ s₁ =>
            rw [Exec.after_of_ok h] at hstep
            exact ih hstep (executed + 1)
      · rw [if_neg hrunning]
        exact hs

/-- The counter of a state that does not run is at the end of the program. -/
theorem pc_eq (hs : Sound m config program s) (hrunning : s.running = false) :
    s.pc = program.length := by
  rw [State.running, decide_eq_false_iff_not, hs.size_eq] at hrunning
  exact Nat.le_antisymm hs.pc_le (Nat.le_of_not_lt hrunning)

end Vm.Sound

/-- A run ends normally only where there is nothing left to fetch. -/
theorem Table.running_of_finished {t : Table} {limit executed : Nat} {s : State}
    (h : (t.runFrom limit executed s).ending = .finished) :
    (t.runFrom limit executed s).state.running = false := by
  induction limit generalizing executed s with
  | zero =>
      cases hrunning : s.running with
      | true => rw [Table.runFrom, hrunning] at h; cases h
      | false => exact hrunning
  | succ limit ih =>
      rw [Table.runFrom] at h ⊢
      by_cases hrunning : s.running
      · rw [if_pos hrunning] at h ⊢
        cases hstep : t.step s with
        | error fault s₁ => rw [hstep] at h; cases h
        | ok _ s₁ => rw [hstep] at h; exact ih h
      · rw [if_neg hrunning]
        exact Bool.eq_false_of_not_eq_true hrunning

namespace Vm

/-- What can be asked of a machine once a program is loaded. -/
inductive Command where
  | step
  | run
  deriving DecidableEq, Repr

/-- The machine after a command, whether it faulted or not. -/
def obey (vm : Vm) : Command → Vm
  | .step => vm.step.2
  | .run => vm.run.2

theorem step_state (vm : Vm) :
    vm.step.2 = { vm with state := vm.machine.table.step.after vm.state } := by
  rw [step, Exec.after]
  cases vm.machine.table.step vm.state <;> rfl

/-- A command changes the state only and keeps it sound. -/
theorem Sound.obey {vm : Vm} {program : Bytes}
    (h : Sound vm.machine vm.config program vm.state) (command : Command) :
    ∃ s, vm.obey command = { vm with state := s } ∧ Sound vm.machine vm.config program s := by
  cases command with
  | step => exact ⟨_, step_state vm, h.step⟩
  | run => exact ⟨_, rfl, h.run stepLimit 0⟩

theorem Sound.obeyAll (vm : Vm) {program : Bytes}
    (h : Sound vm.machine vm.config program vm.state) (commands : List Command) :
    ∃ s, commands.foldl Vm.obey vm = { vm with state := s } ∧
      Sound vm.machine vm.config program s := by
  induction commands generalizing vm with
  | nil => exact ⟨vm.state, rfl, h⟩
  | cons command commands ih =>
      obtain ⟨s, hobey, hs⟩ := h.obey command
      obtain ⟨s', hrest, hs'⟩ := ih { vm with state := s } hs
      exact ⟨s', by rw [List.foldl_cons, hobey, hrest], hs'⟩

/-- However a machine with a program loaded is stepped and run, and whatever faults on
the way: the counter and the return addresses stay in the program, each return
address behind a call, program and memory size stay, the operands keep their form, and
a run that finishes stops at the end of the program. -/
theorem state_sound_after_commands (m : Machine) (config : Config) (program : Bytes)
    (commands : List Command) :
    let vm := commands.foldl obey ((new m config).load program)
    vm.state.pc ≤ program.length ∧
    (∀ back ∈ vm.state.calls, m.table.CallBefore program back) ∧
    vm.state.program.toList = program ∧
    vm.state.memory.toArray.size = 1024 ∧
    m.storage.Holds config.registers vm.state.holder ∧
    (vm.run.1.ending = .finished → vm.run.2.state.pc = program.length) := by
  intro vm
  have hstart := Sound.start m config program
  obtain ⟨s, hvm, hs⟩ := Sound.obeyAll ((new m config).load program) hstart commands
  have hstate : vm = { (new m config).load program with state := s } := hvm
  rw [hstate]
  refine ⟨hs.pc_le, hs.calls, by rw [hs.program_eq], s.memory.size_toArray, hs.holder, ?_⟩
  intro hfinished
  exact (hs.run stepLimit 0).pc_eq (Table.running_of_finished hfinished)

/-- A call, a push and a halt with two bytes after it. -/
def callPushHalt : Bytes := [19, 5, 0, 0, 0, 0, 1, 0, 0, 0, 22, 0, 1]

/-- The stack machine's instructions on a register file, after two steps. -/
def afterFault : Vm :=
  [Command.step, .step].foldl obey ((new ⟨Stack.table, .registers⟩ {}).load callPushHalt)

/-- The call goes through and the push faults after its bytes. A run from there comes to the `halt`
and finishes, with the counter behind all bytes. -/
theorem state_sound_after_faults :
    afterFault.state.pc = 10 ∧ afterFault.state.calls = [5] ∧
      Stack.table.CallBefore callPushHalt 5 ∧
      afterFault.run.1.ending = .finished ∧ afterFault.run.2.state.pc = 13 := by
  have hcalls : afterFault.state.calls = [5] := by decide +kernel
  have hfinished : afterFault.run.1.ending = .finished := by decide +kernel
  obtain ⟨-, hbefore, -, -, -, hend⟩ :=
    state_sound_after_commands ⟨Stack.table, .registers⟩ {} callPushHalt [.step, .step]
  have hmem : 5 ∈ afterFault.state.calls := by
    rw [hcalls]
    exact List.mem_singleton_self 5
  exact ⟨by decide +kernel, hcalls, hbefore 5 hmem, hfinished, hend hfinished⟩

end Vm

end DualMachine
