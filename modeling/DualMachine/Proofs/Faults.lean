import DualMachine.Proofs.Fetching

/-!
# What a fault leaves

An instruction fetches, reads, pops and checks in its own order, and may fault at each of these
points. It changes memory, calls and registers only when nothing can fail any more: what it has done
up to a fault is to move the counter over its own bytes and to take its operands from the stack.
`State.spend` is the state after so many of both. `Exec.Spends` says that a computation does nothing
else on any of its exits, `Exec.Fails` that it has done nothing else where it faults; a sequence of
the former that ends in one of the latter is again one of the latter (`Exec.Fails.bind`).

So a fault keeps the state, whatever the table, the program and the operands (`fault_keeps_state`).
-/

namespace DualMachine

/-! ## States that have been taken from -/

/-- The operands without the `count` topmost values of a stack. -/
def Holder.drop (count : Nat) : Holder → Holder
  | .registers file => .registers file
  | .stack values => .stack (values.drop count)

/-- The state with `pops` values gone from the stack and the counter moved on by `bytes`. -/
def State.spend (s : State) (pops bytes : Nat) : State :=
  { s with holder := s.holder.drop pops, pc := s.pc + bytes }

theorem Holder.drop_zero (h : Holder) : h.drop 0 = h := by
  cases h <;> rfl

theorem Holder.drop_drop (h : Holder) (m n : Nat) : (h.drop m).drop n = h.drop (m + n) := by
  cases h with
  | registers file => rfl
  | stack values => exact congrArg Holder.stack List.drop_drop

namespace State

variable {s : State} {pops bytes : Nat}

theorem spend_zero (s : State) (bytes : Nat) : s.spend 0 bytes = s.skip bytes := by
  rw [spend, Holder.drop_zero, skip]

theorem spend_none (s : State) : s.spend 0 0 = s := s.spend_zero 0

theorem spend_spend (s : State) (pops bytes pops' bytes' : Nat) :
    (s.spend pops bytes).spend pops' bytes' = s.spend (pops + pops') (bytes + bytes') := by
  simp only [spend, Holder.drop_drop, Nat.add_assoc]

theorem registers?_spend : (s.spend pops bytes).registers? = s.registers? := by
  simp only [registers?, spend]
  cases s.holder <;> rfl

theorem stack?_spend : (s.spend pops bytes).stack? = s.stack?.map (·.drop pops) := by
  simp only [stack?, spend]
  cases s.holder <;> rfl

end State

/-! ## Computations up to a fault -/

namespace Exec

variable {α β : Type} {pops bytes pops' bytes' : Nat}

/-- Whether it faults or not, the computation takes at most `pops` values and `bytes` bytes, and
changes nothing else. -/
def Spends (pops bytes : Nat) (x : Exec α) : Prop :=
  ∀ s, ∃ p ≤ pops, ∃ b ≤ bytes, x.after s = s.spend p b

/-- Where the computation faults, it has taken at most `pops` values and `bytes` bytes, and changed
nothing else. -/
def Fails (pops bytes : Nat) (x : Exec α) : Prop :=
  ∀ s fault s', x s = .error fault s' → ∃ p ≤ pops, ∃ b ≤ bytes, s' = s.spend p b

namespace Spends

/-- A computation that only looks at the state. -/
theorem of_same {x : Exec α} (h : ∀ s, x.after s = s) : Spends 0 0 x :=
  fun s => ⟨0, Nat.le_refl 0, 0, Nat.le_refl 0, (h s).trans s.spend_none.symm⟩

protected theorem pure (a : α) : Spends 0 0 (Pure.pure a : Exec α) := of_same fun _ => rfl

protected theorem bind {x : Exec α} {f : α → Exec β} (hx : Spends pops bytes x)
    (hf : ∀ a, Spends pops' bytes' (f a)) : Spends (pops + pops') (bytes + bytes') (x >>= f) := by
  intro s
  obtain ⟨p, hp, b, hb, hafter⟩ := hx s
  cases h : x s with
  | error fault s₁ =>
      rw [after_of_error h] at hafter
      exact ⟨p, by omega, b, by omega, (after_of_error (bind_error_eq h f)).trans hafter⟩
  | ok a s₁ =>
      rw [after_of_ok h] at hafter
      obtain ⟨p', hp', b', hb', hrest⟩ := hf a s₁
      rw [← after_bind_of_ok h f, hafter, State.spend_spend] at hrest
      exact ⟨p + p', by omega, b + b', by omega, hrest⟩

theorem fetchByte : Spends 0 1 Exec.fetchByte := by
  intro s
  rw [after, Exec.fetchByte, get_bind_eq]
  cases s.program[s.pc]? with
  | none => exact ⟨0, Nat.le_refl 0, 0, Nat.zero_le 1, s.spend_none.symm⟩
  | some b => exact ⟨0, Nat.le_refl 0, 1, Nat.le_refl 1, (s.spend_zero 1).symm⟩

theorem fetchWord : Spends 0 4 Exec.fetchWord := by
  intro s
  rw [after, Exec.fetchWord, get_bind_eq]
  by_cases hle : s.pc + 4 ≤ s.program.size
  · rw [if_pos hle]
    exact ⟨0, Nat.le_refl 0, 4, Nat.le_refl 4, (s.spend_zero 4).symm⟩
  · rw [if_neg hle]
    exact ⟨0, Nat.le_refl 0, 0, Nat.zero_le 4, s.spend_none.symm⟩

theorem readRegister (r : UInt8) : Spends 0 0 (Exec.readRegister r) := by
  refine of_same fun s => ?_
  rw [after, Exec.readRegister, get_bind_eq]
  cases s.holder with
  | stack values => rfl
  | registers file =>
      dsimp only
      cases file[r.toNat]? <;> rfl

theorem pop : Spends 1 0 Exec.pop := by
  intro s
  rw [after, Exec.pop, get_bind_eq]
  rcases hholder : s.holder with file | (_ | ⟨w, values⟩)
  · exact ⟨0, Nat.zero_le 1, 0, Nat.le_refl 0, s.spend_none.symm⟩
  · exact ⟨0, Nat.zero_le 1, 0, Nat.le_refl 0, s.spend_none.symm⟩
  · refine ⟨1, Nat.le_refl 1, 0, Nat.le_refl 0, ?_⟩
    rw [State.spend, hholder]
    rfl

theorem peek : Spends 0 0 Exec.peek := by
  refine of_same fun s => ?_
  rw [after, Exec.peek, get_bind_eq]
  rcases s.holder with file | (_ | ⟨w, values⟩) <;> rfl

theorem compute (op : Alu) (a b : Word) : Spends 0 0 (Exec.compute op a b) := by
  refine of_same fun s => ?_
  rw [after, Exec.compute]
  cases op.eval a b <;> rfl

theorem load (logical : Word) (isGlobal : Bool) : Spends 0 0 (Exec.load logical isGlobal) := by
  refine of_same fun s => ?_
  rw [after, Exec.load, get_bind_eq]
  cases s.address logical isGlobal <;> rfl

end Spends

namespace Fails

theorem mono {x : Exec α} (h : Fails pops bytes x) (hpops : pops ≤ pops')
    (hbytes : bytes ≤ bytes') : Fails pops' bytes' x := by
  intro s fault s' herror
  obtain ⟨p, hp, b, hb, hs'⟩ := h s fault s' herror
  exact ⟨p, hp.trans hpops, b, hb.trans hbytes, hs'⟩

/-- A computation whose faults leave the state as it is. -/
theorem of_same {x : Exec α} (h : ∀ s fault s', x s = .error fault s' → s' = s) :
    Fails 0 0 x :=
  fun s fault s' herror =>
    ⟨0, Nat.le_refl 0, 0, Nat.le_refl 0, (h s fault s' herror).trans s.spend_none.symm⟩

protected theorem pure (a : α) : Fails 0 0 (Pure.pure a : Exec α) :=
  of_same fun _ _ _ h => by cases h

/-- What was taken before a fault adds up. -/
protected theorem bind {x : Exec α} {f : α → Exec β} (hx : Spends pops bytes x)
    (hf : ∀ a, Fails pops' bytes' (f a)) : Fails (pops + pops') (bytes + bytes') (x >>= f) := by
  intro s fault s' h
  obtain ⟨p, hp, b, hb, hafter⟩ := hx s
  rcases bind_error_cases h with herror | ⟨a, s₁, hok, herror⟩
  · rw [after_of_error herror] at hafter
    exact ⟨p, by omega, b, by omega, hafter⟩
  · rw [after_of_ok hok] at hafter
    obtain ⟨p', hp', b', hb', hs'⟩ := hf a s₁ fault s' herror
    rw [hafter, State.spend_spend] at hs'
    exact ⟨p + p', by omega, b + b', by omega, hs'⟩

theorem ite {c : Prop} [Decidable c] {x : Exec Unit} (hx : Fails pops bytes x) :
    Fails pops bytes (if c then x else Pure.pure ()) := by
  split
  · exact hx
  · exact (Fails.pure ()).mono (Nat.zero_le pops) (Nat.zero_le bytes)

theorem writeRegister (r : UInt8) (w : Word) : Fails 0 0 (Exec.writeRegister r w) := by
  refine of_same fun s fault s' h => ?_
  rw [Exec.writeRegister, get_bind_eq] at h
  cases hholder : s.holder with
  | stack values =>
      rw [hholder] at h
      exact (EStateM.Result.error.inj h).2.symm
  | registers file =>
      rw [hholder] at h
      by_cases hr : r.toNat < file.size
      · simp only [dif_pos hr] at h
        cases h
      · simp only [dif_neg hr] at h
        exact (EStateM.Result.error.inj h).2.symm

theorem push (w : Word) : Fails 0 0 (Exec.push w) := by
  refine of_same fun s fault s' h => ?_
  rw [Exec.push, get_bind_eq] at h
  cases hholder : s.holder with
  | registers file =>
      rw [hholder] at h
      exact (EStateM.Result.error.inj h).2.symm
  | stack values =>
      rw [hholder] at h
      cases h

theorem jumpTo (target : Int) : Fails 0 0 (Exec.jumpTo target) := by
  refine of_same fun s fault s' h => ?_
  rw [Exec.jumpTo, get_bind_eq] at h
  by_cases hbound : 0 ≤ target ∧ target ≤ s.program.size
  · rw [if_pos hbound] at h
    cases h
  · rw [if_neg hbound] at h
    exact (EStateM.Result.error.inj h).2.symm

theorem jumpBy (offset : Word) : Fails 0 0 (Exec.jumpBy offset) := by
  intro s fault s' h
  rw [Exec.jumpBy, get_bind_eq] at h
  exact jumpTo _ s fault s' h

/-- The return address is remembered after the target has been checked. -/
theorem call (target : Word) : Fails 0 0 (Exec.call target) := by
  intro s fault s' h
  rw [Exec.call, get_bind_eq] at h
  rcases bind_error_cases h with hjump | ⟨_, s₁, -, hset⟩
  · exact jumpTo _ s fault s' hjump
  · cases hset

theorem ret : Fails 0 0 Exec.ret := by
  refine of_same fun s fault s' h => ?_
  rw [Exec.ret, get_bind_eq] at h
  cases hcalls : s.calls with
  | nil =>
      rw [hcalls] at h
      exact (EStateM.Result.error.inj h).2.symm
  | cons back rest =>
      rw [hcalls] at h
      cases h

theorem halt : Fails 0 0 Exec.halt := of_same fun _ _ _ h => by cases h

theorem store (logical : Word) (isGlobal : Bool) (w : Word) :
    Fails 0 0 (Exec.store logical isGlobal w) := by
  refine of_same fun s fault s' h => ?_
  rw [Exec.store, get_bind_eq] at h
  cases haddress : s.address logical isGlobal with
  | error cause =>
      rw [haddress] at h
      exact (EStateM.Result.error.inj h).2.symm
  | ok a =>
      rw [haddress] at h
      cases h

/-- Two pushes both fail or both succeed. -/
theorem push_push (a b : Word) : Fails 0 0 (Exec.push a >>= fun _ => Exec.push b) := by
  intro s fault s' h
  rcases bind_error_cases h with hfirst | ⟨_, s₁, hfirst, hsecond⟩
  · exact push a s fault s' hfirst
  · obtain ⟨values, -, rfl⟩ := push_ok hfirst
    cases (push_eq rfl b).symm.trans hsecond

end Fails

theorem Spends.fails {x : Exec α} (h : Spends pops bytes x) : Fails pops bytes x := by
  intro s fault s' herror
  obtain ⟨p, hp, b, hb, hafter⟩ := h s
  exact ⟨p, hp, b, hb, (after_of_error herror).symm.trans hafter⟩

theorem readRegister_ok {r : UInt8} {w : Word} {s s' : State} (h : readRegister r s = .ok w s') :
    s' = s ∧ ∃ file, s.holder = .registers file ∧ file[r.toNat]? = some w := by
  rw [← bind_pure (readRegister r)] at h
  obtain ⟨file, v, hfile, hv, h⟩ := readRegister_bind h
  obtain ⟨rfl, rfl⟩ := EStateM.Result.ok.inj h
  exact ⟨rfl, file, hfile, hv⟩

/-- A register that has been read can be written, so that the second write of an exchange does not
fault when the first has been made. -/
theorem Fails.exchange (r q : UInt8) (x : Word) :
    Fails 0 0 (Exec.readRegister q >>= fun y =>
      Exec.writeRegister r y >>= fun _ => Exec.writeRegister q x) := by
  intro s fault s' h
  rcases bind_error_cases h with hread | ⟨y, s₁, hread, hwrites⟩
  · exact (Spends.readRegister q).fails s fault s' hread
  · obtain ⟨rfl, file, hfile, hq⟩ := readRegister_ok hread
    rcases bind_error_cases hwrites with hfirst | ⟨_, s₂, hfirst, hsecond⟩
    · exact Fails.writeRegister r y s₁ fault s' hfirst
    · obtain ⟨_, hfile₂, -, rfl⟩ := writeRegister_ok hfirst
      obtain rfl := Holder.registers.inj (hfile.symm.trans hfile₂)
      obtain ⟨hlt, -⟩ := Array.getElem?_eq_some_iff.mp hq
      have hsize : q.toNat < (file.setIfInBounds r.toNat y).size := by
        rwa [Array.size_setIfInBounds]
      cases (writeRegister_eq rfl hsize x).symm.trans hsecond

end Exec

/-! ## Instructions -/

open Exec (Spends Fails)

/-- How many values an operation takes from the stack. -/
def Stack.Op.pops : Stack.Op → Nat
  | .pop | .not | .jump => 1
  | .alu _ | .cjump | .load | .swap => 2
  | .store => 3
  | .push | .dup | .call | .ret | .halt => 0

theorem Stack.Op.pops_le (op : Stack.Op) : op.pops ≤ 3 := by
  cases op <;> simp [pops]

/-- How many values an action takes from a stack at most: those of the register machine leave a stack
alone. -/
def Action.maxPops : Action → Nat
  | .register _ => 0
  | .stack _ => 3

theorem Action.maxPops_le (a : Action) : a.maxPops ≤ 3 := by
  cases a <;> simp [maxPops]

/-- An instruction of the register machine checks all it needs before its first change. -/
theorem Register.Instr.exec_fails (i : Register.Instr) : Fails 0 0 i.exec := by
  cases i with
  | mov dst w => exact .writeRegister dst w
  | alu op dst lhs rhs =>
      exact .bind (.readRegister lhs) fun a => .bind (.readRegister rhs) fun b =>
        .bind (.compute op a b) fun w => .writeRegister dst w
  | not dst src => exact .bind (.readRegister src) fun a => .writeRegister dst (~~~a)
  | jump offset => exact .jumpBy offset
  | cjump cond offset => exact .bind (.readRegister cond) fun a => .ite (.jumpBy offset)
  | load dst address flag =>
      exact .bind (.readRegister address) fun a => .bind (.readRegister flag) fun g =>
        .bind (.load a (g != 0)) fun w => .writeRegister dst w
  | store src address flag =>
      exact .bind (.readRegister src) fun w => .bind (.readRegister address) fun a =>
        .bind (.readRegister flag) fun g => .store a (g != 0) w
  | dup dst src => exact .bind (.readRegister src) fun a => .writeRegister dst a
  | call target => exact .call target
  | ret => exact .ret
  | swap r q => exact .bind (.readRegister r) fun x => .exchange r q x
  | halt => exact .halt

/-- An instruction of the stack machine takes its operands, checks, then changes the state. -/
theorem Stack.Instr.exec_fails (i : Stack.Instr) : Fails i.op.pops 0 i.exec := by
  cases i with
  | push w => exact .push w
  | pop => exact .bind .pop fun _ => .pure ()
  | alu op =>
      exact .bind .pop fun a => .bind .pop fun b => .bind (.compute op a b) fun w => .push w
  | not => exact .bind .pop fun a => .push (~~~a)
  | jump => exact .bind .pop fun offset => .jumpBy offset
  | cjump => exact .bind .pop fun offset => .bind .pop fun cond => .ite (.jumpBy offset)
  | load =>
      exact .bind .pop fun g => .bind .pop fun a => .bind (.load a (g != 0)) fun w => .push w
  | store =>
      exact .bind .pop fun g => .bind .pop fun a => .bind .pop fun w => .store a (g != 0) w
  | dup => exact .bind .peek fun w => .push w
  | call target => exact .call target
  | ret => exact .ret
  | swap => exact .bind .pop fun a => .bind .pop fun b => .push_push a b
  | halt => exact .halt

theorem Register.Op.fetch_spends (op : Register.Op) :
    Spends 0 op.descriptor.immediateLength op.fetch := by
  cases op with
  | ret | halt => exact .pure _
  | jump | call => exact .bind .fetchWord fun _ => .pure _
  | mov | cjump => exact .bind .fetchByte fun _ => .bind .fetchWord fun _ => .pure _
  | not | dup | swap => exact .bind .fetchByte fun _ => .bind .fetchByte fun _ => .pure _
  | alu _ | load | store =>
      exact .bind .fetchByte fun _ => .bind .fetchByte fun _ => .bind .fetchByte fun _ => .pure _

theorem Stack.Op.fetch_spends (op : Stack.Op) :
    Spends 0 op.descriptor.immediateLength op.fetch := by
  cases op with
  | push | call => exact .bind .fetchWord fun _ => .pure _
  | _ => exact .pure _

/-- An action that faults has taken operands and read immediates. -/
theorem Action.perform_fails (a : Action) :
    Fails a.maxPops a.descriptor.immediateLength a.perform := by
  cases a with
  | register op => exact .bind op.fetch_spends fun i => i.exec_fails
  | stack op =>
      exact (Fails.bind op.fetch_spends fun i => i.exec_fails.mono i.op.pops_le (Nat.le_refl 0)).mono
        (Nat.le_refl 3) (Nat.le_refl _)

/-! ## Steps -/

namespace Table

variable {t : Table} {s s' : State} {fault : Fault}

/-- A step that faults has found no byte, no instruction, or an instruction that faults. -/
theorem step_error_cases (h : t.step s = .error fault s') :
    s.program[s.pc]? = none ∧ s' = s ∨
    ∃ opcode, s.program[s.pc]? = some opcode ∧
      (t.get? opcode = none ∧ s' = s.skip 1 ∨
        ∃ d, t.get? opcode = some d ∧ ∃ p ≤ d.action.maxPops,
          ∃ b ≤ d.action.descriptor.immediateLength, s' = s.spend p (1 + b)) := by
  rw [step, Exec.get_bind_eq] at h
  rcases bind_error_cases h with hfetch | ⟨opcode, s₁, hfetch, h⟩
  · rw [Exec.fetchByte, Exec.get_bind_eq] at hfetch
    cases hbyte : s.program[s.pc]? with
    | none =>
        simp only [hbyte] at hfetch
        exact .inl ⟨rfl, (EStateM.Result.error.inj hfetch).2.symm⟩
    | some b =>
        simp only [hbyte] at hfetch
        cases hfetch
  · obtain ⟨hbyte, rfl⟩ := Exec.fetchByte_ok hfetch
    refine .inr ⟨opcode, hbyte, ?_⟩
    cases hd : t.get? opcode with
    | none =>
        rw [hd] at h
        exact .inl ⟨rfl, (EStateM.Result.error.inj h).2.symm⟩
    | some d =>
        rw [hd] at h
        obtain ⟨p, hp, b, hb, rfl⟩ := d.action.perform_fails _ _ _ h
        refine .inr ⟨d, rfl, p, hp, b, hb, ?_⟩
        rw [← s.spend_zero 1, State.spend_spend, Nat.zero_add]

end Table

/-- A step that faults keeps memory, pending calls, program and registers, takes at most three values
from the top of a stack (none if the instruction belongs to the register machine), and moves the
counter over bytes of the instruction only: over the opcode if it is unknown, over nothing at the end
of the program, and never beyond the immediates that the operation reads, which are those that its
descriptor declares in the tables of both machines. -/
theorem fault_keeps_state {t : Table} {s s' : State} {fault : Fault}
    (h : t.step s = .error fault s') :
    s'.memory = s.memory ∧ s'.calls = s.calls ∧ s'.program = s.program ∧
    s'.registers? = s.registers? ∧
    (∀ values, s.stack? = some values →
      ∃ taken rest, taken.length ≤ 3 ∧ values = taken ++ rest ∧ s'.stack? = some rest) ∧
    s.pc ≤ s'.pc ∧
    (s.program.size ≤ s.pc → s'.pc = s.pc) ∧
    ∀ opcode, s.program[s.pc]? = some opcode →
      (t.get? opcode = none → s'.pc = s.pc + 1) ∧
      ∀ d, t.get? opcode = some d →
        (∀ op, d.action = .register op → s'.stack? = s.stack?) ∧
        s'.pc ≤ s.pc + d.action.descriptor.length ∧
        (d.sizes = d.action.descriptor.sizes → s'.pc ≤ s.pc + d.length) := by
  have hcases := t.step_error_cases h
  have hspent : ∃ p ≤ 3, ∃ b, s' = s.spend p b := by
    rcases hcases with ⟨-, hs'⟩ | ⟨opcode, -, ⟨-, hs'⟩ | ⟨d, -, p, hp, b, -, hs'⟩⟩
    · exact ⟨0, Nat.zero_le 3, 0, hs'.trans s.spend_none.symm⟩
    · exact ⟨0, Nat.zero_le 3, 1, hs'.trans (s.spend_zero 1).symm⟩
    · exact ⟨p, hp.trans d.action.maxPops_le, 1 + b, hs'⟩
  obtain ⟨p, hp, b, hs'⟩ := hspent
  refine ⟨by rw [hs']; rfl, by rw [hs']; rfl, by rw [hs']; rfl, ?_, fun values hvalues => ?_, ?_, ?_,
    ?_⟩
  · rw [hs', State.registers?_spend]
  · refine ⟨values.take p, values.drop p, ?_, (List.take_append_drop p values).symm, ?_⟩
    · exact (List.length_take_le p values).trans hp
    · rw [hs', State.stack?_spend, hvalues]
      rfl
  · rw [hs']
    exact Nat.le_add_right s.pc b
  · intro hend
    rcases hcases with ⟨-, rfl⟩ | ⟨opcode, hbyte, -⟩
    · rfl
    · obtain ⟨hlt, -⟩ := Array.getElem?_eq_some_iff.mp hbyte
      omega
  · intro opcode hopcode
    rcases hcases with ⟨hnone, -⟩ | ⟨_, hbyte, hcases⟩
    · cases hnone.symm.trans hopcode
    obtain rfl := Option.some.inj (hbyte.symm.trans hopcode)
    rcases hcases with ⟨hunknown, rfl⟩ | ⟨d, hd, p, hp, b, hb, rfl⟩
    · refine ⟨fun _ => rfl, fun d hd => ?_⟩
      cases hunknown.symm.trans hd
    · refine ⟨fun hunknown => ?_, fun d' hd' => ?_⟩
      · cases hunknown.symm.trans hd
      obtain rfl := Option.some.inj (hd.symm.trans hd')
      have hpc : (s.spend p (1 + b)).pc ≤ s.pc + d.action.descriptor.length :=
        Nat.add_le_add_left (Nat.add_le_add_left hb 1) s.pc
      refine ⟨fun op hop => ?_, hpc, fun hsizes => ?_⟩
      · rw [hop] at hp
        rw [Nat.le_zero.mp hp, State.stack?_spend]
        simp
      · rwa [Descriptor.length, Descriptor.immediateLength, hsizes]

/-- Instructions of both machines. -/
def mixed : Table :=
  (Table.ofDescriptors .stack [Register.Op.descriptor .mov, Stack.Op.descriptor .store]
    ).toOption.get rfl

/-- A stack before the `mov` of the register machine and a `store` beyond memory. -/
def misfit : State := .initial (.stack [0, 2000, 7, 9]) [0, 1, 5, 0, 0, 0, 13]

/-- The `mov` faults behind its immediates and leaves the stack alone; the `store` faults with its three
operands gone. -/
theorem fault_keeps_state_mixed :
    mixed.step misfit = .error (.storageMismatch .registers) (misfit.skip 6) ∧
    (misfit.skip 6).stack? = misfit.stack? ∧
    (misfit.skip 6).pc ≤ misfit.pc + (Register.Op.descriptor .mov).length ∧
    mixed.step (misfit.skip 6) = .error (.addressOutOfRange 2000) (misfit.spend 3 7) ∧
    (misfit.spend 3 7).memory = misfit.memory ∧
    ∃ taken rest, taken.length ≤ 3 ∧ [0, 2000, 7, 9] = taken ++ rest ∧
      (misfit.spend 3 7).stack? = some rest := by
  have hmov : mixed.step misfit = .error (.storageMismatch .registers) (misfit.skip 6) := rfl
  have hstore : mixed.step (misfit.skip 6)
      = .error (.addressOutOfRange 2000) (misfit.spend 3 7) := rfl
  obtain ⟨-, -, -, -, -, -, -, hdecoded⟩ := fault_keeps_state hmov
  obtain ⟨hstack, -, hpc⟩ := (hdecoded 0 rfl).2 _ rfl
  obtain ⟨hmemory, -, -, -, htaken, -⟩ := fault_keeps_state hstore
  exact ⟨hmov, hstack _ rfl, hpc rfl, hstore, hmemory, htaken _ rfl⟩

end DualMachine
