import DualMachine.Proofs.Operation

/-!
# What an instruction depends on

An instruction that only computes sees the operands, the memory and the number of pending
calls, and changes the first two. Where in a program it stands, and where the pending
calls return to, makes no difference to it: `Exec.Local` says so of a computation, faults
included. Every instruction that does not transfer control is local
(`Operation.exec_local`). A jump or a branch is a local decision, `Operation.branch`, and a
move of the counter by the offset that was decided on (`Operation.exec_eq_branch`).

So the counter after a step is the end of the instruction unless control is transferred
(`Operation.exec_pc`), and no instruction faults as decoding does
(`Operation.exec_error`).
-/

namespace DualMachine

/-- Whether a fault says where in a program it arose. -/
def Fault.positioned : Fault → Bool
  | .callStackUnderflow _ | .invalidProgramCounter _ | .unknownOpcode .. |
    .truncatedInstruction _ => true
  | _ => false

/-- Whether a fault says that there is no whole instruction at the counter. -/
def Fault.ofDecoding : Fault → Bool
  | .unknownOpcode .. | .truncatedInstruction _ => true
  | _ => false

/-- States with the same operands and memory and equally many pending calls. -/
structure State.Alike (s s' : State) : Prop where
  holder : s'.holder = s.holder
  memory : s'.memory = s.memory
  depth : s'.depth = s.depth

namespace State.Alike

variable {s s' : State}

theorem refl (s : State) : Alike s s := ⟨rfl, rfl, rfl⟩

theorem eq (h : Alike s s') : { s' with holder := s.holder, memory := s.memory } = s' := by
  rw [← h.holder, ← h.memory]

theorem with_work (h : Alike s s') (holder : Holder) (memory : Vector Word memorySize) :
    Alike { s with holder, memory } { s' with holder, memory } :=
  ⟨rfl, rfl, h.depth⟩

theorem address_eq (h : Alike s s') (logical : Word) (isGlobal : Bool) :
    s'.address logical isGlobal = s.address logical isGlobal := by
  have hbase : s'.frameBase isGlobal = s.frameBase isGlobal := by
    unfold State.frameBase
    rw [h.depth]
  simp only [State.address, hbase]

end State.Alike

namespace Exec

variable {α β : Type}

/-- A computation on operands and memory: what it gives and what it leaves of them is the
same from all states that are alike, and it changes nothing else. -/
def Local (x : Exec α) : Prop := ∀ s : State,
  (∃ a holder memory, ∀ s', s.Alike s' → x s' = .ok a { s' with holder, memory }) ∨
  ∃ fault holder memory, fault.positioned = false ∧
    ∀ s', s.Alike s' → x s' = .error fault { s' with holder, memory }

namespace Local

protected theorem pure (a : α) : Local (pure a : Exec α) := by
  intro s
  refine .inl ⟨a, s.holder, s.memory, fun s' h => ?_⟩
  rw [h.eq]
  rfl

protected theorem throw {fault : Fault} (h : fault.positioned = false) :
    Local (throw fault : Exec α) := by
  intro s
  refine .inr ⟨fault, s.holder, s.memory, h, fun s' h => ?_⟩
  rw [h.eq]
  rfl

protected theorem bind {x : Exec α} {f : α → Exec β} (hx : Local x) (hf : ∀ a, Local (f a)) :
    Local (x >>= f) := by
  intro s
  rcases hx s with ⟨a, holder, memory, ha⟩ | ⟨fault, holder, memory, hfault, hx⟩
  · rcases hf a { s with holder, memory } with
      ⟨b, holder', memory', hb⟩ | ⟨fault, holder', memory', hfault, hb⟩
    · refine .inl ⟨b, holder', memory', fun s' h => ?_⟩
      rw [bind_eq (ha s' h), hb _ (h.with_work holder memory)]
    · refine .inr ⟨fault, holder', memory', hfault, fun s' h => ?_⟩
      rw [bind_eq (ha s' h), hb _ (h.with_work holder memory)]
  · refine .inr ⟨fault, holder, memory, hfault, fun s' h => ?_⟩
    rw [bind_error_eq (hx s' h)]

/-- A computation that looks at what alike states have in common. -/
theorem get_bind {f : State → Exec α} (heq : ∀ s s', s.Alike s' → f s' s' = f s s')
    (hf : ∀ s, Local (f s)) : Local (get >>= f) := by
  intro s
  have hsame : ∀ s', s.Alike s' → (get >>= f) s' = f s s' := fun s' h => heq s s' h
  rcases hf s s with ⟨a, holder, memory, ha⟩ | ⟨fault, holder, memory, hfault, ha⟩
  · exact .inl ⟨a, holder, memory, fun s' h => (hsame s' h).trans (ha s' h)⟩
  · exact .inr ⟨fault, holder, memory, hfault, fun s' h => (hsame s' h).trans (ha s' h)⟩

theorem frame {x : Exec α} (hx : Local x) {a : α} {s s' : State} (h : x s = .ok a s') :
    ∃ holder memory, s' = { s with holder, memory } := by
  rcases hx s with ⟨b, holder, memory, hb⟩ | ⟨fault, holder, memory, -, hb⟩
  · rw [hb s (.refl s)] at h
    exact ⟨holder, memory, (EStateM.Result.ok.inj h).2.symm⟩
  · rw [hb s (.refl s)] at h
    cases h

theorem not_positioned {x : Exec α} (hx : Local x) {fault : Fault} {s s' : State}
    (h : x s = .error fault s') : fault.positioned = false := by
  rcases hx s with ⟨b, holder, memory, hb⟩ | ⟨other, holder, memory, hother, hb⟩
  · rw [hb s (.refl s)] at h
    cases h
  · rw [hb s (.refl s)] at h
    rw [← (EStateM.Result.error.inj h).1, hother]

/-! ### Operations -/

theorem readRegister (r : UInt8) : Local (Exec.readRegister r) := by
  refine get_bind (fun s s' h => by rw [h.holder]) fun s => ?_
  cases s.holder with
  | stack values => exact Local.throw rfl
  | registers file =>
      dsimp only
      cases file[r.toNat]? with
      | none => exact Local.throw rfl
      | some w => exact Local.pure w

theorem writeRegister (r : UInt8) (w : Word) : Local (Exec.writeRegister r w) := by
  intro s
  cases hholder : s.holder with
  | stack values =>
      refine .inr ⟨.storageMismatch .registers, s.holder, s.memory, rfl, fun s' h => ?_⟩
      rw [h.eq, Exec.writeRegister, get_bind_eq, h.holder, hholder]
      rfl
  | registers file =>
      by_cases hr : r.toNat < file.size
      · refine .inl ⟨(), .registers (file.setIfInBounds r.toNat w), s.memory, fun s' h => ?_⟩
        rw [writeRegister_eq (h.holder.trans hholder) hr, ← h.memory]
      · refine .inr ⟨.invalidRegister r, s.holder, s.memory, rfl, fun s' h => ?_⟩
        rw [h.eq, Exec.writeRegister, get_bind_eq, h.holder, hholder]
        simp only [dif_neg hr]
        rfl

theorem push (w : Word) : Local (Exec.push w) := by
  intro s
  cases hholder : s.holder with
  | registers file =>
      refine .inr ⟨.storageMismatch .stack, s.holder, s.memory, rfl, fun s' h => ?_⟩
      rw [h.eq, Exec.push, get_bind_eq, h.holder, hholder]
      rfl
  | stack values =>
      refine .inl ⟨(), .stack (w :: values), s.memory, fun s' h => ?_⟩
      rw [push_eq (h.holder.trans hholder), ← h.memory]

theorem pop : Local Exec.pop := by
  intro s
  rcases hholder : s.holder with file | (_ | ⟨w, values⟩)
  · refine .inr ⟨.storageMismatch .stack, s.holder, s.memory, rfl, fun s' h => ?_⟩
    rw [h.eq, Exec.pop, get_bind_eq, h.holder, hholder]
    rfl
  · refine .inr ⟨.stackUnderflow, s.holder, s.memory, rfl, fun s' h => ?_⟩
    rw [h.eq, Exec.pop, get_bind_eq, h.holder, hholder]
    rfl
  · refine .inl ⟨w, .stack values, s.memory, fun s' h => ?_⟩
    rw [pop_eq (h.holder.trans hholder), ← h.memory]

theorem peek : Local Exec.peek := by
  refine get_bind (fun s s' h => by rw [h.holder]) fun s => ?_
  rcases s.holder with file | (_ | ⟨w, values⟩)
  · exact Local.throw rfl
  · exact Local.throw rfl
  · exact Local.pure w

theorem compute (op : Alu) (a b : Word) : Local (Exec.compute op a b) := by
  unfold Exec.compute
  cases op.eval a b with
  | none => exact Local.throw rfl
  | some w => exact Local.pure w

theorem address (s : State) (logical : Word) (isGlobal : Bool) :
    Local (Exec.ofExcept (s.address logical isGlobal)) := by
  unfold State.address
  dsimp only
  split
  · exact Local.pure _
  · exact Local.throw rfl

theorem load (logical : Word) (isGlobal : Bool) : Local (Exec.load logical isGlobal) := by
  refine get_bind (fun s s' h => ?_) fun s => ?_
  · rw [h.address_eq, h.memory]
  · exact (address s logical isGlobal).bind fun _ => Local.pure _

theorem store (logical : Word) (isGlobal : Bool) (w : Word) :
    Local (Exec.store logical isGlobal w) := by
  intro s
  cases haddress : s.address logical isGlobal with
  | error fault =>
      obtain ⟨physical, rfl⟩ : ∃ physical, fault = .addressOutOfRange physical := by
        unfold State.address at haddress
        dsimp only at haddress
        split at haddress
        · cases haddress
        · exact ⟨_, (Except.error.inj haddress).symm⟩
      refine .inr ⟨.addressOutOfRange physical, s.holder, s.memory, rfl, fun s' h => ?_⟩
      rw [h.eq, Exec.store, get_bind_eq, h.address_eq, haddress]
      rfl
  | ok a =>
      refine .inl ⟨(), s.holder, s.memory.set a w a.isLt, fun s' h => ?_⟩
      rw [Exec.store, get_bind_eq, h.address_eq, haddress, ← h.holder, ← h.memory]
      rfl

end Local

theorem jumpTo_error {target : Int} {fault : Fault} {s s' : State}
    (h : jumpTo target s = .error fault s') : fault = .invalidProgramCounter target := by
  rw [jumpTo, get_bind_eq] at h
  by_cases hbound : 0 ≤ target ∧ target ≤ s.program.size
  · simp only [if_pos hbound] at h
    cases h
  · simp only [if_neg hbound] at h
    exact (EStateM.Result.error.inj h).1.symm

/-- Moves the counter by an offset, if there is one. -/
def follow : Option Word → Exec Unit
  | some offset => jumpBy offset
  | none => pure ()

end Exec

/-! ## Instructions -/

/-- Whether an instruction of the role goes on behind itself. -/
def Role.straight : Role → Bool
  | .constant | .compute | .load | .store => true
  | _ => false

/-- Whether an instruction of the role moves the counter by an offset. -/
def Role.relative : Role → Bool
  | .jump | .branch => true
  | _ => false

/-- Takes the operands of a jump or a branch: the offset to go by, if any. -/
def Register.Instr.branch : Register.Instr → Exec (Option Word)
  | .jump offset => return some offset
  | .cjump cond offset => do
    return if (← Exec.readRegister cond) ≠ 0 then some offset else none
  | _ => return none

/-- Takes the operands of a jump or a branch: the offset to go by, if any. -/
def Stack.Instr.branch : Stack.Instr → Exec (Option Word)
  | .jump => return some (← Exec.pop)
  | .cjump => do
    let offset ← Exec.pop
    let cond ← Exec.pop
    return if cond ≠ 0 then some offset else none
  | _ => return none

namespace Operation

open Exec (Local)

@[inherit_doc Register.Instr.branch]
def branch : Operation → Exec (Option Word)
  | .register i => i.branch
  | .stack i => i.branch

/-- The offset that a jump or a branch goes by with the given operands, if it does. -/
def taken? : Operation → Holder → Option Word
  | .register (.jump offset), _ => some offset
  | .register (.cjump cond offset), .registers file =>
    file[cond.toNat]?.bind fun c => if c ≠ 0 then some offset else none
  | .stack .jump, .stack (offset :: _) => some offset
  | .stack .cjump, .stack (offset :: cond :: _) => if cond ≠ 0 then some offset else none
  | _, _ => none

variable {op : Operation} {s s' : State}

theorem exec_local (h : op.role.straight = true) : Local op.exec := by
  cases op with
  | register i =>
      cases i with
      | mov dst w => exact .writeRegister dst w
      | alu alu dst lhs rhs =>
          exact (Local.readRegister lhs).bind fun a => (Local.readRegister rhs).bind fun b =>
            (Local.compute alu a b).bind fun w => .writeRegister dst w
      | not dst src => exact (Local.readRegister src).bind fun _ => .writeRegister dst _
      | load dst address flag =>
          exact (Local.readRegister address).bind fun a => (Local.readRegister flag).bind fun g =>
            (Local.load a (g != 0)).bind fun w => .writeRegister dst w
      | store src address flag =>
          exact (Local.readRegister src).bind fun w => (Local.readRegister address).bind fun a =>
            (Local.readRegister flag).bind fun g => .store a (g != 0) w
      | dup dst src => exact (Local.readRegister src).bind fun _ => .writeRegister dst _
      | swap r q =>
          exact (Local.readRegister r).bind fun x => (Local.readRegister q).bind fun y =>
            (Local.writeRegister r y).bind fun _ => .writeRegister q x
      | _ => cases h
  | stack i =>
      cases i with
      | push w => exact .push w
      | pop => exact Local.pop.bind fun _ => .pure ()
      | alu alu =>
          exact Local.pop.bind fun a => Local.pop.bind fun b =>
            (Local.compute alu a b).bind fun w => .push w
      | not => exact Local.pop.bind fun _ => .push _
      | load =>
          exact Local.pop.bind fun g => Local.pop.bind fun a =>
            (Local.load a (g != 0)).bind fun w => .push w
      | store =>
          exact Local.pop.bind fun g => Local.pop.bind fun a => Local.pop.bind fun w =>
            .store a (g != 0) w
      | dup => exact Local.peek.bind fun w => .push w
      | swap =>
          exact Local.pop.bind fun a => Local.pop.bind fun b =>
            (Local.push a).bind fun _ => .push b
      | _ => cases h

theorem branch_local (op : Operation) : Local op.branch := by
  cases op with
  | register i =>
      cases i with
      | cjump cond offset => exact (Local.readRegister cond).bind fun _ => .pure _
      | _ => exact .pure _
  | stack i =>
      cases i with
      | jump => exact Local.pop.bind fun _ => .pure _
      | cjump => exact Local.pop.bind fun _ => Local.pop.bind fun _ => .pure _
      | _ => exact .pure _

/-- A jump or a branch decides, then moves the counter. -/
theorem exec_eq_branch (h : op.role.relative = true) : op.exec = op.branch >>= Exec.follow := by
  have hite : ∀ (c : Prop) [Decidable c] (offset : Word),
      Exec.follow (if c then some offset else none)
        = if c then Exec.jumpBy offset else pure () := by
    intro c _ offset
    split <;> rfl
  cases op with
  | register i =>
      cases i with
      | jump offset => rfl
      | cjump cond offset =>
          simp only [exec, Register.Instr.exec, branch, Register.Instr.branch, bind_assoc,
            pure_bind, hite]
      | _ => cases h
  | stack i =>
      cases i with
      | jump =>
          simp only [exec, Stack.Instr.exec, branch, Stack.Instr.branch, bind_assoc, pure_bind,
            Exec.follow]
      | cjump =>
          simp only [exec, Stack.Instr.exec, branch, Stack.Instr.branch, bind_assoc, pure_bind,
            hite]
      | _ => cases h

/-- What is decided is what the operands say. -/
theorem taken?_of_branch {decision : Option Word} (hrole : op.role.relative = true)
    (h : op.branch s = .ok decision s') : decision = op.taken? s.holder := by
  cases op with
  | register i =>
      cases i with
      | jump offset => exact (EStateM.Result.ok.inj h).1.symm
      | cjump cond offset =>
          obtain ⟨file, c, hfile, hc, h⟩ := Exec.readRegister_bind h
          have htaken : (Operation.register (.cjump cond offset)).taken? s.holder
              = if c ≠ 0 then some offset else none := by
            rw [hfile]
            exact (congrArg (Option.bind · _) hc).trans rfl
          exact (EStateM.Result.ok.inj h).1.symm.trans htaken.symm
      | _ => cases hrole
  | stack i =>
      cases i with
      | jump =>
          obtain ⟨offset, values, hstack, h⟩ := Exec.pop_bind h
          rw [hstack]
          exact (EStateM.Result.ok.inj h).1.symm
      | cjump =>
          obtain ⟨offset, _, hstack, h⟩ := Exec.pop_bind h
          obtain ⟨c, values, hrest, h⟩ := Exec.pop_bind h
          obtain rfl := Holder.stack.inj hrest
          rw [hstack]
          exact (EStateM.Result.ok.inj h).1.symm
      | _ => cases hrole

theorem relative_of_taken? {holder : Holder} {offset : Word}
    (h : op.taken? holder = some offset) : op.role.relative = true := by
  cases op with
  | register i =>
      cases i with
      | jump | cjump => rfl
      | _ => cases h
  | stack i =>
      cases i with
      | jump | cjump => rfl
      | _ => cases h

/-- The counter after an instruction that neither calls, returns nor halts. -/
theorem exec_pc (h : op.exec s = .ok () s') :
    (op.role.straight = true → s'.pc = s.pc) ∧
    (op.role.relative = true →
      (s'.pc : Int) = s.pc + (op.taken? s.holder).elim 0 (·.toInt)) := by
  constructor
  · intro hrole
    obtain ⟨holder, memory, rfl⟩ := (exec_local hrole).frame h
    rfl
  · intro hrole
    rw [exec_eq_branch hrole] at h
    obtain ⟨decision, t, hbranch, hfollow⟩ := bind_ok_iff.mp h
    obtain ⟨holder, memory, rfl⟩ := op.branch_local.frame hbranch
    rw [← taken?_of_branch hrole hbranch]
    cases decision with
    | none =>
        obtain ⟨-, rfl⟩ := EStateM.Result.ok.inj hfollow
        exact (Int.add_zero _).symm
    | some offset =>
        obtain ⟨pc, hpc, -, rfl⟩ := Exec.jumpBy_ok hfollow
        exact hpc

theorem exec_eq_call (h : op.role = .call) : ∃ target, op.exec = Exec.call target := by
  cases op with
  | register i =>
      cases i with
      | call target => exact ⟨target, rfl⟩
      | _ => cases h
  | stack i =>
      cases i with
      | call target => exact ⟨target, rfl⟩
      | _ => cases h

theorem exec_eq_ret (h : op.role = .ret) : op.exec = Exec.ret := by
  cases op with
  | register i =>
      cases i with
      | ret => rfl
      | _ => cases h
  | stack i =>
      cases i with
      | ret => rfl
      | _ => cases h

theorem exec_eq_halt (h : op.role = .halt) : op.exec = Exec.halt := by
  cases op with
  | register i =>
      cases i with
      | halt => rfl
      | _ => cases h
  | stack i =>
      cases i with
      | halt => rfl
      | _ => cases h

/-- An instruction that has been decoded does not fault as decoding does. -/
theorem exec_error {fault : Fault} (h : op.exec s = .error fault s') :
    fault.ofDecoding = false := by
  have hlocal : fault.positioned = false → fault.ofDecoding = false := by
    intro hfault
    cases fault with
    | unknownOpcode | truncatedInstruction => cases hfault
    | _ => rfl
  cases hrole : op.role with
  | constant | compute | load | store =>
      exact hlocal ((exec_local (by rw [hrole]; rfl)).not_positioned h)
  | jump | branch =>
      rw [exec_eq_branch (by rw [hrole]; rfl)] at h
      rcases bind_error_cases h with herror | ⟨decision, t, -, hfollow⟩
      · exact hlocal (op.branch_local.not_positioned herror)
      · cases decision with
        | none => cases hfollow
        | some offset => rw [Exec.jumpTo_error hfollow]; rfl
  | call =>
      obtain ⟨target, hcall⟩ := exec_eq_call hrole
      rw [hcall, Exec.call, Exec.get_bind_eq] at h
      rcases bind_error_cases h with hjump | ⟨_, _, -, hset⟩
      · rw [Exec.jumpTo_error hjump]
        rfl
      · cases hset
  | ret =>
      rw [exec_eq_ret hrole, Exec.ret, Exec.get_bind_eq] at h
      cases hcalls : s.calls with
      | nil =>
          rw [hcalls] at h
          rw [← (EStateM.Result.error.inj h).1]
          rfl
      | cons back rest =>
          rw [hcalls] at h
          cases h
  | halt =>
      rw [exec_eq_halt hrole] at h
      cases h

end Operation

end DualMachine
