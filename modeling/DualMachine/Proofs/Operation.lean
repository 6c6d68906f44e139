import DualMachine.Proofs.Emission
import DualMachine.Proofs.Encoding

/-!
# What a step carries out

A step decodes an instruction and carries it out. `Table.fetch` is the first half,
`Operation.exec` the second, for any table of operations of the two machines;
`Table.operation?` is the decoded instruction as a function of the state.

`Register.Outcome` and `Stack.Outcome` are the rules of the two machines: what an
instruction that does not fault makes of a state. Every fact about successful steps
is a case analysis over them. The ones all runs share are here: which roles change
the pending calls (`Table.step_calls`), and that memory changes by the word an
access writes and in no other way (`Table.step_memory`).
-/

namespace DualMachine

/-! ## Decoded instructions -/

/-- An instruction of either machine. -/
inductive Operation where
  | register (i : Register.Instr)
  | stack (i : Stack.Instr)
  deriving DecidableEq, Repr

/-- What an instruction is for. -/
inductive Role where
  /-- Puts a constant among the operands. -/
  | constant
  /-- Works on the operands only. -/
  | compute
  | load
  | store
  | jump
  | branch
  | call
  | ret
  | halt
  deriving DecidableEq, Repr

namespace Operation

def exec : Operation → Exec Unit
  | .register i => i.exec
  | .stack i => i.exec

def role : Operation → Role
  | .register (.mov ..) | .stack (.push _) => .constant
  | .register (.load ..) | .stack .load => .load
  | .register (.store ..) | .stack .store => .store
  | .register (.jump _) | .stack .jump => .jump
  | .register (.cjump ..) | .stack .cjump => .branch
  | .register (.call _) | .stack (.call _) => .call
  | .register .ret | .stack .ret => .ret
  | .register .halt | .stack .halt => .halt
  | _ => .compute

end Operation

/-- Reads the operands at the counter. -/
def Action.fetch : Action → Exec Operation
  | .register op => return .register (← op.fetch)
  | .stack op => return .stack (← op.fetch)

namespace Table

/-- Decodes the instruction at the counter. -/
def fetch (t : Table) : Exec Operation := do
  let pc := (← get).pc
  let opcode ← Exec.fetchByte
  match t.get? opcode with
  | some d => d.action.fetch
  | none => throw (.unknownOpcode opcode pc)

/-- The instruction at the counter, if there is a whole one. -/
def operation? (t : Table) (s : State) : Option Operation :=
  match t.fetch s with
  | .ok op _ => some op
  | .error .. => none

/-- The role of the instruction at the counter. -/
def role? (t : Table) (s : State) : Option Role := (t.operation? s).map Operation.role

end Table

theorem Action.perform_eq (a : Action) : a.perform = a.fetch >>= Operation.exec := by
  cases a <;> simp only [perform, fetch, bind_assoc, pure_bind] <;> rfl

theorem Table.step_eq_fetch (t : Table) : t.step = t.fetch >>= Operation.exec := by
  simp only [Table.step, Table.fetch, bind_assoc]
  refine bind_congr fun s => bind_congr fun opcode => ?_
  cases t.get? opcode with
  | none => rfl
  | some d => exact d.action.perform_eq

theorem Table.fetch_eq {t : Table} {d : Descriptor} {s : State} {bs : Bytes}
    (hd : t.get? d.opcode = some d) (h : s.Reads (d.opcode :: bs)) :
    t.fetch s = d.action.fetch (s.skip 1) := by
  rw [Table.fetch, Exec.get_bind_eq, Exec.bind_eq (Exec.fetchByte_eq h)]
  simp only [hd]

/-- An instruction is decoded where its bytes are. -/
theorem Register.operation?_eq {i : Register.Instr} {s : State} (h : s.Reads i.bytes) :
    Register.table.operation? s = some (.register i) := by
  rw [i.bytes_eq] at h
  have hfetch : (Action.register i.op).fetch (s.skip 1)
      = .ok (.register i) ((s.skip 1).skip i.immediates.length) := by
    rw [Action.fetch, Exec.bind_eq (i.fetch_eq h.tail)]
    rfl
  rw [Table.operation?, Table.fetch_eq (d := i.op.descriptor) (Register.get_opcode i.op) h]
  simp only [Register.Op.descriptor, hfetch]

/-- An instruction is decoded where its bytes are. -/
theorem Stack.operation?_eq {i : Stack.Instr} {s : State} (h : s.Reads i.bytes) :
    Stack.table.operation? s = some (.stack i) := by
  rw [i.bytes_eq] at h
  have hfetch : (Action.stack i.op).fetch (s.skip 1)
      = .ok (.stack i) ((s.skip 1).skip i.immediates.length) := by
    rw [Action.fetch, Exec.bind_eq (i.fetch_eq h.tail)]
    rfl
  rw [Table.operation?, Table.fetch_eq (d := i.op.descriptor) (Stack.get_opcode i.op) h]
  simp only [Stack.Op.descriptor, hfetch]

/-! ## The state after a computation -/

namespace Exec

variable {α β : Type}

/-- The state a computation leaves, by whichever exit. -/
def after (x : Exec α) (s : State) : State :=
  match x s with
  | .ok _ s' => s'
  | .error _ s' => s'

theorem after_of_ok {x : Exec α} {a : α} {s s' : State} (h : x s = .ok a s') :
    x.after s = s' := by
  rw [after, h]

theorem after_of_error {x : Exec α} {fault : Fault} {s s' : State}
    (h : x s = .error fault s') : x.after s = s' := by
  rw [after, h]

theorem after_bind_of_ok {x : Exec α} {a : α} {s s' : State} (h : x s = .ok a s')
    (f : α → Exec β) : (x >>= f).after s = (f a).after s' := by
  rw [after, bind_eq h, after]

end Exec

/-! ## Inversion of the operations of a machine -/

namespace Exec

variable {β : Type} {s s' : State} {w : Word} {b : β} {f : Word → Exec β}

theorem ofExcept_ok {α : Type} {x : Except Fault α} {a : α} (h : ofExcept x s = .ok a s') :
    x = .ok a ∧ s' = s := by
  cases x with
  | error fault => cases h
  | ok b => obtain ⟨rfl, rfl⟩ := EStateM.Result.ok.inj h; exact ⟨rfl, rfl⟩

theorem fetchByte_ok {byte : UInt8} (h : fetchByte s = .ok byte s') :
    s.program[s.pc]? = some byte ∧ s' = s.skip 1 := by
  rw [fetchByte, get_bind_eq] at h
  cases hbyte : s.program[s.pc]? with
  | none => simp only [hbyte] at h; cases h
  | some b =>
      simp only [hbyte] at h
      obtain ⟨rfl, rfl⟩ := EStateM.Result.ok.inj h
      exact ⟨rfl, rfl⟩

theorem fetchWord_ok (h : fetchWord s = .ok w s') : s' = s.skip 4 := by
  rw [fetchWord, get_bind_eq] at h
  by_cases hle : s.pc + 4 ≤ s.program.size
  · simp only [if_pos hle] at h
    exact (EStateM.Result.ok.inj h).2.symm
  · simp only [if_neg hle] at h
    cases h

theorem readRegister_bind {r : UInt8} (h : (readRegister r >>= f) s = .ok b s') :
    ∃ file w, s.holder = .registers file ∧ file[r.toNat]? = some w ∧ f w s = .ok b s' := by
  obtain ⟨w, s₁, hread, hf⟩ := bind_ok_iff.mp h
  rw [readRegister, get_bind_eq] at hread
  cases hholder : s.holder with
  | stack values => simp only [hholder] at hread; cases hread
  | registers file =>
      simp only [hholder] at hread
      cases hw : file[r.toNat]? with
      | none => simp only [hw] at hread; cases hread
      | some v =>
          simp only [hw] at hread
          obtain ⟨rfl, rfl⟩ := EStateM.Result.ok.inj hread
          exact ⟨file, v, rfl, hw, hf⟩

theorem writeRegister_ok {r : UInt8} (h : writeRegister r w s = .ok () s') :
    ∃ file, s.holder = .registers file ∧ r.toNat < file.size ∧
      s' = { s with holder := .registers (file.setIfInBounds r.toNat w) } := by
  cases hholder : s.holder with
  | stack values =>
      rw [writeRegister, get_bind_eq] at h
      simp only [hholder] at h
      cases h
  | registers file =>
      by_cases hr : r.toNat < file.size
      · rw [writeRegister_eq hholder hr] at h
        obtain ⟨-, rfl⟩ := EStateM.Result.ok.inj h
        exact ⟨file, rfl, hr, rfl⟩
      · rw [writeRegister, get_bind_eq] at h
        simp only [hholder, dif_neg hr] at h
        cases h

theorem push_ok (h : push w s = .ok () s') :
    ∃ values, s.holder = .stack values ∧ s' = { s with holder := .stack (w :: values) } := by
  cases hholder : s.holder with
  | registers file =>
      rw [push, get_bind_eq] at h
      simp only [hholder] at h
      cases h
  | stack values =>
      rw [push_eq hholder] at h
      obtain ⟨-, rfl⟩ := EStateM.Result.ok.inj h
      exact ⟨values, rfl, rfl⟩

theorem pop_bind (h : (pop >>= f) s = .ok b s') :
    ∃ w values, s.holder = .stack (w :: values) ∧
      f w { s with holder := .stack values } = .ok b s' := by
  obtain ⟨w, s₁, hpop, hf⟩ := bind_ok_iff.mp h
  rw [pop, get_bind_eq] at hpop
  rcases hholder : s.holder with file | (_ | ⟨v, values⟩) <;> simp only [hholder] at hpop
  · cases hpop
  · cases hpop
  · obtain ⟨rfl, rfl⟩ := EStateM.Result.ok.inj hpop
    exact ⟨v, values, rfl, hf⟩

theorem peek_bind (h : (peek >>= f) s = .ok b s') :
    ∃ w values, s.holder = .stack (w :: values) ∧ f w s = .ok b s' := by
  obtain ⟨w, s₁, hpeek, hf⟩ := bind_ok_iff.mp h
  rw [peek, get_bind_eq] at hpeek
  rcases hholder : s.holder with file | (_ | ⟨v, values⟩) <;> simp only [hholder] at hpeek
  · cases hpeek
  · cases hpeek
  · obtain ⟨rfl, rfl⟩ := EStateM.Result.ok.inj hpeek
    exact ⟨v, values, rfl, hf⟩

theorem compute_bind {op : Alu} {x y : Word} (h : (compute op x y >>= f) s = .ok b s') :
    ∃ w, op.eval x y = some w ∧ f w s = .ok b s' := by
  obtain ⟨w, s₁, hcompute, hf⟩ := bind_ok_iff.mp h
  cases hw : op.eval x y with
  | none => rw [compute_error hw] at hcompute; cases hcompute
  | some v =>
      rw [compute_eq hw] at hcompute
      obtain ⟨rfl, rfl⟩ := EStateM.Result.ok.inj hcompute
      exact ⟨v, rfl, hf⟩

theorem jumpTo_ok {target : Int} (h : jumpTo target s = .ok () s') :
    ∃ pc : Nat, (pc : Int) = target ∧ pc ≤ s.program.size ∧ s' = { s with pc } := by
  rw [jumpTo, get_bind_eq] at h
  by_cases hbound : 0 ≤ target ∧ target ≤ s.program.size
  · simp only [if_pos hbound] at h
    obtain ⟨-, rfl⟩ := EStateM.Result.ok.inj h
    exact ⟨target.toNat, by omega, by omega, rfl⟩
  · simp only [if_neg hbound] at h
    cases h

theorem jumpBy_ok {offset : Word} (h : jumpBy offset s = .ok () s') :
    ∃ pc : Nat, (pc : Int) = s.pc + offset.toInt ∧ pc ≤ s.program.size ∧ s' = { s with pc } := by
  rw [jumpBy, get_bind_eq] at h
  exact jumpTo_ok h

theorem call_ok {target : Word} (h : call target s = .ok () s') :
    ∃ pc : Nat, (pc : Int) = target.toInt ∧ pc ≤ s.program.size ∧
      s' = { s with pc, calls := s.pc :: s.calls } := by
  rw [call, get_bind_eq] at h
  obtain ⟨_, s₁, hjump, h⟩ := bind_ok_iff.mp h
  obtain ⟨pc, hpc, hle, rfl⟩ := jumpTo_ok hjump
  obtain ⟨-, rfl⟩ := EStateM.Result.ok.inj h
  exact ⟨pc, hpc, hle, rfl⟩

theorem ret_ok (h : ret s = .ok () s') :
    ∃ back rest, s.calls = back :: rest ∧ s' = { s with pc := back, calls := rest } := by
  cases hcalls : s.calls with
  | nil =>
      rw [ret, get_bind_eq] at h
      simp only [hcalls] at h
      cases h
  | cons back rest =>
      rw [ret_eq hcalls] at h
      obtain ⟨-, rfl⟩ := EStateM.Result.ok.inj h
      exact ⟨back, rest, rfl, rfl⟩

theorem load_bind {logical : Word} {isGlobal : Bool}
    (h : (load logical isGlobal >>= f) s = .ok b s') :
    ∃ a, s.address logical isGlobal = .ok a ∧ f (s.memory.get a) s = .ok b s' := by
  obtain ⟨w, s₁, hload, hf⟩ := bind_ok_iff.mp h
  rw [load, get_bind_eq] at hload
  obtain ⟨a, s₂, haddress, hload⟩ := bind_ok_iff.mp hload
  obtain ⟨ha, rfl⟩ := ofExcept_ok haddress
  obtain ⟨rfl, rfl⟩ := EStateM.Result.ok.inj hload
  exact ⟨a, ha, hf⟩

theorem store_ok {logical : Word} {isGlobal : Bool} (h : store logical isGlobal w s = .ok () s') :
    ∃ a, s.address logical isGlobal = .ok a ∧
      s' = { s with memory := s.memory.set a w a.isLt } := by
  rw [store, get_bind_eq] at h
  obtain ⟨a, s₁, haddress, h⟩ := bind_ok_iff.mp h
  obtain ⟨ha, rfl⟩ := ofExcept_ok haddress
  obtain ⟨-, rfl⟩ := EStateM.Result.ok.inj h
  exact ⟨a, ha, rfl⟩

end Exec

/-! ## The rules of the two machines -/

namespace Register

/-- What an instruction makes of a state, where it does not fault. -/
inductive Outcome (s : State) : Instr → State → Prop where
  | mov {file : Array Word} {dst : UInt8} {w : Word} (hfile : s.holder = .registers file)
      (hdst : dst.toNat < file.size) :
      Outcome s (.mov dst w) { s with holder := .registers (file.setIfInBounds dst.toNat w) }
  | alu {file : Array Word} {op : Alu} {dst lhs rhs : UInt8} {a b w : Word}
      (hfile : s.holder = .registers file) (ha : file[lhs.toNat]? = some a)
      (hb : file[rhs.toNat]? = some b) (hw : op.eval a b = some w) :
      Outcome s (.alu op dst lhs rhs)
        { s with holder := .registers (file.setIfInBounds dst.toNat w) }
  | not {file : Array Word} {dst src : UInt8} {a : Word} (hfile : s.holder = .registers file)
      (ha : file[src.toNat]? = some a) :
      Outcome s (.not dst src) { s with holder := .registers (file.setIfInBounds dst.toNat (~~~a)) }
  | jump {offset : Word} {pc : Nat} (hpc : (pc : Int) = s.pc + offset.toInt) :
      Outcome s (.jump offset) { s with pc }
  | branch {cond : UInt8} {offset : Word} {pc : Nat}
      (hpc : (pc : Int) = s.pc + offset.toInt) : Outcome s (.cjump cond offset) { s with pc }
  | stay {cond : UInt8} {offset : Word} : Outcome s (.cjump cond offset) s
  | load {file : Array Word} {dst address isGlobal : UInt8} {a g : Word} {i : Fin memorySize}
      (hfile : s.holder = .registers file) (ha : file[address.toNat]? = some a)
      (hg : file[isGlobal.toNat]? = some g) (hi : s.address a (g != 0) = .ok i)
      (hdst : dst.toNat < file.size) :
      Outcome s (.load dst address isGlobal)
        { s with holder := .registers (file.setIfInBounds dst.toNat (s.memory.get i)) }
  | store {file : Array Word} {src address isGlobal : UInt8} {w a g : Word} {i : Fin memorySize}
      (hfile : s.holder = .registers file) (hw : file[src.toNat]? = some w)
      (ha : file[address.toNat]? = some a) (hg : file[isGlobal.toNat]? = some g)
      (hi : s.address a (g != 0) = .ok i) :
      Outcome s (.store src address isGlobal) { s with memory := s.memory.set i w i.isLt }
  | dup {file : Array Word} {dst src : UInt8} {a : Word} (hfile : s.holder = .registers file)
      (ha : file[src.toNat]? = some a) :
      Outcome s (.dup dst src) { s with holder := .registers (file.setIfInBounds dst.toNat a) }
  | call {target : Word} {pc : Nat} (hpc : (pc : Int) = target.toInt) :
      Outcome s (.call target) { s with pc, calls := s.pc :: s.calls }
  | ret {back : Nat} {rest : List Nat} (hcalls : s.calls = back :: rest) :
      Outcome s .ret { s with pc := back, calls := rest }
  | swap {file : Array Word} {r q : UInt8} {x y : Word} (hfile : s.holder = .registers file)
      (hx : file[r.toNat]? = some x) (hy : file[q.toNat]? = some y) :
      Outcome s (.swap r q)
        { s with holder :=
          .registers ((file.setIfInBounds r.toNat y).setIfInBounds q.toNat x) }
  | halt : Outcome s .halt { s with pc := s.program.size }

/-- The rules say all that an instruction can do without a fault. -/
theorem outcome_of_exec {i : Instr} {s s' : State} (h : i.exec s = .ok () s') :
    Outcome s i s' := by
  cases i with
  | mov dst w =>
      obtain ⟨file, hfile, hdst, rfl⟩ := Exec.writeRegister_ok h
      exact .mov hfile hdst
  | alu op dst lhs rhs =>
      obtain ⟨file, a, hfile, ha, h₁⟩ := Exec.readRegister_bind h
      obtain ⟨_, b, hfile₂, hb, h₂⟩ := Exec.readRegister_bind h₁
      obtain rfl := Holder.registers.inj (hfile.symm.trans hfile₂)
      obtain ⟨w, hw, h₃⟩ := Exec.compute_bind h₂
      obtain ⟨_, hfile₃, -, rfl⟩ := Exec.writeRegister_ok h₃
      obtain rfl := Holder.registers.inj (hfile.symm.trans hfile₃)
      exact .alu hfile ha hb hw
  | not dst src =>
      obtain ⟨file, a, hfile, ha, h₁⟩ := Exec.readRegister_bind h
      obtain ⟨_, hfile₂, -, rfl⟩ := Exec.writeRegister_ok h₁
      obtain rfl := Holder.registers.inj (hfile.symm.trans hfile₂)
      exact .not hfile ha
  | jump offset =>
      obtain ⟨pc, hpc, -, rfl⟩ := Exec.jumpBy_ok h
      exact .jump hpc
  | cjump cond offset =>
      obtain ⟨_, a, -, -, h₁⟩ := Exec.readRegister_bind h
      by_cases hzero : a ≠ 0
      · rw [if_pos hzero] at h₁
        obtain ⟨pc, hpc, -, rfl⟩ := Exec.jumpBy_ok h₁
        exact .branch hpc
      · rw [if_neg hzero] at h₁
        obtain ⟨-, rfl⟩ := EStateM.Result.ok.inj h₁
        exact .stay
  | load dst address isGlobal =>
      obtain ⟨file, a, hfile, ha, h₁⟩ := Exec.readRegister_bind h
      obtain ⟨_, g, hfile₂, hg, h₂⟩ := Exec.readRegister_bind h₁
      obtain rfl := Holder.registers.inj (hfile.symm.trans hfile₂)
      obtain ⟨i, hi, h₃⟩ := Exec.load_bind h₂
      obtain ⟨_, hfile₃, hdst, rfl⟩ := Exec.writeRegister_ok h₃
      obtain rfl := Holder.registers.inj (hfile.symm.trans hfile₃)
      exact .load hfile ha hg hi hdst
  | store src address isGlobal =>
      obtain ⟨file, w, hfile, hw, h₁⟩ := Exec.readRegister_bind h
      obtain ⟨_, a, hfile₂, ha, h₂⟩ := Exec.readRegister_bind h₁
      obtain rfl := Holder.registers.inj (hfile.symm.trans hfile₂)
      obtain ⟨_, g, hfile₃, hg, h₃⟩ := Exec.readRegister_bind h₂
      obtain rfl := Holder.registers.inj (hfile.symm.trans hfile₃)
      obtain ⟨i, hi, rfl⟩ := Exec.store_ok h₃
      exact .store hfile hw ha hg hi
  | dup dst src =>
      obtain ⟨file, a, hfile, ha, h₁⟩ := Exec.readRegister_bind h
      obtain ⟨_, hfile₂, -, rfl⟩ := Exec.writeRegister_ok h₁
      obtain rfl := Holder.registers.inj (hfile.symm.trans hfile₂)
      exact .dup hfile ha
  | call target =>
      obtain ⟨pc, hpc, -, rfl⟩ := Exec.call_ok h
      exact .call hpc
  | ret =>
      obtain ⟨back, rest, hcalls, rfl⟩ := Exec.ret_ok h
      exact .ret hcalls
  | swap r q =>
      obtain ⟨file, x, hfile, hx, h₁⟩ := Exec.readRegister_bind h
      obtain ⟨_, y, hfile₂, hy, h₂⟩ := Exec.readRegister_bind h₁
      obtain rfl := Holder.registers.inj (hfile.symm.trans hfile₂)
      obtain ⟨_, s₁, hfirst, hsecond⟩ := bind_ok_iff.mp h₂
      obtain ⟨_, hfile₃, -, rfl⟩ := Exec.writeRegister_ok hfirst
      obtain rfl := Holder.registers.inj (hfile.symm.trans hfile₃)
      obtain ⟨_, hfile₄, -, rfl⟩ := Exec.writeRegister_ok hsecond
      obtain rfl := Holder.registers.inj hfile₄
      exact .swap hfile hx hy
  | halt =>
      obtain ⟨-, rfl⟩ := EStateM.Result.ok.inj h
      exact .halt

end Register

namespace Stack

/-- What an instruction makes of a state, where it does not fault. -/
inductive Outcome (s : State) : Instr → State → Prop where
  | push {values : List Word} {w : Word} (hstack : s.holder = .stack values) :
      Outcome s (.push w) { s with holder := .stack (w :: values) }
  | pop {values : List Word} {w : Word} (hstack : s.holder = .stack (w :: values)) :
      Outcome s .pop { s with holder := .stack values }
  | alu {values : List Word} {op : Alu} {a b w : Word}
      (hstack : s.holder = .stack (a :: b :: values)) (hw : op.eval a b = some w) :
      Outcome s (.alu op) { s with holder := .stack (w :: values) }
  | not {values : List Word} {a : Word} (hstack : s.holder = .stack (a :: values)) :
      Outcome s .not { s with holder := .stack (~~~a :: values) }
  | jump {values : List Word} {offset : Word} {pc : Nat}
      (hstack : s.holder = .stack (offset :: values))
      (hpc : (pc : Int) = s.pc + offset.toInt) :
      Outcome s .jump { s with holder := .stack values, pc }
  | branch {values : List Word} {offset cond : Word} {pc : Nat}
      (hstack : s.holder = .stack (offset :: cond :: values))
      (hpc : (pc : Int) = s.pc + offset.toInt) :
      Outcome s .cjump { s with holder := .stack values, pc }
  | stay {values : List Word} {offset cond : Word}
      (hstack : s.holder = .stack (offset :: cond :: values)) :
      Outcome s .cjump { s with holder := .stack values }
  | load {values : List Word} {g a : Word} {i : Fin memorySize}
      (hstack : s.holder = .stack (g :: a :: values)) (hi : s.address a (g != 0) = .ok i) :
      Outcome s .load { s with holder := .stack (s.memory.get i :: values) }
  | store {values : List Word} {g a w : Word} {i : Fin memorySize}
      (hstack : s.holder = .stack (g :: a :: w :: values))
      (hi : s.address a (g != 0) = .ok i) :
      Outcome s .store { s with holder := .stack values, memory := s.memory.set i w i.isLt }
  | dup {values : List Word} {w : Word} (hstack : s.holder = .stack (w :: values)) :
      Outcome s .dup { s with holder := .stack (w :: w :: values) }
  | call {target : Word} {pc : Nat} (hpc : (pc : Int) = target.toInt) :
      Outcome s (.call target) { s with pc, calls := s.pc :: s.calls }
  | ret {back : Nat} {rest : List Nat} (hcalls : s.calls = back :: rest) :
      Outcome s .ret { s with pc := back, calls := rest }
  | swap {values : List Word} {a b : Word} (hstack : s.holder = .stack (a :: b :: values)) :
      Outcome s .swap { s with holder := .stack (b :: a :: values) }
  | halt : Outcome s .halt { s with pc := s.program.size }

/-- The rules say all that an instruction can do without a fault. -/
theorem outcome_of_exec {i : Instr} {s s' : State} (h : i.exec s = .ok () s') :
    Outcome s i s' := by
  cases i with
  | push w =>
      obtain ⟨values, hstack, rfl⟩ := Exec.push_ok h
      exact .push hstack
  | pop =>
      obtain ⟨w, values, hstack, h₁⟩ := Exec.pop_bind h
      obtain ⟨-, rfl⟩ := EStateM.Result.ok.inj h₁
      exact .pop hstack
  | alu op =>
      obtain ⟨a, _, hstack, h₁⟩ := Exec.pop_bind h
      obtain ⟨b, values, hstack₂, h₂⟩ := Exec.pop_bind h₁
      obtain rfl := Holder.stack.inj hstack₂
      obtain ⟨w, hw, h₃⟩ := Exec.compute_bind h₂
      obtain ⟨_, hstack₃, rfl⟩ := Exec.push_ok h₃
      obtain rfl := Holder.stack.inj hstack₃
      exact .alu hstack hw
  | not =>
      obtain ⟨a, values, hstack, h₁⟩ := Exec.pop_bind h
      obtain ⟨_, hstack₂, rfl⟩ := Exec.push_ok h₁
      obtain rfl := Holder.stack.inj hstack₂
      exact .not hstack
  | jump =>
      obtain ⟨offset, values, hstack, h₁⟩ := Exec.pop_bind h
      obtain ⟨pc, hpc, -, rfl⟩ := Exec.jumpBy_ok h₁
      exact .jump hstack hpc
  | cjump =>
      obtain ⟨offset, _, hstack, h₁⟩ := Exec.pop_bind h
      obtain ⟨cond, values, hstack₂, h₂⟩ := Exec.pop_bind h₁
      obtain rfl := Holder.stack.inj hstack₂
      by_cases hzero : cond ≠ 0
      · rw [if_pos hzero] at h₂
        obtain ⟨pc, hpc, -, rfl⟩ := Exec.jumpBy_ok h₂
        exact .branch hstack hpc
      · rw [if_neg hzero] at h₂
        obtain ⟨-, rfl⟩ := EStateM.Result.ok.inj h₂
        exact .stay hstack
  | load =>
      obtain ⟨g, _, hstack, h₁⟩ := Exec.pop_bind h
      obtain ⟨a, values, hstack₂, h₂⟩ := Exec.pop_bind h₁
      obtain rfl := Holder.stack.inj hstack₂
      obtain ⟨i, hi, h₃⟩ := Exec.load_bind h₂
      obtain ⟨_, hstack₃, rfl⟩ := Exec.push_ok h₃
      obtain rfl := Holder.stack.inj hstack₃
      exact .load hstack hi
  | store =>
      obtain ⟨g, _, hstack, h₁⟩ := Exec.pop_bind h
      obtain ⟨a, _, hstack₂, h₂⟩ := Exec.pop_bind h₁
      obtain rfl := Holder.stack.inj hstack₂
      obtain ⟨w, values, hstack₃, h₃⟩ := Exec.pop_bind h₂
      obtain rfl := Holder.stack.inj hstack₃
      obtain ⟨i, hi, rfl⟩ := Exec.store_ok h₃
      exact .store hstack hi
  | dup =>
      obtain ⟨w, values, hstack, h₁⟩ := Exec.peek_bind h
      obtain ⟨_, hstack₂, rfl⟩ := Exec.push_ok h₁
      obtain rfl := Holder.stack.inj (hstack.symm.trans hstack₂)
      exact .dup hstack
  | call target =>
      obtain ⟨pc, hpc, -, rfl⟩ := Exec.call_ok h
      exact .call hpc
  | ret =>
      obtain ⟨back, rest, hcalls, rfl⟩ := Exec.ret_ok h
      exact .ret hcalls
  | swap =>
      obtain ⟨a, _, hstack, h₁⟩ := Exec.pop_bind h
      obtain ⟨b, values, hstack₂, h₂⟩ := Exec.pop_bind h₁
      obtain rfl := Holder.stack.inj hstack₂
      obtain ⟨_, s₁, hfirst, hsecond⟩ := bind_ok_iff.mp h₂
      obtain ⟨_, hstack₃, rfl⟩ := Exec.push_ok hfirst
      obtain rfl := Holder.stack.inj hstack₃
      obtain ⟨_, hstack₄, rfl⟩ := Exec.push_ok hsecond
      obtain rfl := Holder.stack.inj hstack₄
      exact .swap hstack
  | halt =>
      obtain ⟨-, rfl⟩ := EStateM.Result.ok.inj h
      exact .halt

end Stack

/-! ## Decoding moves the counter -/

/-- Where a computation succeeds, it has moved the counter and done nothing else. -/
def Exec.Skips {α : Type} (x : Exec α) : Prop :=
  ∀ (s : State) (a : α) (s' : State), x s = .ok a s' → ∃ count, s' = s.skip count

namespace Exec.Skips

variable {α β : Type}

theorem pure (a : α) : Skips (Pure.pure a : Exec α) := by
  intro s a' s' h
  obtain ⟨-, rfl⟩ := EStateM.Result.ok.inj h
  exact ⟨0, rfl⟩

theorem bind {x : Exec α} {f : α → Exec β} (hx : Skips x) (hf : ∀ a, Skips (f a)) :
    Skips (x >>= f) := by
  intro s b s' h
  obtain ⟨a, s₁, hfirst, hrest⟩ := bind_ok_iff.mp h
  obtain ⟨first, rfl⟩ := hx _ _ _ hfirst
  obtain ⟨rest, rfl⟩ := hf a _ _ _ hrest
  exact ⟨first + rest, by simp only [State.skip, Nat.add_assoc]⟩

theorem fetchByte : Skips Exec.fetchByte := fun _ _ _ h => ⟨1, (fetchByte_ok h).2⟩

theorem fetchWord : Skips Exec.fetchWord := fun _ _ _ h => ⟨4, fetchWord_ok h⟩

theorem register (op : Register.Op) : Skips op.fetch := by
  cases op with
  | ret => exact pure _
  | halt => exact pure _
  | jump => exact fetchWord.bind fun _ => pure _
  | call => exact fetchWord.bind fun _ => pure _
  | mov => exact fetchByte.bind fun _ => fetchWord.bind fun _ => pure _
  | cjump => exact fetchByte.bind fun _ => fetchWord.bind fun _ => pure _
  | not => exact fetchByte.bind fun _ => fetchByte.bind fun _ => pure _
  | dup => exact fetchByte.bind fun _ => fetchByte.bind fun _ => pure _
  | swap => exact fetchByte.bind fun _ => fetchByte.bind fun _ => pure _
  | alu _ =>
      exact fetchByte.bind fun _ => fetchByte.bind fun _ => fetchByte.bind fun _ => pure _
  | load =>
      exact fetchByte.bind fun _ => fetchByte.bind fun _ => fetchByte.bind fun _ => pure _
  | store =>
      exact fetchByte.bind fun _ => fetchByte.bind fun _ => fetchByte.bind fun _ => pure _

theorem stack (op : Stack.Op) : Skips op.fetch := by
  cases op with
  | push => exact fetchWord.bind fun _ => pure _
  | call => exact fetchWord.bind fun _ => pure _
  | _ => exact pure _

theorem action (a : Action) : Skips a.fetch := by
  cases a with
  | register op => exact (register op).bind fun _ => pure _
  | stack op => exact (stack op).bind fun _ => pure _

end Exec.Skips

/-- A successful step carries out the instruction at the counter, from behind it. -/
theorem Table.step_ok {t : Table} {s s' : State} (h : t.step s = .ok () s') :
    ∃ op count, t.operation? s = some op ∧ op.exec (s.skip count) = .ok () s' := by
  rw [step_eq_fetch] at h
  obtain ⟨op, s₁, hfetch, hexec⟩ := bind_ok_iff.mp h
  have hop : t.operation? s = some op := by rw [operation?, hfetch]
  rw [fetch, Exec.get_bind_eq] at hfetch
  obtain ⟨opcode, s₂, hbyte, haction⟩ := bind_ok_iff.mp hfetch
  obtain ⟨-, rfl⟩ := Exec.fetchByte_ok hbyte
  cases hd : t.get? opcode with
  | none => rw [hd] at haction; cases haction
  | some d =>
      rw [hd] at haction
      obtain ⟨count, rfl⟩ := Exec.Skips.action d.action _ _ _ haction
      exact ⟨op, 1 + count, hop, by rwa [State.skip, ← Nat.add_assoc]⟩

/-! ## Pending calls -/

/-- Only calls and returns change the pending calls. -/
theorem Operation.exec_calls {op : Operation} {s s' : State} (h : op.exec s = .ok () s') :
    op.role = .call ∧ s'.calls = s.pc :: s.calls ∨
      op.role = .ret ∧ s.calls = s'.pc :: s'.calls ∨
      op.role ≠ .call ∧ op.role ≠ .ret ∧ s'.calls = s.calls := by
  cases op with
  | register i =>
      cases Register.outcome_of_exec h with
      | call => exact .inl ⟨rfl, rfl⟩
      | ret hcalls => exact .inr (.inl ⟨rfl, hcalls⟩)
      | _ => exact .inr (.inr ⟨by rintro ⟨⟩, by rintro ⟨⟩, rfl⟩)
  | stack i =>
      cases Stack.outcome_of_exec h with
      | call => exact .inl ⟨rfl, rfl⟩
      | ret hcalls => exact .inr (.inl ⟨rfl, hcalls⟩)
      | _ => exact .inr (.inr ⟨by rintro ⟨⟩, by rintro ⟨⟩, rfl⟩)

/-- Only calls and returns change the pending calls. -/
theorem Table.step_calls {t : Table} {s s' : State} (h : t.step s = .ok () s') :
    t.role? s = some .call ∧ (∃ back, s'.calls = back :: s.calls) ∨
      t.role? s = some .ret ∧ s.calls = s'.pc :: s'.calls ∨
      t.role? s ≠ some .call ∧ t.role? s ≠ some .ret ∧ s'.calls = s.calls := by
  obtain ⟨op, count, hop, hexec⟩ := step_ok h
  have hrole : t.role? s = some op.role := by rw [role?, hop]; rfl
  rw [hrole]
  rcases Operation.exec_calls hexec with ⟨hcall, hcalls⟩ | ⟨hret, hcalls⟩ | ⟨hcall, hret, hcalls⟩
  · exact .inl ⟨congrArg some hcall, _, hcalls⟩
  · exact .inr (.inl ⟨congrArg some hret, hcalls⟩)
  · refine .inr (.inr ⟨fun h => hcall ?_, fun h => hret ?_, hcalls⟩)
    · exact Option.some.inj h
    · exact Option.some.inj h

/-! ## What no instruction changes -/

theorem State.registers?_eq_some {s : State} {regs : Array Word} :
    s.registers? = some regs ↔ s.holder = .registers regs := by
  unfold State.registers?
  split <;> simp_all

/-- The program is the same after an instruction, and so is the number of registers. -/
theorem Operation.exec_keeps {op : Operation} {s s' : State} (h : op.exec s = .ok () s') :
    s'.program = s.program ∧ s'.registers?.map Array.size = s.registers?.map Array.size := by
  cases op with
  | register i =>
      cases Register.outcome_of_exec h with
      | mov hfile | alu hfile | not hfile | load hfile | dup hfile | swap hfile =>
          exact ⟨rfl, by simp [State.registers?, hfile]⟩
      | _ => exact ⟨rfl, rfl⟩
  | stack i =>
      cases Stack.outcome_of_exec h with
      | call | ret | halt => exact ⟨rfl, rfl⟩
      | _ => exact ⟨rfl, by simp [State.registers?, *]⟩

theorem Table.step_keeps {t : Table} {s s' : State} (h : t.step s = .ok () s') :
    s'.program = s.program ∧ s'.registers?.map Array.size = s.registers?.map Array.size := by
  obtain ⟨op, count, -, hexec⟩ := step_ok h
  have hkeeps := Operation.exec_keeps hexec
  exact hkeeps

/-! ## Accesses to memory -/

theorem State.address_ok_iff {s : State} {logical : Word} {isGlobal : Bool}
    {a : Fin memorySize} :
    s.address logical isGlobal = .ok a ↔ (s.frameBase isGlobal : Int) + logical.toInt = a := by
  unfold State.address
  dsimp only
  split
  · rename_i hbounds
    rw [Except.ok.injEq, Fin.ext_iff]
    constructor
    · intro h
      rw [← h]
      exact (Int.toNat_of_nonneg hbounds.1).symm
    · intro h
      simp only [h, Int.toNat_natCast]
  · rename_i hbounds
    constructor
    · intro h
      cases h
    · intro h
      have ha := a.isLt
      omega

/-- An access to memory, by a logical address. -/
inductive Access where
  | read (logical : Word) (isGlobal : Bool)
  | write (logical : Word) (isGlobal : Bool) (value : Word)
  deriving DecidableEq, Repr

namespace Operation

/-- The access that an instruction makes with the given operands. -/
def access? : Operation → Holder → Option Access
  | .register (.load _ address flag), .registers file => do
    return .read (← file[address.toNat]?) ((← file[flag.toNat]?) != 0)
  | .register (.store src address flag), .registers file => do
    return .write (← file[address.toNat]?) ((← file[flag.toNat]?) != 0) (← file[src.toNat]?)
  | .stack .load, .stack (flag :: address :: _) => some (.read address (flag != 0))
  | .stack .store, .stack (flag :: address :: value :: _) =>
    some (.write address (flag != 0) value)
  | _, _ => none

/-- What a load has put among the operands. -/
def loaded? : Operation → Holder → Option Word
  | .register (.load dst ..), .registers file => file[dst.toNat]?
  | .stack .load, .stack values => values.head?
  | _, _ => none

variable {op : Operation} {s s' : State}

/-- Memory changes by the word that is written and in no other way. -/
theorem exec_memory (h : op.exec s = .ok () s') :
    (∃ logical isGlobal w a, op.access? s.holder = some (.write logical isGlobal w) ∧
        s.address logical isGlobal = .ok a ∧ s'.memory = s.memory.set a w a.isLt) ∨
      (∀ logical isGlobal w, op.access? s.holder ≠ some (.write logical isGlobal w)) ∧
        s'.memory = s.memory := by
  cases op with
  | register i =>
      cases Register.outcome_of_exec h with
      | @store file src address flag w a g i hfile hw ha hg hi =>
          exact .inl ⟨a, g != 0, w, i, by simp [access?, hfile, hw, ha, hg], hi, rfl⟩
      | @load file dst address flag a g i hfile ha hg hi hdst =>
          exact .inr ⟨by simp [access?, hfile, ha, hg], rfl⟩
      | _ => exact .inr ⟨by simp [access?], rfl⟩
  | stack i =>
      cases Stack.outcome_of_exec h with
      | @store values g a w i hstack hi =>
          exact .inl ⟨a, g != 0, w, i, by simp [access?, hstack], hi, rfl⟩
      | @load values g a i hstack hi => exact .inr ⟨by simp [access?, hstack], rfl⟩
      | _ => exact .inr ⟨by simp [access?], rfl⟩

/-- A load puts the word at its address among the operands. -/
theorem exec_read {logical : Word} {isGlobal : Bool} (h : op.exec s = .ok () s')
    (hread : op.access? s.holder = some (.read logical isGlobal)) :
    ∃ a, s.address logical isGlobal = .ok a ∧ op.loaded? s'.holder = some (s.memory.get a) := by
  cases op with
  | register i =>
      cases Register.outcome_of_exec h with
      | @load file dst address flag a g i hfile ha hg hi hdst =>
          simp [access?, hfile, ha, hg] at hread
          obtain ⟨rfl, rfl⟩ := hread
          exact ⟨i, hi, by simp [loaded?, hdst]⟩
      | @store file src address flag w a g i hfile hw ha hg hi =>
          simp [access?, hfile, hw, ha, hg] at hread
      | _ => simp [access?] at hread
  | stack i =>
      cases Stack.outcome_of_exec h with
      | @load values g a i hstack hi =>
          simp [access?, hstack] at hread
          obtain ⟨rfl, rfl⟩ := hread
          exact ⟨i, hi, by simp [loaded?]⟩
      | @store values g a w i hstack hi => simp [access?, hstack] at hread
      | _ => simp [access?] at hread

end Operation

namespace Table

/-- The access of the instruction at the counter. -/
def access? (t : Table) (s : State) : Option Access :=
  (t.operation? s).bind (·.access? s.holder)

/-- What the load at the counter of the first state has given in the second. -/
def loaded? (t : Table) (s s' : State) : Option Word :=
  (t.operation? s).bind (·.loaded? s'.holder)

/-- The instruction at the counter loads the word at a memory index. -/
def Reads (t : Table) (s : State) (a : Fin memorySize) : Prop :=
  ∃ logical isGlobal, t.access? s = some (.read logical isGlobal) ∧
    s.address logical isGlobal = .ok a

/-- The instruction at the counter stores a word at a memory index. -/
def Writes (t : Table) (s : State) (a : Fin memorySize) (w : Word) : Prop :=
  ∃ logical isGlobal, t.access? s = some (.write logical isGlobal w) ∧
    s.address logical isGlobal = .ok a

variable {t : Table} {s s' : State}

theorem access?_eq {op : Operation} (hop : t.operation? s = some op) :
    t.access? s = op.access? s.holder := by
  rw [access?, hop]
  rfl

theorem Writes.unique {a b : Fin memorySize} {w v : Word} (h : t.Writes s a w)
    (h' : t.Writes s b v) : a = b ∧ w = v := by
  obtain ⟨logical, isGlobal, haccess, ha⟩ := h
  obtain ⟨logical', isGlobal', haccess', hb⟩ := h'
  obtain ⟨rfl, rfl, rfl⟩ := Access.write.inj (Option.some.inj (haccess.symm.trans haccess'))
  exact ⟨Except.ok.inj (ha.symm.trans hb), rfl⟩

/-- Memory changes by the word that is written and in no other way. -/
theorem step_memory (h : t.step s = .ok () s') :
    (∃ a w, t.Writes s a w ∧ s'.memory = s.memory.set a w a.isLt) ∨
      (∀ a w, ¬t.Writes s a w) ∧ s'.memory = s.memory := by
  obtain ⟨op, count, hop, hexec⟩ := step_ok h
  rcases Operation.exec_memory hexec with
    ⟨logical, isGlobal, w, a, haccess, ha, hmemory⟩ | ⟨hnone, hmemory⟩
  · exact .inl ⟨a, w, ⟨logical, isGlobal, (access?_eq hop).trans haccess, ha⟩, hmemory⟩
  · refine .inr ⟨?_, hmemory⟩
    rintro a w ⟨logical, isGlobal, haccess, -⟩
    exact hnone logical isGlobal w ((access?_eq hop).symm.trans haccess)

/-- The word that a step writes is in memory after it. -/
theorem Writes.memory_eq {a : Fin memorySize} {w : Word} (hw : t.Writes s a w)
    (h : t.step s = .ok () s') : s'.memory = s.memory.set a w a.isLt := by
  rcases step_memory h with ⟨b, v, hwrites, hmemory⟩ | ⟨hnone, -⟩
  · obtain ⟨rfl, rfl⟩ := hw.unique hwrites
    exact hmemory
  · exact absurd hw (hnone a w)

/-- A word that no step writes stays. -/
theorem step_memory_ne {a : Fin memorySize} (h : t.step s = .ok () s')
    (hne : ∀ w, ¬t.Writes s a w) : s'.memory.get a = s.memory.get a := by
  rcases step_memory h with ⟨b, v, hwrites, hmemory⟩ | ⟨-, hmemory⟩
  · have hba : (b : Nat) ≠ a := fun hba => hne v (Fin.ext hba ▸ hwrites)
    rw [hmemory]
    exact Vector.getElem_set_ne b.isLt a.isLt hba
  · rw [hmemory]

/-- A load gives the word at its address. -/
theorem step_read {logical : Word} {isGlobal : Bool} (h : t.step s = .ok () s')
    (hread : t.access? s = some (.read logical isGlobal)) :
    ∃ a, s.address logical isGlobal = .ok a ∧ t.loaded? s s' = some (s.memory.get a) := by
  obtain ⟨op, count, hop, hexec⟩ := step_ok h
  obtain ⟨a, ha, hloaded⟩ :=
    Operation.exec_read hexec ((access?_eq hop).symm.trans hread)
  refine ⟨a, ha, ?_⟩
  rw [loaded?, hop]
  exact hloaded

theorem Reads.loaded_eq {a : Fin memorySize} (hr : t.Reads s a) (h : t.step s = .ok () s') :
    t.loaded? s s' = some (s.memory.get a) := by
  obtain ⟨logical, isGlobal, haccess, ha⟩ := hr
  obtain ⟨b, hb, hloaded⟩ := step_read h haccess
  rwa [Except.ok.inj (ha.symm.trans hb)]

end Table

end DualMachine
