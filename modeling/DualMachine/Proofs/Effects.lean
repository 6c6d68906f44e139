import Mathlib
import DualMachine.Vm

/-!
# What the operations of a machine do

One equation for each operation of `Exec` and each of its outcomes that generated
code can have: what it gives and the state after it. Instructions are sequences of
these operations, so the proofs about them chain the equations with `bind_eq` and
never look into an operation.
-/

namespace DualMachine

namespace Exec

variable {α β : Type} {s s' : State}

/-! ## Sequences -/

theorem bind_eq {x : Exec α} {a : α} (h : x s = .ok a s') (f : α → Exec β) :
    (x >>= f) s = f a s' := by
  show EStateM.bind x f s = f a s'
  rw [EStateM.bind, h]

theorem bind_error_eq {x : Exec α} {fault : Fault} (h : x s = .error fault s')
    (f : α → Exec β) : (x >>= f) s = .error fault s' := by
  show EStateM.bind x f s = .error fault s'
  rw [EStateM.bind, h]

theorem get_bind_eq (f : State → Exec β) : ((get : Exec State) >>= f) s = f s s := rfl

/-! ## Control -/

theorem jumpTo_eq {pc : Nat} (hpc : pc ≤ s.program.size) :
    jumpTo pc s = .ok () { s with pc } := by
  have hbound : (0 : Int) ≤ pc ∧ (pc : Int) ≤ s.program.size := by omega
  rw [jumpTo, get_bind_eq]
  simp only [if_pos hbound]
  rfl

theorem jumpBy_eq {offset : Word} {pc : Nat} (hoffset : (pc : Int) = s.pc + offset.toInt)
    (hpc : pc ≤ s.program.size) : jumpBy offset s = .ok () { s with pc } := by
  rw [jumpBy, get_bind_eq, ← hoffset, jumpTo_eq hpc]

theorem call_eq {target : Word} {pc : Nat} (htarget : target.toInt = pc)
    (hpc : pc ≤ s.program.size) :
    call target s = .ok () { s with pc, calls := s.pc :: s.calls } := by
  rw [call, get_bind_eq, htarget, bind_eq (jumpTo_eq hpc)]
  rfl

theorem ret_eq {back : Nat} {rest : List Nat} (hcalls : s.calls = back :: rest) :
    ret s = .ok () { s with pc := back, calls := rest } := by
  rw [ret, get_bind_eq]
  simp only [hcalls]
  rfl

/-! ## Operands -/

theorem readRegister_eq {file : Array Word} {r : UInt8} {w : Word}
    (hholder : s.holder = .registers file) (hw : file[r.toNat]? = some w) :
    readRegister r s = .ok w s := by
  rw [readRegister, get_bind_eq]
  simp only [hholder, hw]
  rfl

theorem writeRegister_eq {file : Array Word} {r : UInt8} (hholder : s.holder = .registers file)
    (hr : r.toNat < file.size) (w : Word) :
    writeRegister r w s = .ok ()
      { s with holder := .registers (file.setIfInBounds r.toNat w) } := by
  rw [writeRegister, get_bind_eq, Array.setIfInBounds_def]
  simp only [hholder, dif_pos hr]
  rfl

theorem push_eq {values : List Word} (hholder : s.holder = .stack values) (w : Word) :
    push w s = .ok () { s with holder := .stack (w :: values) } := by
  rw [push, get_bind_eq]
  simp only [hholder]
  rfl

theorem pop_eq {w : Word} {values : List Word} (hholder : s.holder = .stack (w :: values)) :
    pop s = .ok w { s with holder := .stack values } := by
  rw [pop, get_bind_eq]
  simp only [hholder]
  rfl

theorem compute_eq {op : Alu} {a b w : Word} (h : op.eval a b = some w) :
    compute op a b s = .ok w s := by
  rw [compute, h]
  rfl

theorem compute_error {op : Alu} {a b : Word} (h : op.eval a b = none) :
    compute op a b s = .error .divisionByZero s := by
  rw [compute, h]
  rfl

/-! ## The frame of an activation -/

section

variable {base slot : Nat} (hbase : s.frameBase false = base) (hslot : slot < 2 ^ 31)

include hbase hslot

/-- The address of a slot, where memory has it. -/
theorem address_eq (hlt : base + slot < memorySize) :
    s.address (Int32.ofNat slot) false = .ok ⟨base + slot, hlt⟩ := by
  have hword := Int32.toInt_ofNat_of_lt hslot
  subst hbase
  rw [State.address]
  simp only [hword]
  rw [dif_pos (by omega)]
  rfl

theorem address_error (hle : memorySize ≤ base + slot) :
    s.address (Int32.ofNat slot) false = .error (.addressOutOfRange (base + slot : Nat)) := by
  have hword := Int32.toInt_ofNat_of_lt hslot
  subst hbase
  rw [State.address]
  simp only [hword]
  rw [dif_neg (by omega)]
  rfl

theorem load_eq {w : Word} (hw : s.memory[base + slot]? = some w) :
    load (Int32.ofNat slot) false s = .ok w s := by
  obtain ⟨hlt, hget⟩ := Vector.getElem?_eq_some_iff.mp hw
  rw [load, get_bind_eq, address_eq hbase hslot hlt]
  exact congrArg (EStateM.Result.ok · s) hget

theorem load_error (hle : memorySize ≤ base + slot) :
    load (Int32.ofNat slot) false s = .error (.addressOutOfRange (base + slot : Nat)) s := by
  rw [load, get_bind_eq, address_error hbase hslot hle]
  rfl

theorem store_eq (hlt : base + slot < memorySize) (w : Word) :
    store (Int32.ofNat slot) false w s
      = .ok () { s with memory := s.memory.setIfInBounds (base + slot) w } := by
  have hset : s.memory.setIfInBounds (base + slot) w = s.memory.set (base + slot) w hlt := by
    ext i hi
    rw [Vector.getElem_setIfInBounds hi, Vector.getElem_set hlt hi]
  rw [store, get_bind_eq, address_eq hbase hslot hlt, hset]
  rfl

theorem store_error (hle : memorySize ≤ base + slot) (w : Word) :
    store (Int32.ofNat slot) false w s
      = .error (.addressOutOfRange (base + slot : Nat)) s := by
  rw [store, get_bind_eq, address_error hbase hslot hle]
  rfl

end

end Exec

/-- There is no step at the end of a program. -/
theorem Table.step_of_not_running {t : Table} {s : State} (h : s.running = false) :
    ∃ fault, t.step s = .error fault s := by
  refine ⟨.truncatedInstruction s.pc, ?_⟩
  have hnone : s.program[s.pc]? = none := Array.getElem?_eq_none (by
    rw [State.running, decide_eq_false_iff_not] at h
    omega)
  have hfetch : Exec.fetchByte s = .error (.truncatedInstruction s.pc) s := by
    rw [Exec.fetchByte, Exec.get_bind_eq]
    simp only [hnone]
    rfl
  rw [Table.step, Exec.get_bind_eq, Exec.bind_error_eq hfetch]

end DualMachine
