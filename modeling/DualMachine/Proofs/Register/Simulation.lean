import DualMachine.Proofs.Activation
import DualMachine.Proofs.Register.Emission

/-!
# Expressions on the register machine

The code of an expression, carried out with temporary `t` free, puts its value there
and keeps the registers below. It leaves the variables of the activation alone; above
them it may overwrite the words where a call keeps registers, but only
with the registers' own contents (`Keeps.spilled`). That is what lets a call inside
the arguments of another use the same words.

Instructions are taken together to the pieces that the code generator uses
(`storeCode_trace`, `loadCode_trace`), these to the transfers around a call
(`saveCode_trace`, `restoreCode_trace`), and `expr_runs` is an induction over
the expression with one case for each construct.
-/

namespace DualMachine

namespace RegisterCode

open Source
open Register (Instr)

variable {file : File} {code : List Instr} {s : State} {regs : Array Word}

/-! ## Registers -/

theorem File.address_toNat (file : File) : file.address.toNat = file.count - 2 := by
  have := file.le_256
  have hlt : file.count - 2 < 256 := by omega
  exact UInt8.toNat_ofNat_of_lt' hlt

theorem File.flag_toNat (file : File) : file.flag.toNat = file.count - 1 := by
  have := file.le_256
  have := file.three_le
  have hlt : file.count - 1 < 256 := by omega
  exact UInt8.toNat_ofNat_of_lt' hlt

theorem File.toNat_ofNat {file : File} {t : Nat} (ht : t < file.temporaries) :
    (UInt8.ofNat t).toNat = t := by
  have := file.le_256
  have hlt : t < 256 := by
    rw [File.temporaries] at ht
    omega
  exact UInt8.toNat_ofNat_of_lt' hlt

/-- The registers after a slot has been addressed. -/
def addressed (file : File) (regs : Array Word) (slot : Nat) : Array Word :=
  (regs.setIfInBounds (file.count - 2) (Int32.ofNat slot)).setIfInBounds (file.count - 1) 0

@[simp] theorem size_addressed (slot : Nat) : (addressed file regs slot).size = regs.size := by
  simp [addressed]

theorem addressed_low {i : Nat} (hi : i < file.temporaries) (slot : Nat) :
    (addressed file regs slot)[i]? = regs[i]? := by
  rw [File.temporaries] at hi
  rw [addressed, Array.getElem?_setIfInBounds_ne (by omega),
    Array.getElem?_setIfInBounds_ne (by omega)]

theorem addressed_address (hcount : file.count ≤ regs.size) (slot : Nat) :
    (addressed file regs slot)[file.address.toNat]? = some (Int32.ofNat slot) := by
  have := file.three_le
  rw [File.address_toNat, addressed, Array.getElem?_setIfInBounds_ne (by omega),
    Array.getElem?_setIfInBounds_self_of_lt (by omega)]

theorem addressed_flag (hcount : file.count ≤ regs.size) (slot : Nat) :
    (addressed file regs slot)[file.flag.toNat]? = some 0 := by
  have := file.three_le
  rw [File.flag_toNat, addressed, Array.getElem?_setIfInBounds_self_of_lt]
  rw [Array.size_setIfInBounds]
  omega

/-! ## Instructions -/

theorem mov_trace {dst : UInt8} {value : Word} {part : List Instr}
    (hreads : Reads code s (.mov dst value :: part)) (hregs : s.holder = .registers regs)
    (hdst : dst.toNat < regs.size) :
    Trace code 1 s { s with
      holder := .registers (regs.setIfInBounds dst.toNat value)
      pc := s.pc + width (Instr.mov dst value) } :=
  hreads.step (Exec.writeRegister_eq (s := s.skip _) hregs hdst value)

theorem alu_trace {op : Alu} {dst lhs rhs : UInt8} {a b w : Word} {part : List Instr}
    (hreads : Reads code s (.alu op dst lhs rhs :: part)) (hregs : s.holder = .registers regs)
    (ha : regs[lhs.toNat]? = some a) (hb : regs[rhs.toNat]? = some b)
    (hdst : dst.toNat < regs.size) (hw : op.eval a b = some w) :
    Trace code 1 s { s with
      holder := .registers (regs.setIfInBounds dst.toNat w)
      pc := s.pc + width (Instr.alu op dst lhs rhs) } := by
  refine hreads.step ?_
  show Instr.exec (.alu op dst lhs rhs) _ = _
  rw [Instr.exec, Exec.bind_eq (Exec.readRegister_eq (s := s.skip _) hregs ha),
    Exec.bind_eq (Exec.readRegister_eq (s := s.skip _) hregs hb),
    Exec.bind_eq (Exec.compute_eq hw),
    Exec.writeRegister_eq (s := s.skip _) hregs hdst]
  rfl

theorem alu_faults {op : Alu} {dst lhs rhs : UInt8} {a b : Word} {part : List Instr}
    (hreads : Reads code s (.alu op dst lhs rhs :: part)) (hregs : s.holder = .registers regs)
    (ha : regs[lhs.toNat]? = some a) (hb : regs[rhs.toNat]? = some b)
    (hw : op.eval a b = none) : Faults code .divisionByZero s := by
  have hexec : Instr.exec (.alu op dst lhs rhs) (s.skip (width (Instr.alu op dst lhs rhs)))
      = .error .divisionByZero (s.skip (width (Instr.alu op dst lhs rhs))) := by
    rw [Instr.exec, Exec.bind_eq (Exec.readRegister_eq (s := s.skip _) hregs ha),
      Exec.bind_eq (Exec.readRegister_eq (s := s.skip _) hregs hb),
      Exec.bind_error_eq (Exec.compute_error hw)]
  exact hreads.faults hexec

theorem dup_trace {dst src : UInt8} {w : Word} {part : List Instr}
    (hreads : Reads code s (.dup dst src :: part)) (hregs : s.holder = .registers regs)
    (hw : regs[src.toNat]? = some w) (hdst : dst.toNat < regs.size) :
    Trace code 1 s { s with
      holder := .registers (regs.setIfInBounds dst.toNat w)
      pc := s.pc + width (Instr.dup dst src) } := by
  refine hreads.step ?_
  show Instr.exec (.dup dst src) _ = _
  rw [Instr.exec, Exec.bind_eq (Exec.readRegister_eq (s := s.skip _) hregs hw),
    Exec.writeRegister_eq (s := s.skip _) hregs hdst]
  rfl

/-! ## Slots -/

/-- The two instructions before every load and store. -/
theorem address_trace {slot : Nat} {part : List Instr}
    (hreads : Reads code s
      (.mov file.address (Int32.ofNat slot) :: .mov file.flag 0 :: part))
    (hregs : s.holder = .registers regs) (hcount : file.count ≤ regs.size) :
    ∃ s', Trace code 2 s s' ∧ Reads code s' part ∧ s' = { s with
      holder := .registers (addressed file regs slot)
      pc := s.pc + width (Instr.mov file.address (Int32.ofNat slot))
        + width (Instr.mov file.flag 0) } := by
  have hthree := file.three_le
  have haddress : file.address.toNat < regs.size := by
    rw [File.address_toNat]
    omega
  have hfirst := mov_trace hreads hregs haddress
  have hreads₁ : Reads code { s with
      holder := .registers (regs.setIfInBounds file.address.toNat (Int32.ofNat slot))
      pc := s.pc + width (Instr.mov file.address (Int32.ofNat slot)) } (.mov file.flag 0 :: part) :=
    hreads.next rfl rfl
  have hflag : file.flag.toNat
      < (regs.setIfInBounds file.address.toNat (Int32.ofNat slot)).size := by
    rw [Array.size_setIfInBounds, File.flag_toNat]
    omega
  have hsecond := mov_trace hreads₁ rfl hflag
  refine ⟨_, hfirst.trans hsecond, hreads₁.next rfl rfl, ?_⟩
  rw [addressed, File.address_toNat, File.flag_toNat]

section

variable {address flag : UInt8} {base slot : Nat} (hregs : s.holder = .registers regs)
  (haddress : regs[address.toNat]? = some (Int32.ofNat slot))
  (hflag : regs[flag.toNat]? = some 0) (hbase : s.frameBase false = base) (hslot : slot < 2 ^ 31)

include hregs haddress hflag hbase hslot

theorem exec_store {src : UInt8} {w : Word} (hw : regs[src.toNat]? = some w)
    (hlt : base + slot < memorySize) :
    Instr.exec (.store src address flag) s
      = .ok () { s with memory := s.memory.setIfInBounds (base + slot) w } := by
  rw [Instr.exec, Exec.bind_eq (Exec.readRegister_eq hregs hw),
    Exec.bind_eq (Exec.readRegister_eq hregs haddress),
    Exec.bind_eq (Exec.readRegister_eq hregs hflag)]
  exact Exec.store_eq hbase hslot hlt w

theorem exec_store_error {src : UInt8} {w : Word} (hw : regs[src.toNat]? = some w)
    (hle : memorySize ≤ base + slot) :
    Instr.exec (.store src address flag) s
      = .error (.addressOutOfRange (base + slot : Nat)) s := by
  rw [Instr.exec, Exec.bind_eq (Exec.readRegister_eq hregs hw),
    Exec.bind_eq (Exec.readRegister_eq hregs haddress),
    Exec.bind_eq (Exec.readRegister_eq hregs hflag)]
  exact Exec.store_error hbase hslot hle w

theorem exec_load {dst : UInt8} {w : Word} (hdst : dst.toNat < regs.size)
    (hw : s.memory[base + slot]? = some w) :
    Instr.exec (.load dst address flag) s
      = .ok () { s with holder := .registers (regs.setIfInBounds dst.toNat w) } := by
  rw [Instr.exec, Exec.bind_eq (Exec.readRegister_eq hregs haddress),
    Exec.bind_eq (Exec.readRegister_eq hregs hflag)]
  exact (Exec.bind_eq (Exec.load_eq hbase hslot hw) _).trans (Exec.writeRegister_eq hregs hdst w)

theorem exec_load_error {dst : UInt8} (hle : memorySize ≤ base + slot) :
    Instr.exec (.load dst address flag) s
      = .error (.addressOutOfRange (base + slot : Nat)) s := by
  rw [Instr.exec, Exec.bind_eq (Exec.readRegister_eq hregs haddress),
    Exec.bind_eq (Exec.readRegister_eq hregs hflag)]
  exact Exec.bind_error_eq (Exec.load_error hbase hslot hle) _

end

theorem storeCode_trace {src : UInt8} {slot : Nat} {w : Word}
    (hreads : Reads code s (storeCode file src slot)) (hregs : s.holder = .registers regs)
    (hcount : file.count ≤ regs.size) (hsrc : src.toNat < file.temporaries)
    (hw : regs[src.toNat]? = some w) (hslot : slot < 2 ^ 31)
    (hlt : s.frameBase false + slot < memorySize) :
    Trace code 3 s { s with
      holder := .registers (addressed file regs slot)
      memory := s.memory.setIfInBounds (s.frameBase false + slot) w
      pc := s.pc + codeLength (storeCode file src slot) } := by
  obtain ⟨s₁, htrace, hreads₁, rfl⟩ := address_trace hreads hregs hcount
  refine htrace.trans (hreads₁.step ?_)
  refine Eq.trans (exec_store (by rfl) (addressed_address hcount slot)
    (addressed_flag hcount slot) (by rfl) hslot ((addressed_low hsrc slot).trans hw) hlt) ?_
  simp only [State.skip, storeCode, codeLength_cons, codeLength_nil, Nat.add_zero, Nat.add_assoc]

theorem storeCode_faults {src : UInt8} {slot : Nat} {w : Word}
    (hreads : Reads code s (storeCode file src slot)) (hregs : s.holder = .registers regs)
    (hcount : file.count ≤ regs.size) (hsrc : src.toNat < file.temporaries)
    (hw : regs[src.toNat]? = some w) (hslot : slot < 2 ^ 31)
    (hle : memorySize ≤ s.frameBase false + slot) :
    ∃ k s', Trace code k s s' ∧ s'.calls = s.calls ∧
      Faults code (.addressOutOfRange (s.frameBase false + slot : Nat)) s' := by
  obtain ⟨s₁, htrace, hreads₁, rfl⟩ := address_trace hreads hregs hcount
  exact ⟨2, _, htrace, rfl, hreads₁.faults (exec_store_error (by rfl)
    (addressed_address hcount slot) (addressed_flag hcount slot) (by rfl) hslot
    ((addressed_low hsrc slot).trans hw) hle)⟩

theorem loadCode_trace {dst : UInt8} {slot : Nat} {w : Word}
    (hreads : Reads code s (loadCode file dst slot)) (hregs : s.holder = .registers regs)
    (hcount : file.count ≤ regs.size) (hdst : dst.toNat < file.temporaries)
    (hslot : slot < 2 ^ 31) (hw : s.memory[s.frameBase false + slot]? = some w) :
    Trace code 3 s { s with
      holder := .registers ((addressed file regs slot).setIfInBounds dst.toNat w)
      pc := s.pc + codeLength (loadCode file dst slot) } := by
  obtain ⟨s₁, htrace, hreads₁, rfl⟩ := address_trace hreads hregs hcount
  refine htrace.trans (hreads₁.step ?_)
  have hlt : dst.toNat < (addressed file regs slot).size := by
    rw [size_addressed]
    rw [File.temporaries] at hdst
    omega
  refine Eq.trans (exec_load (by rfl) (addressed_address hcount slot)
    (addressed_flag hcount slot) (by rfl) hslot hlt (by exact hw)) ?_
  simp only [State.skip, loadCode, codeLength_cons, codeLength_nil, Nat.add_zero, Nat.add_assoc]

theorem loadCode_faults {dst : UInt8} {slot : Nat}
    (hreads : Reads code s (loadCode file dst slot)) (hregs : s.holder = .registers regs)
    (hcount : file.count ≤ regs.size) (hslot : slot < 2 ^ 31)
    (hle : memorySize ≤ s.frameBase false + slot) :
    ∃ k s', Trace code k s s' ∧ s'.calls = s.calls ∧
      Faults code (.addressOutOfRange (s.frameBase false + slot : Nat)) s' := by
  obtain ⟨s₁, htrace, hreads₁, rfl⟩ := address_trace hreads hregs hcount
  exact ⟨2, _, htrace, rfl, hreads₁.faults (exec_load_error (by rfl)
    (addressed_address hcount slot) (addressed_flag hcount slot) (by rfl) hslot hle)⟩

/-! ## Operators -/

/-- A register gets a value; of the temporaries no other changes. -/
structure Writes (file : File) (t : Nat) (w : Word) (regs regs' : Array Word) : Prop where
  size : regs'.size = regs.size
  value : regs'[t]? = some w
  other : ∀ i < file.temporaries, i ≠ t → regs'[i]? = regs[i]?

theorem Writes.trans {t : Nat} {v w : Word} {regs₁ regs₂ regs₃ : Array Word}
    (h : Writes file t v regs₁ regs₂) (h' : Writes file t w regs₂ regs₃) :
    Writes file t w regs₁ regs₃ where
  size := h'.size.trans h.size
  value := h'.value
  other i hi hne := (h'.other i hi hne).trans (h.other i hi hne)

theorem writes_set {t : Nat} (ht : t < regs.size) (w : Word) :
    Writes file t w regs (regs.setIfInBounds t w) where
  size := Array.size_setIfInBounds
  value := Array.getElem?_setIfInBounds_self_of_lt ht
  other _ _ hne := Array.getElem?_setIfInBounds_ne (Ne.symm hne)

/-- An operation with the flag register, which is cleared before it. -/
theorem flagged_trace {op : Alu} {t : Nat} {lhs rhs : UInt8} {a b w : Word}
    (hreads : Reads code s [.mov file.flag 0, .alu op (UInt8.ofNat t) lhs rhs])
    (hregs : s.holder = .registers regs) (hcount : file.count ≤ regs.size)
    (ht : t < file.temporaries)
    (ha : (regs.setIfInBounds file.flag.toNat 0)[lhs.toNat]? = some a)
    (hb : (regs.setIfInBounds file.flag.toNat 0)[rhs.toNat]? = some b)
    (hw : op.eval a b = some w) :
    ∃ regs', Trace code 2 s { s with
        holder := .registers regs'
        pc := s.pc + codeLength [Instr.mov file.flag 0, .alu op (UInt8.ofNat t) lhs rhs] } ∧
      Writes file t w regs regs' := by
  have hthree := file.three_le
  have hflag : file.flag.toNat < regs.size := by
    rw [File.flag_toNat]
    omega
  have hdst : (UInt8.ofNat t).toNat = t := File.toNat_ofNat ht
  rw [File.temporaries] at ht
  have hlt : (UInt8.ofNat t).toNat < (regs.setIfInBounds file.flag.toNat 0).size := by
    rw [Array.size_setIfInBounds, hdst]
    omega
  have hreads₁ : Reads code { s with
      holder := .registers (regs.setIfInBounds file.flag.toNat 0)
      pc := s.pc + width (Instr.mov file.flag 0) } [.alu op (UInt8.ofNat t) lhs rhs] :=
    hreads.next rfl rfl
  have htrace := (mov_trace hreads hregs hflag).trans (alu_trace hreads₁ rfl ha hb hlt hw)
  rw [hdst, Nat.add_assoc] at htrace
  refine ⟨_, htrace, ?_⟩
  refine ⟨?_, Array.getElem?_setIfInBounds_self_of_lt (hdst ▸ hlt), fun i hi hne => ?_⟩
  · rw [Array.size_setIfInBounds, Array.size_setIfInBounds]
  · rw [File.temporaries] at hi
    rw [Array.getElem?_setIfInBounds_ne (Ne.symm hne), File.flag_toNat,
      Array.getElem?_setIfInBounds_ne (by omega)]

theorem flag_cleared (hcount : file.count ≤ regs.size) :
    (regs.setIfInBounds file.flag.toNat 0)[file.flag.toNat]? = some 0 := by
  have := file.three_le
  rw [Array.getElem?_setIfInBounds_self_of_lt]
  rw [File.flag_toNat]
  omega

theorem low_of_flag_cleared {t : Nat} (ht : t < file.temporaries) :
    (regs.setIfInBounds file.flag.toNat 0)[(UInt8.ofNat t).toNat]? = regs[t]? := by
  rw [File.toNat_ofNat ht, File.flag_toNat, Array.getElem?_setIfInBounds_ne]
  rw [File.temporaries] at ht
  omega

section

variable {t : Nat} {a : Word} (hregs : s.holder = .registers regs)
  (hcount : file.count ≤ regs.size) (ht : t < file.temporaries) (ha : regs[t]? = some a)

include hregs hcount ht ha

theorem invertCode_trace (hreads : Reads code s (invertCode file (UInt8.ofNat t))) :
    ∃ regs', Trace code 2 s { s with
        holder := .registers regs'
        pc := s.pc + codeLength (invertCode file (UInt8.ofNat t)) } ∧
      Writes file t (Word.ofBool (a == 0)) regs regs' :=
  flagged_trace hreads hregs hcount ht ((low_of_flag_cleared ht).trans ha) (flag_cleared hcount)
    rfl

theorem unaryCode_trace {op : UnaryOp}
    (hreads : Reads code s (unaryCode file (UInt8.ofNat t) op)) :
    ∃ regs', Trace code 2 s { s with
        holder := .registers regs'
        pc := s.pc + codeLength (unaryCode file (UInt8.ofNat t) op) } ∧
      Writes file t (op.apply a) regs regs' := by
  cases op with
  | neg =>
      exact flagged_trace hreads hregs hcount ht (flag_cleared hcount)
        ((low_of_flag_cleared ht).trans ha) (UnaryOp.apply_neg a)
  | not => exact invertCode_trace hregs hcount ht ha hreads

theorem binaryCode_trace {op : BinaryOp} {b w : Word}
    (hreads : Reads code s (binaryCode file (UInt8.ofNat t) (UInt8.ofNat (t + 1)) op))
    (ht' : t + 1 < file.temporaries) (hb : regs[t + 1]? = some b) (hw : op.apply a b = some w) :
    ∃ k regs', Trace code k s { s with
        holder := .registers regs'
        pc := s.pc + codeLength (binaryCode file (UInt8.ofNat t) (UInt8.ofNat (t + 1)) op) } ∧
      Writes file t w regs regs' := by
  have hdst : (UInt8.ofNat t).toNat = t := File.toNat_ofNat ht
  have hrhs : (UInt8.ofNat (t + 1)).toNat = t + 1 := File.toNat_ofNat ht'
  have hlt : t < regs.size := (Array.getElem?_eq_some_iff.mp ha).1
  rw [op.apply_eq] at hw
  obtain ⟨r, hr, hw⟩ := Option.map_eq_some_iff.mp hw
  rw [binaryCode] at hreads ⊢
  have halu := alu_trace hreads hregs (hdst.symm ▸ ha) (hrhs.symm ▸ hb) (hdst.symm ▸ hlt) hr
  rw [hdst] at halu
  cases hinverted : op.lowered.2 with
  | false =>
      rw [hinverted] at hw
      obtain rfl : r = w := hw
      exact ⟨1, _, halu, writes_set hlt r⟩
  | true =>
      rw [hinverted] at hw hreads
      obtain rfl : Word.ofBool (r == 0) = w := hw
      have hset : Writes file t r regs (regs.setIfInBounds t r) := writes_set hlt r
      have hreads₁ : Reads code { s with
          holder := .registers (regs.setIfInBounds t r)
          pc := s.pc + width (Instr.alu op.lowered.1 (UInt8.ofNat t) (UInt8.ofNat t)
            (UInt8.ofNat (t + 1))) } (invertCode file (UInt8.ofNat t)) :=
        hreads.next rfl rfl
      obtain ⟨regs', htrace, hwrites⟩ :=
        invertCode_trace rfl (hset.size ▸ hcount) ht hset.value hreads₁
      refine ⟨3, regs', ?_, hset.trans hwrites⟩
      have h := halu.trans htrace
      rw [Nat.add_assoc] at h
      exact h

omit hcount in
theorem binaryCode_faults {op : BinaryOp} {b : Word}
    (hreads : Reads code s (binaryCode file (UInt8.ofNat t) (UInt8.ofNat (t + 1)) op))
    (ht' : t + 1 < file.temporaries) (hb : regs[t + 1]? = some b) (hw : op.apply a b = none) :
    Faults code .divisionByZero s := by
  have hdst : (UInt8.ofNat t).toNat = t := File.toNat_ofNat ht
  have hrhs : (UInt8.ofNat (t + 1)).toNat = t + 1 := File.toNat_ofNat ht'
  rw [op.apply_eq] at hw
  exact alu_faults hreads hregs (hdst.symm ▸ ha) (hrhs.symm ▸ hb) (Option.map_eq_none_iff.mp hw)

end

/-! ## Transfers around a call -/

theorem saveCode_succ (first slot count : Nat) :
    saveCode file first slot (count + 1) = saveCode file first slot count
      ++ storeCode file (UInt8.ofNat (first + count)) (slot + count) := by
  simp [saveCode, List.range_succ]

theorem restoreCode_succ (slot count : Nat) :
    restoreCode file slot (count + 1)
      = restoreCode file slot count ++ loadCode file (UInt8.ofNat count) (slot + count) := by
  simp [restoreCode, List.range_succ]

theorem saveCode_trace {first slot count : Nat}
    (hreads : Reads code s (saveCode file first slot count)) (hregs : s.holder = .registers regs)
    (hcount : file.count ≤ regs.size) (htemps : first + count ≤ file.temporaries)
    (hslot : slot + count < 2 ^ 31)
    (hlt : count = 0 ∨ s.frameBase false + slot + count ≤ memorySize) :
    ∃ k regs' memory, Trace code k s { s with
        holder := .registers regs'
        memory
        pc := s.pc + codeLength (saveCode file first slot count) } ∧
      regs'.size = regs.size ∧ (∀ i < file.temporaries, regs'[i]? = regs[i]?) ∧
      (∀ i < count, memory[s.frameBase false + slot + i]? = regs[first + i]?) ∧
      ∀ a, a < s.frameBase false + slot ∨ s.frameBase false + slot + count ≤ a →
        memory[a]? = s.memory[a]? := by
  induction count with
  | zero =>
      refine ⟨0, regs, s.memory, ?_, rfl, fun _ _ => rfl, fun i hi => ?_, fun _ _ => rfl⟩
      · rw [← hregs]
        exact .refl s
      · omega
  | succ count ih =>
      rw [saveCode_succ] at hreads ⊢
      obtain ⟨k, regs₁, memory₁, htrace, hsize, hsame, hsaved, hother⟩ :=
        ih hreads.left (by omega) (by omega) (by omega)
      have hlow : first + count < file.temporaries := by omega
      have hbound : first + count < regs.size := by
        rw [File.temporaries] at hlow
        omega
      have hsrc : (UInt8.ofNat (first + count)).toNat = first + count := File.toNat_ofNat hlow
      have hw : regs₁[(UInt8.ofNat (first + count)).toNat]? = some regs[first + count] := by
        rw [hsrc, hsame _ hlow, Array.getElem?_eq_getElem hbound]
      have hreads₁ : Reads code { s with
          holder := .registers regs₁
          memory := memory₁
          pc := s.pc + codeLength (saveCode file first slot count) }
          (storeCode file (UInt8.ofNat (first + count)) (slot + count)) := hreads.right rfl rfl
      have hstore := storeCode_trace hreads₁ rfl (hsize ▸ hcount) (hsrc.symm ▸ hlow) hw (by omega)
        (by show s.frameBase false + (slot + count) < memorySize; omega)
      have hbase : s.frameBase false + (slot + count) = s.frameBase false + slot + count := by
        omega
      refine ⟨k + 3, addressed file regs₁ (slot + count),
        memory₁.setIfInBounds (s.frameBase false + slot + count) regs[first + count],
        ?_, ?_, fun i hi => ?_, fun i hi => ?_, fun a ha => ?_⟩
      · rw [codeLength_append, ← Nat.add_assoc, ← hbase]
        exact htrace.trans hstore
      · rw [size_addressed, hsize]
      · rw [addressed_low hi, hsame i hi]
      · by_cases hlast : i = count
        · rw [hlast, Vector.getElem?_setIfInBounds_self_of_lt (by omega),
            Array.getElem?_eq_getElem hbound]
        · rw [Vector.getElem?_setIfInBounds_ne (by omega)]
          exact hsaved i (by omega)
      · rw [Vector.getElem?_setIfInBounds_ne (by omega)]
        exact hother a (by omega)

/-- Where memory has no words for registers, the first of them faults. -/
theorem saveCode_faults {first slot count : Nat}
    (hreads : Reads code s (saveCode file first slot count)) (hregs : s.holder = .registers regs)
    (hcount : file.count ≤ regs.size) (htemps : first + count ≤ file.temporaries)
    (hslot : slot + count < 2 ^ 31) (hpos : 0 < count)
    (hle : memorySize ≤ s.frameBase false + slot) :
    ∃ k s' address, Trace code k s s' ∧ s'.calls = s.calls ∧
      Faults code (.addressOutOfRange address) s' := by
  obtain ⟨rest, rfl⟩ : ∃ rest, count = rest + 1 := ⟨count - 1, by omega⟩
  have hlow : first + 0 < file.temporaries := by omega
  have hsrc : (UInt8.ofNat (first + 0)).toNat = first + 0 := File.toNat_ofNat hlow
  have hbound : first + 0 < regs.size := by
    rw [File.temporaries] at hlow
    omega
  have hw : regs[(UInt8.ofNat (first + 0)).toNat]? = some regs[first + 0] := by
    rw [hsrc, Array.getElem?_eq_getElem hbound]
  rw [saveCode, List.range_succ_eq_map, List.flatMap_cons] at hreads
  obtain ⟨k, s', htrace, hcalls, hfault⟩ := storeCode_faults hreads.left hregs hcount
    (hsrc.symm ▸ hlow) hw (by omega) (by omega)
  exact ⟨k, s', _, htrace, hcalls, hfault⟩

theorem restoreCode_trace {slot count : Nat}
    (hreads : Reads code s (restoreCode file slot count)) (hregs : s.holder = .registers regs)
    (hcount : file.count ≤ regs.size) (htemps : count ≤ file.temporaries)
    (hslot : slot + count < 2 ^ 31)
    (hlt : count = 0 ∨ s.frameBase false + slot + count ≤ memorySize) :
    ∃ k regs', Trace code k s { s with
        holder := .registers regs'
        pc := s.pc + codeLength (restoreCode file slot count) } ∧
      regs'.size = regs.size ∧
      (∀ i < count, regs'[i]? = s.memory[s.frameBase false + slot + i]?) ∧
      ∀ i, count ≤ i → i < file.temporaries → regs'[i]? = regs[i]? := by
  induction count with
  | zero =>
      refine ⟨0, regs, ?_, rfl, fun i hi => ?_, fun _ _ _ => rfl⟩
      · rw [← hregs]
        exact .refl s
      · omega
  | succ count ih =>
      rw [restoreCode_succ] at hreads ⊢
      obtain ⟨k, regs₁, htrace, hsize, hrestored, hother⟩ :=
        ih hreads.left (by omega) (by omega) (by omega)
      have hdst : (UInt8.ofNat count).toNat = count := File.toNat_ofNat htemps
      have hbase : s.frameBase false + (slot + count) = s.frameBase false + slot + count := by
        omega
      have hbound : s.frameBase false + slot + count < memorySize := by omega
      have hreads₁ : Reads code { s with
          holder := .registers regs₁
          pc := s.pc + codeLength (restoreCode file slot count) }
          (loadCode file (UInt8.ofNat count) (slot + count)) := hreads.right rfl rfl
      have hw : s.memory[s.frameBase false + (slot + count)]?
          = some s.memory[s.frameBase false + slot + count] := by
        rw [hbase, Vector.getElem?_eq_getElem hbound]
      have hload := loadCode_trace hreads₁ rfl (hsize ▸ hcount) (hdst.symm ▸ htemps) (by omega)
        hw
      rw [hdst] at hload
      refine ⟨k + 3, (addressed file regs₁ (slot + count)).setIfInBounds count
        s.memory[s.frameBase false + slot + count], ?_, ?_, fun i hi => ?_, fun i hi hi' => ?_⟩
      · rw [codeLength_append, ← Nat.add_assoc]
        exact htrace.trans hload
      · rw [Array.size_setIfInBounds, size_addressed, hsize]
      · by_cases hlast : i = count
        · rw [hlast, Vector.getElem?_eq_getElem hbound,
            Array.getElem?_setIfInBounds_self_of_lt]
          rw [File.temporaries] at htemps
          rw [size_addressed, hsize]
          omega
        · rw [Array.getElem?_setIfInBounds_ne (by omega), addressed_low (by omega)]
          exact hrestored i (by omega)
      · rw [Array.getElem?_setIfInBounds_ne (by omega), addressed_low hi']
        exact hother i (by omega) hi'

/-- The result of a call goes from register 0 to its temporary. -/
theorem resultCode_trace {t : Nat} {w : Word} (hreads : Reads code s (resultCode t))
    (hregs : s.holder = .registers regs) (hcount : file.count ≤ regs.size)
    (ht : t < file.temporaries) (hw : regs[0]? = some w) :
    ∃ k regs', Trace code k s { s with
        holder := .registers regs'
        pc := s.pc + codeLength (resultCode t) } ∧
      regs'.size = regs.size ∧ regs'[t]? = some w := by
  rw [resultCode] at hreads ⊢
  by_cases hzero : t = 0
  · rw [if_pos hzero, hzero]
    refine ⟨0, regs, ?_, rfl, hw⟩
    rw [← hregs]
    exact .refl s
  · rw [if_neg hzero] at hreads ⊢
    have hdst : (UInt8.ofNat t).toNat = t := File.toNat_ofNat ht
    rw [File.temporaries] at ht
    have hlt : t < regs.size := by omega
    have hdup := dup_trace hreads hregs hw (hdst.symm ▸ hlt)
    rw [hdst] at hdup
    exact ⟨1, _, hdup, Array.size_setIfInBounds, Array.getElem?_setIfInBounds_self_of_lt hlt⟩

/-! ## What the code of an expression keeps -/

/-- The register machine as a target: an activation keeps the size of the file, and
values are returned in register 0. -/
def target (file : File) : Target Instr where
  toPieces := pieces file
  Kept := Nat
  idle size holder :=
    ∃ regs : Array Word, holder = .registers regs ∧ regs.size = size ∧ file.count ≤ size
  value size w holder :=
    ∃ regs : Array Word, holder = .registers regs ∧ regs.size = size ∧ file.count ≤ size ∧
      regs[0]? = some w
  rightFirst := false
  spills := true

/-- Code with temporary `t` free, in an activation with `vars` variables, leads from
registers `regs` to `regs'`. -/
structure Keeps (vars t : Nat) (s s' : State) (regs regs' : Array Word) : Prop where
  size : regs'.size = regs.size
  low : ∀ i < t, regs'[i]? = regs[i]?
  below : ∀ a < s.frameBase false + vars, s'.memory[a]? = s.memory[a]?
  -- a call in the code may have kept its live registers there, the first `t` among them
  spilled : ∀ i < t, s'.memory[s.frameBase false + vars + i]?
      = s.memory[s.frameBase false + vars + i]? ∨
    s'.memory[s.frameBase false + vars + i]? = regs[i]?

namespace Keeps

variable {vars t : Nat} {s₁ s₂ s₃ : State} {regs₁ regs₂ regs₃ : Array Word}

/-- Code that changes registers only. -/
theorem of_registers {pc : Nat} {holder : Holder} (hsize : regs₂.size = regs₁.size)
    (hlow : ∀ i < t, regs₂[i]? = regs₁[i]?) :
    Keeps vars t s { s with holder, pc } regs₁ regs₂ :=
  ⟨hsize, hlow, fun _ _ => rfl, fun _ _ => .inl rfl⟩

theorem mono {t' : Nat} (h : Keeps vars t s₁ s₂ regs₁ regs₂) (ht : t' ≤ t) :
    Keeps vars t' s₁ s₂ regs₁ regs₂ :=
  ⟨h.size, fun i hi => h.low i (by omega), h.below, fun i hi => h.spilled i (by omega)⟩

theorem trans (h : Keeps vars t s₁ s₂ regs₁ regs₂) (h' : Keeps vars t s₂ s₃ regs₂ regs₃)
    (hbase : s₂.frameBase false = s₁.frameBase false) : Keeps vars t s₁ s₃ regs₁ regs₃ where
  size := h'.size.trans h.size
  low i hi := (h'.low i hi).trans (h.low i hi)
  below a ha := (h'.below a (by omega)).trans (h.below a ha)
  spilled i hi := by
    rw [← hbase]
    rcases h'.spilled i hi with hsame | hreg
    · rw [hsame, hbase]
      exact h.spilled i hi
    · rw [hreg, h.low i hi]
      exact .inr rfl

end Keeps

section

variable {W : World (target file)} {F : Frame W.strict} {env : Env} {n t : Nat}

/-- A state of the activation after code with temporary `t` free. -/
structure Evaluated (W : World (target file)) (F : Frame W.strict) (env : Env) (t : Nat)
    (s s' : State) (regs regs' : Array Word) : Prop where
  inside : W.Inside F env (· = .registers regs') s'
  keeps : Keeps env.length t s s' regs regs'

theorem Keeps.evaluated {s' : State} {regs' : Array Word}
    (h : Keeps env.length t s s' regs regs')
    (hin : W.Inside F env (· = .registers regs) s) (hprogram : s'.program = s.program)
    (hcalls : s'.calls = s.calls) (hholder : s'.holder = .registers regs') :
    Evaluated W F env t s s' regs regs' where
  inside := by
    refine hin.of_below hprogram hcalls hholder fun a ha => h.below a ?_
    rwa [hin.frameBase_eq]
  keeps := h

theorem Evaluated.trans {s₁ s₂ s₃ : State} {regs₁ regs₂ regs₃ : Array Word}
    (h : Evaluated W F env t s₁ s₂ regs₁ regs₂)
    (hin : W.Inside F env (· = .registers regs₁) s₁) (h' : Evaluated W F env t s₂ s₃ regs₂ regs₃) :
    Evaluated W F env t s₁ s₃ regs₁ regs₃ where
  inside := h'.inside
  keeps := h.keeps.trans h'.keeps (h.inside.frameBase_eq.trans hin.frameBase_eq.symm)

theorem Evaluated.mono {s' : State} {regs' : Array Word} {t' : Nat}
    (h : Evaluated W F env t s s' regs regs') (ht : t' ≤ t) :
    Evaluated W F env t' s s' regs regs' :=
  ⟨h.inside, h.keeps.mono ht⟩

/-- Spilled registers are still in memory after more code. -/
theorem Evaluated.saved {s' : State} {regs₀ regs' : Array Word}
    (h : Evaluated W F env t s s' regs regs') (hin : W.Inside F env (· = .registers regs) s)
    (hsaved : ∀ i < t, s.memory[F.base + env.length + i]? = regs₀[i]?)
    (hlow : ∀ i < t, regs[i]? = regs₀[i]?) :
    ∀ i < t, s'.memory[F.base + env.length + i]? = regs₀[i]? := by
  intro i hi
  have hspilled := h.keeps.spilled i hi
  rw [hin.frameBase_eq] at hspilled
  rcases hspilled with hsame | hreg
  · exact hsame.trans (hsaved i hi)
  · exact hreg.trans (hlow i hi)

/-- A piece of code that changes registers only. -/
theorem evaluated_of_writes {regs' : Array Word} {w : Word} {pc : Nat}
    (hin : W.Inside F env (· = .registers regs) s) (ht : t < file.temporaries)
    (h : Writes file t w regs regs') :
    Evaluated W F env t s { s with holder := .registers regs', pc } regs regs' :=
  Keeps.evaluated (.of_registers h.size fun i hi => h.other i (by omega) (by omega)) hin rfl rfl
    rfl

/-! ## Calls -/

/-- The registers in use are kept above the variables, or there is no frame for
them. -/
theorem spill_runs {α : Type} {x : May α} {Q : α → State → Prop}
    (hin : W.Inside F env (· = .registers regs) s) (hcount : file.count ≤ regs.size)
    (ht : t ≤ file.temporaries) (hroom : env.length + t ≤ frameSize)
    (hplaced : W.Placed s.pc (Line.ofCode (saveCode file 0 env.length t)))
    (hnext : ∀ s₁ regs₁, Evaluated W F env t s s₁ regs regs₁ →
      (∀ i < t, s₁.memory[F.base + env.length + i]? = regs[i]?) →
      (t = 0 ∨ F.depth ≤ frameCount) →
      s₁.pc = s.pc + codeLength (saveCode file 0 env.length t) → W.Runs n s₁ x Q) :
    W.Runs n s x Q := by
  have hbase := hin.frameBase_eq
  have hsmall : env.length + t < 2 ^ 31 := slot_lt (Nat.le_add_right_of_le hroom)
  by_cases hframe : t = 0 ∨ F.depth ≤ frameCount
  · have hlt : t = 0 ∨ s.frameBase false + env.length + t ≤ memorySize := by
      refine hframe.imp_right fun hdepth => ?_
      have := World.frame_le hdepth
      omega
    obtain ⟨k, regs₁, memory, htrace, hsize, hsame, hsaved, hother⟩ :=
      saveCode_trace (hin.reads hplaced) hin.holder hcount (by omega) hsmall hlt
    have hkeeps : Keeps env.length t s { s with
        holder := .registers regs₁
        memory
        pc := s.pc + codeLength (saveCode file 0 env.length t) } regs regs₁ := by
      refine ⟨hsize, fun i hi => hsame i (by omega), fun a ha => hother a (.inl ha),
        fun i hi => .inr ?_⟩
      have := hsaved i hi
      rwa [Nat.zero_add] at this
    refine .after htrace (hnext _ regs₁ (hkeeps.evaluated hin rfl rfl rfl) (fun i hi => ?_)
      hframe rfl) (Nat.le_add_right n k)
    have := hsaved i hi
    rwa [Nat.zero_add, hbase] at this
  · have hdepth : frameCount < F.depth := by omega
    have hle := World.le_frame hdepth
    obtain ⟨k, s', address, htrace, hcalls, hfault⟩ := saveCode_faults (hin.reads hplaced)
      hin.holder hcount (by omega) hsmall (by omega) (by omega)
    exact .after htrace (.overflow ⟨rfl, World.strict_eq_false hdepth,
      hin.frameFault (Nat.le_of_lt hdepth) hcalls hfault⟩) (Nat.le_add_right n k)

/-- The state after arguments were passed and the function has returned. -/
structure Answered (F : Frame W.strict) (s s' : State) (regs regs' : Array Word) (w : Word) :
    Prop where
  program : s'.program = s.program
  calls : s'.calls = s.calls
  holder : s'.holder = .registers regs'
  size : regs'.size = regs.size
  value : regs'[0]? = some w
  below : ∀ a < F.base + frameSize, s'.memory[a]? = s.memory[a]?

theorem call_runs (hcalls : W.Calls n) {scope : Scope} {f : String} {ws : List Word}
    (hin : W.Inside F env (· = .registers regs) s) (hcount : file.count ≤ regs.size)
    (hws : ∀ i < ws.length, regs[t + i]? = ws[i]?) (ht : t + ws.length ≤ file.temporaries)
    (hlen : ws.length ≤ frameSize)
    (hplaced : W.Placed s.pc
      (Line.ofCode (saveCode file t frameSize ws.length) ++ [.call (scope.qualify f)])) :
    W.Runs n s ((W.context F scope n).call f ws) fun w s' =>
      (∃ regs', Answered F s s' regs regs' w) ∧
      s'.pc = s.pc + Line.length
        (Line.ofCode (saveCode file t frameSize ws.length) ++ [.call (scope.qualify f)]) := by
  have hbase := hin.frameBase_eq
  have hsmall : frameSize + ws.length < 2 ^ 31 := slot_lt (Nat.add_le_add_left hlen frameSize)
  by_cases henter : F.depth < frameCount ∨ W.strict = false ∧ ws.length = 0
  · have hroom : ws.length = 0 ∨ s.frameBase false + frameSize + ws.length ≤ memorySize :=
      hbase.symm ▸ World.room_of_enter henter hlen
    obtain ⟨k, regs₁, memory, htrace, hsize, -, hsaved, hother⟩ :=
      saveCode_trace (hin.reads hplaced.left) hin.holder hcount ht hsmall hroom
    rw [hbase] at hsaved hother
    have hvars := hin.length_le
    have hin₁ : W.Inside F env ((target file).idle regs.size) { s with
        holder := .registers regs₁
        memory
        pc := s.pc + codeLength (saveCode file t frameSize ws.length) } :=
      hin.of_below rfl rfl ⟨regs₁, rfl, hsize, hcount⟩ fun a ha => hother a (.inl (by omega))
    have hargs : HoldsWords memory (F.base + frameSize) ws := fun i w hi _ => by
      obtain ⟨hi', -⟩ := List.getElem?_eq_some_iff.mp hi
      rw [hsaved i hi', hws i hi', hi]
    have hcode := hplaced.right
    rw [Line.length_ofCode] at hcode
    refine .after htrace ((World.passed_runs hcalls hin₁ hargs hcode henter).mono
      fun w s' hcalled => ⟨?_, ?_⟩) (Nat.le_add_right n k)
    · obtain ⟨regs', hholder, hsize', -, hvalue⟩ := hcalled.holder
      exact ⟨regs', hcalled.program, hcalled.calls, hholder, hsize', hvalue, fun a ha =>
        (hin₁.below_called hcalled ha).trans (hother a (.inl ha))⟩
    · rw [hcalled.pc, Line.length_append, Line.length_ofCode, Nat.add_assoc]
      rfl
  · refine World.refused_runs hin henter fun hsome hle => ?_
    rw [← hbase] at hle
    exact saveCode_faults (hin.reads hplaced.left) hin.holder hcount ht hsmall hsome hle

/-- After a call its result is in the temporary and the registers in use are back. -/
theorem answer_trace {s₁ s₂ s₃ : State} {regs₁ regs₂ regs₃ : Array Word} {w : Word}
    (hcount : file.count ≤ regs₁.size) (ht : t < file.temporaries)
    (hin : W.Inside F env (· = .registers regs₁) s₁) (hroom : env.length + t ≤ frameSize)
    (hframe : t = 0 ∨ F.depth ≤ frameCount)
    (heval : Evaluated W F env t s₁ s₂ regs₁ regs₂)
    (hsaved : ∀ i < t, s₂.memory[F.base + env.length + i]? = regs₁[i]?)
    (hanswer : Answered F s₂ s₃ regs₂ regs₃ w)
    (hplaced : W.Placed s₃.pc
      (Line.ofCode (resultCode t) ++ Line.ofCode (restoreCode file env.length t))) :
    ∃ k s' regs', Trace W.code k s₃ s' ∧ Evaluated W F env t s₁ s' regs₁ regs' ∧
      regs'[t]? = some w ∧ s'.pc = s₃.pc + Line.length
        (Line.ofCode (resultCode t) ++ Line.ofCode (restoreCode file env.length t)) := by
  have hsize : regs₃.size = regs₁.size := hanswer.size.trans heval.keeps.size
  have hprogram : s₃.program = (codeBytes W.code).toArray :=
    hanswer.program.trans heval.inside.program
  have hbase : s₃.frameBase false = F.base := by
    rw [← heval.inside.frameBase_eq, State.frameBase, State.frameBase, State.depth, State.depth,
      hanswer.calls]
  have hlt : t = 0 ∨ s₃.frameBase false + env.length + t ≤ memorySize := by
    refine hframe.imp_right fun hdepth => ?_
    have := World.frame_le hdepth
    omega
  obtain ⟨k, regs₄, htrace, hsize₄, hw₄⟩ := resultCode_trace ⟨hprogram, hplaced.left.ofCode⟩
    hanswer.holder (hsize.symm ▸ hcount) ht hanswer.value
  have hrest := hplaced.right.ofCode
  rw [Line.length_ofCode] at hrest
  have hreads : Reads W.code { s₃ with
      holder := .registers regs₄
      pc := s₃.pc + codeLength (resultCode t) } (restoreCode file env.length t) :=
    ⟨hprogram, hrest⟩
  obtain ⟨j, regs₅, htrace', hsize₅, hrestored, hother⟩ := restoreCode_trace hreads rfl
    (hsize₄.trans hsize ▸ hcount) (Nat.le_of_lt ht) (slot_lt (Nat.le_add_right_of_le hroom)) hlt
  -- the called function has left this frame alone
  have hkept : ∀ i < t, s₃.memory[F.base + env.length + i]? = regs₁[i]? := fun i hi =>
    (hanswer.below _ (by omega)).trans (hsaved i hi)
  have hbase₁ := hin.frameBase_eq
  have hkeeps : Keeps env.length t s₁ { s₃ with
      holder := .registers regs₅
      pc := s₃.pc + codeLength (resultCode t) + codeLength (restoreCode file env.length t) }
      regs₁ regs₅ := by
    refine ⟨hsize₅.trans (hsize₄.trans hsize), fun i hi => ?_, fun a ha => ?_, fun i hi => .inr ?_⟩
    · refine (hrestored i hi).trans ?_
      show s₃.memory[s₃.frameBase false + env.length + i]? = _
      rw [hbase]
      exact hkept i hi
    · exact (hanswer.below a (by omega)).trans (heval.keeps.below a ha)
    · show s₃.memory[s₁.frameBase false + env.length + i]? = _
      rw [hbase₁]
      exact hkept i hi
  refine ⟨k + j, _, regs₅, htrace.trans htrace', hkeeps.evaluated hin ?_ ?_ rfl, ?_, ?_⟩
  · exact hprogram.trans hin.program.symm
  · exact hanswer.calls.trans (heval.inside.calls.trans hin.calls.symm)
  · rw [hother t (Nat.le_refl t) ht, hw₄]
  · rw [Line.length_append, Line.length_ofCode, Line.length_ofCode, ← Nat.add_assoc]

/-! ## Expressions -/

theorem constant_runs {v : Word} (ht : t < file.temporaries) (hcount : file.count ≤ regs.size)
    (hin : W.Inside F env (· = .registers regs) s)
    (hplaced : W.Placed s.pc (Line.ofCode [.mov (UInt8.ofNat t) v])) :
    W.Runs n s (pure v) fun w s' =>
      (∃ regs', Evaluated W F env t s s' regs regs' ∧ regs'[t]? = some w) ∧
      s'.pc = s.pc + Line.length (Line.ofCode [Instr.mov (UInt8.ofNat t) v]) := by
  have hdst : (UInt8.ofNat t).toNat = t := File.toNat_ofNat ht
  have hlt : t < regs.size := by
    rw [File.temporaries] at ht
    omega
  have hmov := mov_trace (hin.reads hplaced) hin.holder (hdst.symm ▸ hlt)
  rw [hdst] at hmov
  have hwrites : Writes file t v regs (regs.setIfInBounds t v) := writes_set hlt v
  refine .after hmov (.pure ⟨⟨_, evaluated_of_writes hin ht hwrites, hwrites.value⟩, ?_⟩)
    (Nat.le_add_right n 1)
  rw [Line.length_ofCode]
  rfl

theorem identifier_runs {scope : Scope} {x : String} (ht : t < file.temporaries)
    (hx : x ∈ env.map Prod.fst) (hcount : file.count ≤ regs.size)
    (hin : W.Inside F env (· = .registers regs) s)
    (hplaced : W.Placed s.pc
      (Line.ofCode (loadCode file (UInt8.ofNat t) ((env.map Prod.fst).idxOf x)))) :
    W.Runs n s ((Expr.identifier x).eval (W.context F scope n) env) fun w s' =>
      (∃ regs', Evaluated W F env t s s' regs regs' ∧ regs'[t]? = some w) ∧
      s'.pc = s.pc + Line.length
        (Line.ofCode (loadCode file (UInt8.ofNat t) ((env.map Prod.fst).idxOf x))) := by
  have hbase := hin.frameBase_eq
  have hdst : (UInt8.ofNat t).toNat = t := File.toNat_ofNat ht
  have hslot : (env.map Prod.fst).idxOf x < 2 ^ 31 :=
    slot_lt (Nat.le_add_right_of_le (Nat.le_of_lt (hin.idxOf_lt hx)))
  refine World.lookup_runs hin hx (fun w hw => ?_) fun hle => ?_
  · rw [← hbase] at hw
    have hload := loadCode_trace (hin.reads hplaced) hin.holder hcount (hdst.symm ▸ ht) hslot hw
    rw [hdst] at hload
    have hwrites : Writes file t w regs ((addressed file regs
        ((env.map Prod.fst).idxOf x)).setIfInBounds t w) := by
      refine ⟨?_, Array.getElem?_setIfInBounds_self_of_lt ?_, fun i hi hne => ?_⟩
      · rw [Array.size_setIfInBounds, size_addressed]
      · rw [size_addressed]
        rw [File.temporaries] at ht
        omega
      · rw [Array.getElem?_setIfInBounds_ne (Ne.symm hne), addressed_low hi]
    refine .after hload (.pure ⟨⟨_, evaluated_of_writes hin ht hwrites, hwrites.value⟩, ?_⟩)
      (Nat.le_add_right n 3)
    rw [Line.length_ofCode]
  · rw [← hbase] at hle
    obtain ⟨k, s', htrace, hcalls, hfault⟩ :=
      loadCode_faults (hin.reads hplaced) hin.holder hcount hslot hle
    exact ⟨k, s', _, htrace, hcalls, hfault⟩

/-- Operands from left to right: the second leaves the first alone. -/
theorem operands_runs {x y : May Word} {pc : Nat} (length : Nat)
    (hin : W.Inside F env (· = .registers regs) s)
    (hx : W.Runs n s x fun w s' =>
      (∃ regs', Evaluated W F env t s s' regs regs' ∧ regs'[t]? = some w) ∧ s'.pc = pc)
    (hy : ∀ s₁ regs₁, Evaluated W F env t s s₁ regs regs₁ → s₁.pc = pc →
      W.Runs n s₁ y fun w s' =>
        (∃ regs', Evaluated W F env (t + 1) s₁ s' regs₁ regs' ∧ regs'[t + 1]? = some w) ∧
        s'.pc = s₁.pc + length) :
    W.Runs n s (inOrder (target file).rightFirst x y) fun ab s' =>
      (∃ regs', Evaluated W F env t s s' regs regs' ∧ regs'[t]? = some ab.1 ∧
        regs'[t + 1]? = some ab.2) ∧ s'.pc = pc + length := by
  refine .bind hx ?_
  rintro a s₁ ⟨⟨regs₁, heval₁, ha⟩, hpc₁⟩
  refine .bind (hy s₁ regs₁ heval₁ hpc₁) ?_
  rintro b s₂ ⟨⟨regs₂, heval₂, hb⟩, hpc₂⟩
  refine .pure ⟨⟨regs₂, heval₁.trans hin (heval₂.mono (Nat.le_succ t)), ?_, hb⟩, ?_⟩
  · exact (heval₂.keeps.low t (Nat.lt_succ_self t)).trans ha
  · rw [hpc₂, hpc₁]

theorem operator_runs {op : BinaryOp} {a b : Word} (hcount : file.count ≤ regs.size)
    (ht : t + 1 < file.temporaries) (hin : W.Inside F env (· = .registers regs) s)
    (ha : regs[t]? = some a) (hb : regs[t + 1]? = some b)
    (hplaced : W.Placed s.pc
      (Line.ofCode (binaryCode file (UInt8.ofNat t) (UInt8.ofNat (t + 1)) op))) :
    W.Runs n s (valueOr .divisionByZero (op.apply a b)) fun w s' =>
      (∃ regs', Evaluated W F env t s s' regs regs' ∧ regs'[t]? = some w) ∧
      s'.pc = s.pc + Line.length
        (Line.ofCode (binaryCode file (UInt8.ofNat t) (UInt8.ofNat (t + 1)) op)) := by
  rw [Line.length_ofCode]
  cases hw : op.apply a b with
  | none => exact .divides (binaryCode_faults hin.holder (by omega) ha (hin.reads hplaced) ht hb hw)
  | some w =>
      obtain ⟨k, regs', htrace, hwrites⟩ :=
        binaryCode_trace hin.holder hcount (by omega) ha (hin.reads hplaced) ht hb hw
      exact .after htrace (.pure ⟨⟨regs', evaluated_of_writes hin (by omega) hwrites,
        hwrites.value⟩, rfl⟩) (Nat.le_add_right n k)

mutual

theorem expr_runs (hcalls : W.Calls n) {scope : Scope} :
    ∀ (e : Expr) (t : Nat) (s : State) (regs : Array Word),
      ExprFits file (env.map Prod.fst) e t → file.count ≤ regs.size →
      W.Inside F env (· = .registers regs) s →
      W.Placed s.pc (exprCode file scope (env.map Prod.fst) e t) →
      W.Runs n s (e.eval (W.context F scope n) env) fun w s' =>
        (∃ regs', Evaluated W F env t s s' regs regs' ∧ regs'[t]? = some w) ∧
        s'.pc = s.pc + Line.length (exprCode file scope (env.map Prod.fst) e t)
  | .number v, t, s, regs, hfits, hcount, hin, hplaced => by
      rw [ExprFits] at hfits
      rw [exprCode] at hplaced ⊢
      rw [Expr.eval]
      exact constant_runs hfits hcount hin hplaced
  | .boolean b, t, s, regs, hfits, hcount, hin, hplaced => by
      rw [ExprFits] at hfits
      rw [exprCode] at hplaced ⊢
      rw [Expr.eval]
      exact constant_runs hfits hcount hin hplaced
  | .identifier x, t, s, regs, hfits, hcount, hin, hplaced => by
      rw [ExprFits] at hfits
      rw [exprCode] at hplaced ⊢
      exact identifier_runs hfits.1 hfits.2 hcount hin hplaced
  | .paren inner, t, s, regs, hfits, hcount, hin, hplaced => by
      rw [ExprFits] at hfits
      rw [exprCode] at hplaced ⊢
      rw [Expr.eval]
      exact expr_runs hcalls inner t s regs hfits.2 hcount hin hplaced
  | .unary op operand, t, s, regs, hfits, hcount, hin, hplaced => by
      rw [ExprFits] at hfits
      rw [exprCode] at hplaced ⊢
      rw [Expr.eval]
      refine .bind (expr_runs hcalls operand t s regs hfits.2 hcount hin hplaced.left) ?_
      rintro a s₁ ⟨⟨regs₁, heval, ha⟩, hpc⟩
      have hop := hplaced.right
      rw [← hpc] at hop
      obtain ⟨regs₂, htrace, hwrites⟩ := unaryCode_trace heval.inside.holder
        (heval.keeps.size.symm ▸ hcount) hfits.1 ha (heval.inside.reads hop)
      refine .after htrace (.pure ⟨⟨regs₂, ?_, hwrites.value⟩, ?_⟩) (Nat.le_add_right n 2)
      · exact heval.trans hin (evaluated_of_writes heval.inside hfits.1 hwrites)
      · show s₁.pc + _ = _
        rw [hpc, Line.length_append, Line.length_ofCode, Nat.add_assoc]
  | .binary op left right, t, s, regs, hfits, hcount, hin, hplaced => by
      rw [ExprFits] at hfits
      rw [exprCode] at hplaced ⊢
      rw [Expr.eval, W.context_rightFirst]
      obtain ⟨ht, hleft, hright⟩ := hfits
      refine .bind (operands_runs
        (Line.length (exprCode file scope (env.map Prod.fst) right (t + 1))) hin
        (expr_runs hcalls left t s regs hleft hcount hin hplaced.left.left)
        fun s₁ regs₁ heval hpc => ?_) ?_
      · have hplaced₁ := hplaced.left.right
        rw [← hpc] at hplaced₁
        exact expr_runs hcalls right (t + 1) s₁ regs₁ hright (heval.keeps.size.symm ▸ hcount)
          heval.inside hplaced₁
      · rintro ⟨a, b⟩ s₂ ⟨⟨regs₂, heval, ha, hb⟩, hpc⟩
        have hop := hplaced.right
        rw [Line.length_append, ← Nat.add_assoc, ← hpc] at hop
        refine (operator_runs (heval.keeps.size.symm ▸ hcount) ht heval.inside ha hb hop).mono ?_
        rintro w s₃ ⟨⟨regs₃, heval₃, hw⟩, hpc₃⟩
        refine ⟨⟨regs₃, heval.trans hin heval₃, hw⟩, ?_⟩
        rw [hpc₃, hpc]
        simp only [Line.length_append, Nat.add_assoc]
  | .call f args, t, s, regs, hfits, hcount, hin, hplaced => by
      rw [ExprFits] at hfits
      rw [exprCode] at hplaced ⊢
      rw [Expr.eval]
      obtain ⟨ht, hlen, htemps, hroom, hargs⟩ := hfits
      rw [List.length_map] at hroom hplaced ⊢
      -- spill, evaluate the arguments, pass them and call, then take the result and restore
      refine spill_runs hin hcount (Nat.le_of_lt ht) hroom hplaced.left.left.left
        fun s₁ regs₁ heval₁ hsaved hframe hpc₁ => ?_
      have hplaced₁ := hplaced.left.left.right
      rw [Line.length_ofCode, ← hpc₁] at hplaced₁
      refine .bind (exprs_runs hcalls args t s₁ regs₁ hargs (heval₁.keeps.size.symm ▸ hcount)
        heval₁.inside hplaced₁) ?_
      rintro ws s₂ ⟨⟨regs₂, heval₂, hws, hvalues⟩, hpc₂⟩
      have hplaced₂ := hplaced.left.right
      rw [Line.length_append, Line.length_ofCode, ← Nat.add_assoc, ← hpc₁, ← hpc₂, ← hws]
        at hplaced₂
      have heval := heval₁.trans hin heval₂
      have hkept := heval₂.saved heval₁.inside hsaved heval₁.keeps.low
      refine (call_runs hcalls heval₂.inside (heval.keeps.size.symm ▸ hcount) hvalues (by omega)
        (by omega) hplaced₂).andThen ?_
      rintro w s₃ ⟨⟨regs₃, hanswer⟩, hpc₃⟩
      have hplaced₃ := hplaced.right
      rw [Line.length_append, Line.length_append, Line.length_ofCode, ← hws, ← Nat.add_assoc,
        ← Nat.add_assoc, ← hpc₁, ← hpc₂, ← hpc₃] at hplaced₃
      obtain ⟨k, s₄, regs₄, htrace, heval₄, hw, hpc₄⟩ :=
        answer_trace hcount ht hin hroom hframe heval hkept hanswer hplaced₃
      refine ⟨k, s₄, htrace, ⟨regs₄, heval₄, hw⟩, ?_⟩
      rw [hpc₄, hpc₃, hpc₂, hpc₁, hws]
      simp only [Line.length_append, Line.length_ofCode, Nat.add_assoc]

theorem exprs_runs (hcalls : W.Calls n) {scope : Scope} :
    ∀ (es : List Expr) (t : Nat) (s : State) (regs : Array Word),
      ExprsFit file (env.map Prod.fst) es t → file.count ≤ regs.size →
      W.Inside F env (· = .registers regs) s →
      W.Placed s.pc (exprsCode file scope (env.map Prod.fst) es t) →
      W.Runs n s (Expr.evalAll (W.context F scope n) env es) fun ws s' =>
        (∃ regs', Evaluated W F env t s s' regs regs' ∧ ws.length = es.length ∧
          ∀ i < ws.length, regs'[t + i]? = ws[i]?) ∧
        s'.pc = s.pc + Line.length (exprsCode file scope (env.map Prod.fst) es t)
  | [], t, s, regs, _, _, hin, _ => by
      rw [Expr.evalAll, exprsCode]
      refine .pure ⟨⟨regs, ⟨hin, ?_⟩, rfl, fun i hi => absurd hi (Nat.not_lt_zero i)⟩, rfl⟩
      exact ⟨rfl, fun _ _ => rfl, fun _ _ => rfl, fun _ _ => .inl rfl⟩
  | e :: es, t, s, regs, hfits, hcount, hin, hplaced => by
      rw [ExprsFit] at hfits
      rw [exprsCode] at hplaced ⊢
      rw [Expr.evalAll]
      refine .bind (expr_runs hcalls e t s regs hfits.1 hcount hin hplaced.left) ?_
      rintro w s₁ ⟨⟨regs₁, heval₁, hw⟩, hpc₁⟩
      have hplaced₁ := hplaced.right
      rw [← hpc₁] at hplaced₁
      refine .bind (exprs_runs hcalls es (t + 1) s₁ regs₁ hfits.2
        (heval₁.keeps.size.symm ▸ hcount) heval₁.inside hplaced₁) ?_
      rintro ws s₂ ⟨⟨regs₂, heval₂, hlen, hvalues⟩, hpc₂⟩
      refine .pure ⟨⟨regs₂, heval₁.trans hin (heval₂.mono (Nat.le_succ t)), ?_, ?_⟩, ?_⟩
      · rw [List.length_cons, List.length_cons, hlen]
      · intro i hi
        cases i with
        -- later arguments use higher temporaries
        | zero => exact (heval₂.keeps.low t (Nat.lt_succ_self t)).trans hw
        | succ i =>
            rw [List.length_cons] at hi
            rw [List.getElem?_cons_succ, ← hvalues i (by omega), Nat.add_assoc t 1 i,
              Nat.add_comm 1 i]
      · rw [hpc₂, hpc₁, Line.length_append, Nat.add_assoc]

end

end

/-! ## The target -/

theorem File.temporaries_pos (file : File) : 0 < file.temporaries := by
  have := file.three_le
  rw [File.temporaries]
  omega

theorem target_piecesSound (file : File) : (target file).PiecesSound where
  jumpLength_eq _ := rfl
  zero := by
    rintro code s size hreads ⟨regs, hregs, hsize, hcount⟩
    have hlt : 0 < regs.size := by
      have := file.three_le
      omega
    have hwrites : Writes file 0 0 regs (regs.setIfInBounds 0 0) := writes_set hlt 0
    exact ⟨1, _, Nat.one_pos, mov_trace hreads hregs hlt, _, rfl, hwrites.size.trans hsize, hcount,
      hwrites.value⟩
  invert := by
    rintro code s size w hreads ⟨regs, hregs, hsize, hcount, hw⟩
    obtain ⟨regs', htrace, hwrites⟩ :=
      invertCode_trace hregs (hsize.symm ▸ hcount) file.temporaries_pos hw hreads
    exact ⟨2, _, Nat.two_pos, htrace, _, rfl, hwrites.size.trans hsize, hcount, hwrites.value⟩
  jump := by
    intro code s size offset target hreads hidle htarget hle
    exact ⟨1, s.holder, Nat.one_pos,
      hreads.step (Exec.jumpBy_eq htarget (hreads.size_eq.symm ▸ hle)), hidle⟩
  cjump := by
    rintro code s size w offset target hreads ⟨regs, hregs, hsize, hcount, hw⟩ htarget hle
    refine ⟨1, s.holder, Nat.one_pos, hreads.step ?_, regs, hregs, hsize, hcount⟩
    have hread : regs[(0 : UInt8).toNat]? = some w := hw
    show Instr.exec (.cjump 0 offset) _ = _
    rw [Instr.exec, Exec.bind_eq (Exec.readRegister_eq (s := s.skip _) hregs hread)]
    by_cases hzero : w = 0
    · rw [if_neg (not_not_intro hzero), if_pos hzero]
      rfl
    · rw [if_pos hzero, if_neg hzero]
      exact Exec.jumpBy_eq htarget (hreads.size_eq.symm ▸ hle)
  ret := by
    intro code s size w back rest hreads _ hcalls
    exact ⟨1, hreads.step (Exec.ret_eq hcalls)⟩
  store := by
    rintro code s size w slot hreads ⟨regs, hregs, hsize, hcount, hw⟩ hlt hslot
    exact ⟨3, _, ⟨_, rfl, (size_addressed slot).trans hsize, hcount⟩, storeCode_trace hreads hregs
      (hsize.symm ▸ hcount) file.temporaries_pos hw (slot_lt (by omega)) hlt⟩
  store_fault := by
    rintro code s size w slot hreads ⟨regs, hregs, hsize, hcount, hw⟩ hle hslot
    exact storeCode_faults hreads hregs (hsize.symm ▸ hcount) file.temporaries_pos hw
      (slot_lt (by omega)) hle

theorem target_sound (file : File) : (target file).Sound where
  toPiecesSound := target_piecesSound file
  expr := by
    intro W n hcalls scope F size e env s hfits hin hplaced
    obtain ⟨regs, hregs, hsize, hcount⟩ := hin.holder
    have hin' : W.Inside F env (· = .registers regs) s := hin.operands hregs
    refine (expr_runs hcalls e 0 s regs hfits (hsize.symm ▸ hcount) hin' hplaced).mono ?_
    rintro w s' ⟨⟨regs', heval, hw⟩, hpc⟩
    exact ⟨heval.inside.operands
      ⟨regs', heval.inside.holder, heval.keeps.size.trans hsize, hcount, hw⟩, hpc⟩

end RegisterCode

end DualMachine
