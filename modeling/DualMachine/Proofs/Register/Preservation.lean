import DualMachine.Proofs.Branches
import DualMachine.Proofs.Frames

/-!
# What the code of an expression leaves alone

The code of an expression works in the temporaries from its own on and lets those below it
be. That is no property of its instructions: a call overwrites every register, and the code
saves those in use before it and restores them after it, in slots that the calls in
its arguments use as well. `Live` says how much of the registers and the memory with which
the code began is left at a point of it; `Live.save` and `Live.restore` are the two
ways in which a register moves between the file and the frame.

Nothing is known of the values, and a call may never return or end in a fault. So the code is
not carried out: `Crosses` looks back from a point behind the code and says that
execution has been at its end, with what holds there. The rule for a call
(`Crosses.call`) is the only one that looks into the rest of the program; it takes from the check
of the callee that the frames below it stay (`Linked.Begins.memory_eq`).
-/

namespace DualMachine

open Source

namespace RegisterCode

open Register (Instr)

variable {file : File}

/-! ## Code that execution goes through -/

/-- A call begins an activation whose code is checked. -/
theorem begins_of_call {L : Linked (pieces file)} {name : String} {address : Nat} {s : State}
    (haddress : L.symbols name = some address) (hcomplete : ¬L.complete)
    (hprogram : s.program = (codeBytes L.code).toArray) (hpc : s.pc = address)
    (hdepth : 0 < s.depth) {regs : Array Word} (hregs : s.holder = .registers regs) :
    ∃ P, L.Begins analysis s P := by
  obtain ⟨scope, d, hfits, hplaced, -⟩ := L.function name address haddress
  have hentry : L.Entry address d.args.length :=
    ⟨scope, d, rfl, hfits, hplaced, (absurd · hcomplete)⟩
  refine ⟨⟨analysis.fresh, Set.Iio d.args.length, ∅, true⟩, hprogram, fun _ => hdepth,
    ⟨regs, hregs, ?_⟩, (absurd · hcomplete), rfl, fun n => ?_⟩
  · rintro r w v ⟨⟩
  · rw [hpc]
    exact (analysis_accepts file).entry_checked hentry n

/-- Execution is at a position, in the activation of `s₀`, and `P` is true of registers and
memory. -/
structure Stands (L : Linked (pieces file)) (s₀ : State) (pc : Nat)
    (P : Array Word → Vector Word memorySize → Prop) (s : State) : Prop where
  program : s.program = (codeBytes L.code).toArray
  calls : s.calls = s₀.calls
  pc : s.pc = pc
  holds : ∃ regs, s.holder = .registers regs ∧ file.count ≤ regs.size ∧ P regs s.memory

/-- Execution that comes to the lines with `P`, and at some point of the same activation is at
their end or behind it, has been at their end with `Q`. -/
def Crosses (L : Linked (pieces file)) (s₀ : State) (lines : List (Line Instr))
    (P Q : Array Word → Vector Word memorySize → Prop) : Prop :=
  ∀ (pc stop n : Nat) (σ : Nat → State), L.Placed pc lines → pc + Line.length lines ≤ stop →
    Register.table.History n σ → Stands L s₀ pc P (σ 0) →
    (σ n).pc = stop → (σ n).depth = s₀.depth →
    ∃ m ≤ n, Stands L s₀ (pc + Line.length lines) Q (σ m)

theorem Stands.pos {L : Linked (pieces file)} {s₀ : State} {pc n : Nat} {σ : Nat → State}
    {P : Array Word → Vector Word memorySize → Prop} (hstands : Stands L s₀ pc P (σ 0))
    (hpc : (σ n).pc ≠ pc) : 0 < n := by
  rcases Nat.eq_zero_or_pos n with rfl | hn
  · exact absurd hstands.pc hpc
  · exact hn

namespace Crosses

variable {L : Linked (pieces file)} {s₀ : State} {lines : List (Line Instr)}
  {P P' Q Q' R : Array Word → Vector Word memorySize → Prop}

theorem nil : Crosses L s₀ [] P P := by
  intro pc stop n σ _ _ _ hstands _ _
  exact ⟨0, Nat.zero_le n, hstands⟩

theorem append {a b : List (Line Instr)} (ha : Crosses L s₀ a P Q) (hb : Crosses L s₀ b Q R) :
    Crosses L s₀ (a ++ b) P R := by
  intro pc stop n σ hplaced hstop h hstands hpc hdepth
  rw [Line.length_append, ← Nat.add_assoc] at hstop ⊢
  obtain ⟨m, hm, hmid⟩ := ha _ _ _ _ hplaced.left (by omega) h hstands hpc hdepth
  have hlast : m + (n - m) = n := by omega
  obtain ⟨k, hk, hend⟩ := hb _ _ (n - m) (fun k => σ (m + k)) hplaced.right hstop
    (h.drop m) hmid (by rw [hlast]; exact hpc) (by rw [hlast]; exact hdepth)
  exact ⟨m + k, by omega, hend⟩

theorem weaken (h : Crosses L s₀ lines P Q) (hP : ∀ regs memory, P' regs memory → P regs memory)
    (hQ : ∀ regs memory, Q regs memory → Q' regs memory) : Crosses L s₀ lines P' Q' := by
  intro pc stop n σ hplaced hstop hhistory hstands hpc hdepth
  obtain ⟨regs, hregs, hcount, hholds⟩ := hstands.holds
  have hstart : Stands L s₀ pc P (σ 0) :=
    { hstands with holds := ⟨regs, hregs, hcount, hP _ _ hholds⟩ }
  obtain ⟨m, hm, hend⟩ := h _ _ _ _ hplaced hstop hhistory hstart hpc hdepth
  obtain ⟨regs', hregs', hcount', hholds'⟩ := hend.holds
  exact ⟨m, hm, { hend with holds := ⟨regs', hregs', hcount', hQ _ _ hholds'⟩ }⟩

/-- An instruction that goes on to the next. -/
theorem single {i : Instr}
    (hstep : ∀ s s' regs, s.frameBase false = s₀.frameBase false → s.holder = .registers regs →
      file.count ≤ regs.size → P regs s.memory → Register.Outcome s i s' →
      ∃ regs' memory, s' = { s with holder := .registers regs', memory } ∧
        regs'.size = regs.size ∧ Q regs' memory) :
    Crosses L s₀ (Line.ofCode [i]) P Q := by
  intro pc stop n σ hplaced hstop h hstands hpc hdepth
  have hcode := hplaced.ofCode
  rw [Line.length_ofCode, codeLength_cons, codeLength_nil, Nat.add_zero] at hstop ⊢
  have hwidth := width_pos i
  have hn := hstands.pos (n := n) (by omega)
  have hat : At L.code i (σ 0) := ⟨hstands.program, hstands.pc.symm ▸ hcode⟩
  have hexec := hat.step_eq.symm.trans (h 0 hn)
  obtain ⟨regs, hregs, hcount, hholds⟩ := hstands.holds
  have hbase : ((σ 0).skip (width i)).frameBase false = s₀.frameBase false := by
    rw [State.frameBase, State.frameBase, State.depth, State.depth, ← hstands.calls]
    rfl
  obtain ⟨regs', memory, hnext, hsize, hholds'⟩ :=
    hstep _ _ regs hbase hregs hcount hholds (Register.outcome_of_exec hexec)
  refine ⟨1, hn, ?_⟩
  rw [hnext]
  refine ⟨hstands.program, hstands.calls, ?_, regs', rfl, by omega, hholds'⟩
  show (σ 0).pc + width i = pc + width i
  rw [hstands.pc]

/-- A call: below the frame of the callee memory stays, nothing is known of the registers. -/
theorem call {name : String} (hcomplete : ¬L.complete)
    (hback : ∀ regs memory regs' memory', P regs memory →
      (∀ a : Fin memorySize, a < s₀.depth * frameSize → memory'.get a = memory.get a) →
      Q regs' memory') :
    Crosses L s₀ [.call name] P Q := by
  intro pc stop n σ hplaced hstop h hstands hpc hdepth
  obtain ⟨address, haddress, htarget, hcode, hwidth⟩ := Linked.code_of_call hplaced
  rw [← hwidth] at hstop ⊢
  have hpos := width_pos (InstructionSet.call (Int32.ofInt (address : Nat)) : Instr)
  have hn := hstands.pos (n := n) (by omega)
  have hat : At L.code (InstructionSet.call (Int32.ofInt (address : Nat))) (σ 0) :=
    ⟨hstands.program, hstands.pc.symm ▸ hcode⟩
  obtain ⟨regs, hregs, hcount, hholds⟩ := hstands.holds
  obtain ⟨target, hto, -, hbegun⟩ := Exec.call_ok (hat.step_eq.symm.trans (h 0 hn))
  obtain rfl : target = address := Int.ofNat.inj (hto.trans htarget)
  have hrole : Register.table.role? (σ 0) = some .call :=
    congrArg (Option.map Operation.role) (analysis_sound.operation_eq hat)
  have hlow : (σ n).depth ≤ (σ 0).depth := by rw [hdepth, State.depth, State.depth, hstands.calls]
  obtain ⟨r, hr, hm⟩ := h.exists_matches hn hrole hlow
  -- the callee runs from its first point on and ends with the return
  obtain ⟨P', hbegins⟩ : ∃ P', L.Begins analysis (σ 1) P' := by
    rw [hbegun]
    exact begins_of_call haddress hcomplete hstands.program rfl (Nat.succ_pos _) hregs
  have hmemory : ∀ a : Fin memorySize, a < s₀.depth * frameSize →
      (σ (r + 1)).memory.get a = (σ 0).memory.get a := fun a ha =>
    hbegins.memory_eq analysis_sound (analysis_accepts file) h hr hm
      (by rwa [State.depth, hstands.calls])
  have hcalls := hm.calls_begun h hr
  rw [hbegun] at hcalls
  obtain ⟨regs', hregs', hsize⟩ := h.exists_registers hr hregs
  refine ⟨r + 1, hr, (h.program_eq hr).trans hstands.program,
    (hm.calls_eq h hr).trans hstands.calls, ?_, regs', hregs', by omega,
    hback _ _ _ _ hholds hmemory⟩
  rw [← (List.cons.inj hcalls).1, ← hstands.pc]
  rfl

theorem mov {dst : UInt8} {w : Word}
    (h : ∀ regs memory, file.count ≤ regs.size → P regs memory →
      Q (regs.setIfInBounds dst.toNat w) memory) :
    Crosses L s₀ (Line.ofCode [.mov dst w]) P Q := by
  refine single fun s s' regs _ hregs hcount hholds houtcome => ?_
  cases houtcome with
  | mov hfile hdst =>
      obtain rfl := Holder.registers.inj (hregs.symm.trans hfile)
      exact ⟨_, _, rfl, Array.size_setIfInBounds, h _ _ hcount hholds⟩

/-- A slot of the frame is addressed. -/
theorem address (slot : Nat) :
    Crosses L s₀
      (Line.ofCode [.mov file.address (Int32.ofNat slot)] ++ Line.ofCode [.mov file.flag 0]) P
      fun regs memory => ∃ before, file.count ≤ before.size ∧ P before memory ∧
        regs = addressed file before slot := by
  have hmov : Crosses L s₀ (Line.ofCode [.mov file.address (Int32.ofNat slot)]) P
      fun regs memory => ∃ before, file.count ≤ before.size ∧ P before memory ∧
        regs = before.setIfInBounds file.address.toNat (Int32.ofNat slot) :=
    mov fun regs memory hcount hholds => ⟨regs, hcount, hholds, rfl⟩
  refine hmov.append (mov ?_)
  rintro _ memory - ⟨regs, hcount, hholds, rfl⟩
  refine ⟨regs, hcount, hholds, ?_⟩
  rw [addressed, File.address_toNat, File.flag_toNat]

/-- The memory index of a slot that is addressed. -/
theorem slot_eq {s : State} {slot : Nat} {i : Fin memorySize} (hslot : slot < 2 ^ 31)
    (hbase : s.frameBase false = s₀.frameBase false)
    (hi : s.address (Int32.ofNat slot) ((0 : Word) != 0) = .ok i) :
    (i : Nat) = s₀.frameBase false + slot := by
  have hat := State.address_ok_iff.mp hi
  rw [Int32.toInt_ofNat_of_lt hslot, bne_self_eq_false, hbase] at hat
  omega

theorem store {src : UInt8} {slot : Nat} (hsrc : src.toNat < file.temporaries)
    (hslot : slot < 2 ^ 31)
    (h : ∀ regs memory w (a : Fin memorySize), (a : Nat) = s₀.frameBase false + slot →
      P regs memory → regs[src.toNat]? = some w →
      Q (addressed file regs slot) (memory.set a w a.isLt)) :
    Crosses L s₀ (Line.ofCode (storeCode file src slot)) P Q := by
  refine (address slot).append (single ?_)
  rintro s s' _ hbase hregs - ⟨regs, hcount, hholds, rfl⟩ houtcome
  cases houtcome with
  | store hfile hw ha hg hi =>
      obtain rfl := Holder.registers.inj (hregs.symm.trans hfile)
      obtain rfl := Option.some.inj ((addressed_address hcount slot).symm.trans ha)
      obtain rfl := Option.some.inj ((addressed_flag hcount slot).symm.trans hg)
      rw [addressed_low hsrc] at hw
      exact ⟨_, _, by rw [← hregs], rfl, h _ _ _ _ (slot_eq hslot hbase hi) hholds hw⟩

theorem load {dst : UInt8} {slot : Nat} (hslot : slot < 2 ^ 31)
    (h : ∀ regs memory (a : Fin memorySize), (a : Nat) = s₀.frameBase false + slot →
      file.count ≤ regs.size → P regs memory →
      Q ((addressed file regs slot).setIfInBounds dst.toNat (memory.get a)) memory) :
    Crosses L s₀ (Line.ofCode (loadCode file dst slot)) P Q := by
  refine (address slot).append (single ?_)
  rintro s s' _ hbase hregs - ⟨regs, hcount, hholds, rfl⟩ houtcome
  cases houtcome with
  | load hfile ha hg hi hdst =>
      obtain rfl := Holder.registers.inj (hregs.symm.trans hfile)
      obtain rfl := Option.some.inj ((addressed_address hcount slot).symm.trans ha)
      obtain rfl := Option.some.inj ((addressed_flag hcount slot).symm.trans hg)
      exact ⟨_, _, rfl, Array.size_setIfInBounds, h _ _ _ (slot_eq hslot hbase hi) hcount hholds⟩

end Crosses

/-! ## What is kept -/

/-- What is left of the registers `start` and the memory of `s₀`: the words below the activation
and in its first `slots` slots, the registers below `kept`, and in the slots after the first
the registers below `saved`. -/
structure Live (s₀ : State) (start : Array Word) (slots kept saved : Nat) (regs : Array Word)
    (memory : Vector Word memorySize) : Prop where
  words : ∀ a : Fin memorySize, a < s₀.frameBase false + slots →
    memory.get a = s₀.memory.get a
  kept : ∀ r < kept, regs[r]? = start[r]?
  saved : ∀ r < saved, ∀ a : Fin memorySize, (a : Nat) = s₀.frameBase false + (slots + r) →
    some (memory.get a) = start[r]?

namespace Live

variable {s₀ : State} {start regs : Array Word} {memory : Vector Word memorySize}
  {slots kept saved kept' saved' : Nat}

theorem mono (h : Live s₀ start slots kept saved regs memory) (hkept : kept' ≤ kept)
    (hsaved : saved' ≤ saved) : Live s₀ start slots kept' saved' regs memory where
  words := h.words
  kept r hr := h.kept r (by omega)
  saved r hr := h.saved r (by omega)

theorem set_register (h : Live s₀ start slots kept saved regs memory) {r : Nat} (hr : kept ≤ r)
    (w : Word) : Live s₀ start slots kept saved (regs.setIfInBounds r w) memory where
  words := h.words
  kept k hk := by rw [Array.getElem?_setIfInBounds_ne (by omega), h.kept k hk]
  saved := h.saved

theorem addressed (h : Live s₀ start slots kept saved regs memory)
    (hkept : kept ≤ file.temporaries) (slot : Nat) :
    Live s₀ start slots kept saved (addressed file regs slot) memory where
  words := h.words
  kept r hr := by rw [addressed_low (by omega), h.kept r hr]
  saved := h.saved

theorem set_word (h : Live s₀ start slots kept saved regs memory) {a : Fin memorySize}
    (ha : s₀.frameBase false + (slots + saved) ≤ a) (w : Word) :
    Live s₀ start slots kept saved regs (memory.set a w a.isLt) where
  words b hb := (Vector.getElem_set_ne a.isLt b.isLt (by omega)).trans (h.words b hb)
  kept := h.kept
  saved r hr b hb := by
    rw [← h.saved r hr b hb]
    exact congrArg some (Vector.getElem_set_ne a.isLt b.isLt (by omega))

/-- The next register is saved. -/
theorem save (h : Live s₀ start slots kept saved regs memory) (hsaved : saved < kept)
    {a : Fin memorySize} (ha : (a : Nat) = s₀.frameBase false + (slots + saved)) {w : Word}
    (hw : regs[saved]? = some w) :
    Live s₀ start slots kept (saved + 1) regs (memory.set a w a.isLt) where
  words := (h.set_word (Nat.le_of_eq ha.symm) w).words
  kept := h.kept
  saved r hr b hb := by
    rcases Nat.lt_or_eq_of_le (Nat.le_of_lt_succ hr) with hlt | rfl
    · exact (h.set_word (Nat.le_of_eq ha.symm) w).saved r hlt b hb
    · obtain rfl : b = a := Fin.ext (hb.trans ha.symm)
      rw [← h.kept r hsaved, hw]
      exact congrArg some (Vector.getElem_set_self b.isLt)

/-- The next register is restored. -/
theorem restore (h : Live s₀ start slots kept saved regs memory) (hkept : kept < saved)
    (hsize : kept < regs.size) {a : Fin memorySize}
    (ha : (a : Nat) = s₀.frameBase false + (slots + kept)) :
    Live s₀ start slots (kept + 1) saved (regs.setIfInBounds kept (memory.get a)) memory where
  words := h.words
  kept r hr := by
    rcases Nat.lt_or_eq_of_le (Nat.le_of_lt_succ hr) with hlt | rfl
    · exact (h.set_register (Nat.le_refl kept) _).kept r hlt
    · rw [Array.getElem?_setIfInBounds_self_of_lt hsize, h.saved r hkept a ha]
  saved := h.saved

/-- A call keeps what is in memory. -/
theorem of_memory (h : Live s₀ start slots kept saved regs memory) (hdepth : 0 < s₀.depth)
    (hslots : slots + saved ≤ frameSize) (regs' : Array Word)
    {memory' : Vector Word memorySize}
    (hmemory : ∀ a : Fin memorySize, a < s₀.depth * frameSize → memory'.get a = memory.get a) :
    Live s₀ start slots 0 saved regs' memory' := by
  have hnext := State.frameBase_add hdepth
  refine ⟨fun a ha => ?_, fun r hr => absurd hr (Nat.not_lt_zero r), fun r hr a ha => ?_⟩
  · rw [hmemory a (by omega), h.words a ha]
  · rw [hmemory a (by omega), h.saved r hr a ha]

end Live

/-- The instruction writes a register from `low` on and nothing else. -/
def WritesFrom (low : Nat) : Instr → Prop
  | .mov dst _ | .alu _ dst _ _ | .dup dst _ | .load dst _ _ => low ≤ dst.toNat
  | _ => False

section

variable {L : Linked (pieces file)} {s₀ : State} {start : Array Word} {slots kept saved : Nat}

theorem WritesFrom.crosses {i : Instr} (h : WritesFrom kept i) :
    Crosses L s₀ (Line.ofCode [i]) (Live s₀ start slots kept saved)
      (Live s₀ start slots kept saved) := by
  refine .single fun s s' regs _ hregs _ hlive houtcome => ?_
  cases houtcome with
  | mov hfile | alu hfile | dup hfile | load hfile =>
      obtain rfl := Holder.registers.inj (hregs.symm.trans hfile)
      exact ⟨_, _, rfl, Array.size_setIfInBounds, hlive.set_register h _⟩
  | _ => cases h

theorem writesFrom_crosses {code : List Instr} (h : ∀ i ∈ code, WritesFrom kept i) :
    Crosses L s₀ (Line.ofCode code) (Live s₀ start slots kept saved)
      (Live s₀ start slots kept saved) := by
  induction code with
  | nil => exact .nil
  | cons i code ih =>
      obtain ⟨hi, hcode⟩ := List.forall_mem_cons.mp h
      exact hi.crosses.append (ih hcode)

/-- The registers that the code for temporary `t` writes itself. -/
theorem File.le_toNat {t : Nat} (ht : t < file.temporaries) (hkept : kept ≤ t) :
    kept ≤ (UInt8.ofNat t).toNat ∧ kept ≤ file.address.toNat ∧ kept ≤ file.flag.toNat := by
  rw [File.toNat_ofNat ht, file.address_toNat, file.flag_toNat]
  rw [File.temporaries] at ht
  omega

section

variable {t : Nat} (ht : t < file.temporaries) (hkept : kept ≤ t)

include ht hkept

theorem loadCode_writesFrom (slot : Nat) :
    ∀ i ∈ loadCode file (UInt8.ofNat t) slot, WritesFrom kept i := by
  obtain ⟨hdst, haddress, hflag⟩ := File.le_toNat ht hkept
  simp only [loadCode, List.forall_mem_cons]
  exact ⟨haddress, hflag, hdst, List.forall_mem_nil _⟩

theorem invertCode_writesFrom : ∀ i ∈ invertCode file (UInt8.ofNat t), WritesFrom kept i := by
  obtain ⟨hdst, -, hflag⟩ := File.le_toNat ht hkept
  simp only [invertCode, List.forall_mem_cons]
  exact ⟨hflag, hdst, List.forall_mem_nil _⟩

theorem unaryCode_writesFrom (op : UnaryOp) :
    ∀ i ∈ unaryCode file (UInt8.ofNat t) op, WritesFrom kept i := by
  cases op with
  | neg =>
      obtain ⟨hdst, -, hflag⟩ := File.le_toNat ht hkept
      simp only [unaryCode, List.forall_mem_cons]
      exact ⟨hflag, hdst, List.forall_mem_nil _⟩
  | not => exact invertCode_writesFrom ht hkept

theorem binaryCode_writesFrom (op : BinaryOp) (rhs : UInt8) :
    ∀ i ∈ binaryCode file (UInt8.ofNat t) rhs op, WritesFrom kept i := by
  obtain ⟨hdst, -, -⟩ := File.le_toNat ht hkept
  refine List.forall_mem_cons.mpr ⟨hdst, ?_⟩
  cases op.lowered.2 with
  | true => exact invertCode_writesFrom ht hkept
  | false => exact List.forall_mem_nil _

theorem resultCode_writesFrom : ∀ i ∈ resultCode t, WritesFrom kept i := by
  obtain ⟨hdst, -, -⟩ := File.le_toNat ht hkept
  unfold resultCode
  split
  · exact List.forall_mem_nil _
  · exact List.forall_mem_singleton.mpr hdst

end

/-- Stores above what is saved. -/
theorem saveCode_crosses {first slot count : Nat} (hkept : kept ≤ file.temporaries)
    (htemps : first + count ≤ file.temporaries) (hlow : slots + saved ≤ slot)
    (hslot : slot + count < 2 ^ 31) :
    Crosses L s₀ (Line.ofCode (saveCode file first slot count)) (Live s₀ start slots kept saved)
      (Live s₀ start slots kept saved) := by
  induction count with
  | zero => exact .nil
  | succ count ih =>
      rw [saveCode_succ, Line.ofCode_append]
      have hlt : first + count < file.temporaries := by omega
      have hsrc : (UInt8.ofNat (first + count)).toNat < file.temporaries := by
        rwa [File.toNat_ofNat hlt]
      refine (ih (by omega) (by omega)).append (.store hsrc (by omega) ?_)
      intro regs memory w a ha hlive _
      exact (hlive.addressed hkept _).set_word (by omega) w

/-- The registers that are kept are saved, with others. -/
theorem keepCode_crosses {count : Nat} (hkept : kept ≤ file.temporaries)
    (hcount : count ≤ file.temporaries) (hslots : slots + count ≤ frameSize) :
    Crosses L s₀ (Line.ofCode (saveCode file 0 slots count)) (Live s₀ start slots kept 0)
      (Live s₀ start slots kept (min count kept)) := by
  induction count with
  | zero =>
      rw [Nat.zero_min]
      exact .nil
  | succ count ih =>
      rw [saveCode_succ, Line.ofCode_append, Nat.zero_add]
      have hsrc : (UInt8.ofNat count).toNat = count := File.toNat_ofNat hcount
      refine (ih (by omega) (by omega)).append
        (.store (by omega) (slot_lt (by omega)) fun regs memory w a ha hlive hw => ?_)
      rw [hsrc] at hw
      have hlive := hlive.addressed hkept (slots + count)
      -- registers from `kept` on are saved as well, above those that matter
      rcases Nat.lt_or_ge count kept with hlt | hge
      · rw [Nat.min_eq_left (Nat.le_of_lt hlt)] at hlive
        rw [Nat.min_eq_left hlt]
        exact hlive.save hlt ha (by rwa [addressed_low hcount])
      · rw [Nat.min_eq_right hge] at hlive
        rw [Nat.min_eq_right (Nat.le_succ_of_le hge)]
        exact hlive.set_word (by omega) w

/-- The registers that are kept are restored, with others. -/
theorem restoreCode_crosses {count : Nat} (hkept : kept ≤ file.temporaries)
    (hcount : count ≤ file.temporaries) (hslots : slots + count ≤ frameSize) :
    Crosses L s₀ (Line.ofCode (restoreCode file slots count)) (Live s₀ start slots 0 kept)
      (Live s₀ start slots (min count kept) kept) := by
  induction count with
  | zero =>
      rw [Nat.zero_min]
      exact .nil
  | succ count ih =>
      rw [restoreCode_succ, Line.ofCode_append]
      have hdst : (UInt8.ofNat count).toNat = count := File.toNat_ofNat hcount
      refine (ih (by omega) (by omega)).append
        (.load (slot_lt (by omega)) fun regs memory a ha hsize hlive => ?_)
      rw [hdst]
      have hlow : min count kept ≤ file.temporaries := Nat.le_trans (Nat.min_le_right _ _) hkept
      have hlive := hlive.addressed hlow (slots + count)
      rcases Nat.lt_or_ge count kept with hlt | hge
      · rw [Nat.min_eq_left (Nat.le_of_lt hlt)] at hlive
        rw [Nat.min_eq_left hlt]
        refine hlive.restore hlt ?_ ha
        rw [size_addressed]
        rw [File.temporaries] at hcount
        omega
      · rw [Nat.min_eq_right hge] at hlive
        rw [Nat.min_eq_right (Nat.le_succ_of_le hge)]
        exact hlive.set_register hge _

end

/-! ## Expressions -/

theorem ExprFits.lt {vars : List String} {e : Expr} {t : Nat} (h : ExprFits file vars e t) :
    t < file.temporaries := by
  cases e with
  | number n | boolean b => rwa [ExprFits] at h
  | identifier x => rw [ExprFits] at h; exact h.1
  | paren inner => rw [ExprFits] at h; exact h.1
  | unary op operand => rw [ExprFits] at h; exact h.1
  | binary op left right => rw [ExprFits] at h; exact Nat.lt_of_succ_lt h.1
  | call f args => rw [ExprFits] at h; exact h.1

section

variable {L : Linked (pieces file)} {s₀ : State} {start : Array Word} {scope : Scope}
  {vars : List String}

/-- A call: the registers are saved before the arguments and restored after it. -/
theorem call_crosses {args : List (Line Instr)} {name : String} {count t kept saved : Nat}
    (hcomplete : ¬L.complete) (hdepth : 0 < s₀.depth) (ht : t < file.temporaries)
    (htemps : t + count ≤ file.temporaries) (hcount : count ≤ frameSize)
    (hroom : vars.length + t ≤ frameSize) (hkept : kept ≤ t) (hsaved : saved ≤ kept)
    (hargs : Crosses L s₀ args (Live s₀ start vars.length kept kept)
      (Live s₀ start vars.length kept kept)) :
    Crosses L s₀
      (Line.ofCode (saveCode file 0 vars.length t) ++ args
        ++ (Line.ofCode (saveCode file t frameSize count) ++ [.call name])
        ++ (Line.ofCode (resultCode t) ++ Line.ofCode (restoreCode file vars.length t)))
      (Live s₀ start vars.length kept saved) (Live s₀ start vars.length kept saved) := by
  have hsave : Crosses L s₀ (Line.ofCode (saveCode file 0 vars.length t))
      (Live s₀ start vars.length kept 0) (Live s₀ start vars.length kept (min t kept)) :=
    keepCode_crosses (by omega) (Nat.le_of_lt ht) hroom
  have hpass : Crosses L s₀ (Line.ofCode (saveCode file t frameSize count))
      (Live s₀ start vars.length kept kept) (Live s₀ start vars.length kept kept) :=
    saveCode_crosses (by omega) htemps (by omega) (slot_lt (by omega))
  have hcall : Crosses L s₀ [.call name] (Live s₀ start vars.length kept kept)
      (Live s₀ start vars.length 0 kept) :=
    .call hcomplete fun _ _ regs' _ hlive hmemory =>
      hlive.of_memory hdepth (by omega) regs' hmemory
  have hresult : Crosses L s₀ (Line.ofCode (resultCode t)) (Live s₀ start vars.length 0 kept)
      (Live s₀ start vars.length 0 kept) :=
    writesFrom_crosses (resultCode_writesFrom ht (Nat.zero_le t))
  have hrestore : Crosses L s₀ (Line.ofCode (restoreCode file vars.length t))
      (Live s₀ start vars.length 0 kept) (Live s₀ start vars.length (min t kept) kept) :=
    restoreCode_crosses (by omega) (Nat.le_of_lt ht) hroom
  rw [Nat.min_eq_right hkept] at hsave hrestore
  refine .weaken (((hsave.append hargs).append (hpass.append hcall)).append
    (hresult.append hrestore)) ?_ ?_
  · exact fun regs memory hlive => hlive.mono (Nat.le_refl kept) (Nat.zero_le saved)
  · exact fun regs memory hlive => hlive.mono (Nat.le_refl kept) hsaved

mutual

theorem expr_crosses (hcomplete : ¬L.complete) (hdepth : 0 < s₀.depth) :
    ∀ (e : Expr) (t : Nat) {kept saved : Nat}, ExprFits file vars e t → kept ≤ t → saved ≤ kept →
    Crosses L s₀ (exprCode file scope vars e t) (Live s₀ start vars.length kept saved)
      (Live s₀ start vars.length kept saved)
  | .number n, t, kept, saved, hfits, hkept, _ => by
      rw [exprCode]
      exact WritesFrom.crosses (i := .mov _ _) (File.le_toNat hfits.lt hkept).1
  | .boolean b, t, kept, saved, hfits, hkept, _ => by
      rw [exprCode]
      exact WritesFrom.crosses (i := .mov _ _) (File.le_toNat hfits.lt hkept).1
  | .identifier x, t, kept, saved, hfits, hkept, _ => by
      rw [exprCode]
      exact writesFrom_crosses (loadCode_writesFrom hfits.lt hkept _)
  | .paren inner, t, kept, saved, hfits, hkept, hsaved => by
      rw [ExprFits] at hfits
      rw [exprCode]
      exact expr_crosses hcomplete hdepth inner t hfits.2 hkept hsaved
  | .unary op operand, t, kept, saved, hfits, hkept, hsaved => by
      rw [ExprFits] at hfits
      rw [exprCode]
      exact (expr_crosses hcomplete hdepth operand t hfits.2 hkept hsaved).append
        (writesFrom_crosses (unaryCode_writesFrom hfits.1 hkept op))
  | .binary op left right, t, kept, saved, hfits, hkept, hsaved => by
      rw [ExprFits] at hfits
      rw [exprCode]
      have hleft := expr_crosses hcomplete hdepth left t hfits.2.1 hkept hsaved
      have hright := expr_crosses hcomplete hdepth right (t + 1) hfits.2.2
        (Nat.le_succ_of_le hkept) hsaved
      exact (hleft.append hright).append
        (writesFrom_crosses (binaryCode_writesFrom (Nat.lt_of_succ_lt hfits.1) hkept op _))
  | .call f args, t, kept, saved, hfits, hkept, hsaved => by
      rw [ExprFits] at hfits
      rw [exprCode]
      obtain ⟨ht, hcount, htemps, hroom, hargs⟩ := hfits
      exact call_crosses hcomplete hdepth ht (by omega) hcount hroom hkept hsaved
        (exprs_crosses hcomplete hdepth args t hargs hkept (Nat.le_refl kept))

theorem exprs_crosses (hcomplete : ¬L.complete) (hdepth : 0 < s₀.depth) :
    ∀ (es : List Expr) (t : Nat) {kept saved : Nat}, ExprsFit file vars es t → kept ≤ t →
    saved ≤ kept →
    Crosses L s₀ (exprsCode file scope vars es t) (Live s₀ start vars.length kept saved)
      (Live s₀ start vars.length kept saved)
  | [], t, kept, saved, _, _, _ => by
      rw [exprsCode]
      exact .nil
  | e :: es, t, kept, saved, hfits, hkept, hsaved => by
      rw [ExprsFit] at hfits
      rw [exprsCode]
      exact (expr_crosses hcomplete hdepth e t hfits.1 hkept hsaved).append
        (exprs_crosses hcomplete hdepth es (t + 1) hfits.2 (Nat.le_succ_of_le hkept) hsaved)

end

end

/-! ## Where code stands -/

theorem symbolic_injective : Function.Injective (Line.symbolic (ι := Instr)) :=
  Line.symbolic_injective (analysis_sound.bytes_injective fun _ _ => Operation.register.inj)

/-- What is added to a draft whose code begins a function stands in the function. -/
theorem placed_of_draft {L : Linked (pieces file)} {address : Nat} {body : List Instruction}
    {lines part : List (Line Instr)} (hbody : body = lines.map Line.symbolic)
    (hplaced : L.Placed address lines) {draft : Draft} {vars : List String}
    (hcode : (draft.extend part vars).code.toList <+: body) :
    L.Placed (address + draft.position) part :=
  .of_draft symbolic_injective hbody hplaced hcode

end RegisterCode

/-- Where the code of an expression leads to its end, the registers below its temporary, the
words of the variables in scope and of all frames below, and the pending calls are what they
were before it. The function `f` has been compiled through the drafts `before` and `after`. -/
theorem lower_temporaries_kept {file : RegisterCode.File} {entry : String} {ps : List Package}
    {program : Program}
    (hfinish : (({ backend := RegisterCode.backend file, entry } : Session).compileAll ps).finish
      = .ok program)
    (hsize : program.bytes.length < 2 ^ 31) {f : CompiledFunction}
    (hf : f ∈ (({ backend := RegisterCode.backend file, entry } : Session).compileAll ps).functions)
    {address : Nat} (haddress : program.symbols.lookup f.name = some address)
    {e : Expr} {t : Nat} {before after : Draft}
    (hexpr : RegisterCode.expr file e t before = .ok () after)
    (hcode : after.code.toList <+: f.body) {n : Nat} {σ : Nat → State}
    (h : Register.table.History n σ) (hprogram : (σ 0).program = program.bytes.toArray)
    (hstart : (σ 0).pc = address + before.position) (hdepth : 1 ≤ (σ 0).depth)
    {regs : Array Word} (hregs : (σ 0).registers? = some regs) (hcount : file.count ≤ regs.size)
    (hstop : (σ n).pc = address + after.position ∧ (σ n).depth = (σ 0).depth)
    (hfirst : ∀ k < n, ¬((σ k).pc = address + after.position ∧ (σ k).depth = (σ 0).depth)) :
    (∃ regs', (σ n).registers? = some regs' ∧ ∀ r < t, regs'[r]? = regs[r]?) ∧
    (∀ a : Fin memorySize, a < (σ 0).frameBase false + before.vars.length →
      (σ n).memory.get a = (σ 0).memory.get a) ∧
    (σ n).calls = (σ 0).calls := by
  obtain ⟨L, hcomplete, hbytes, -, hfunctions⟩ :=
    Session.linked (RegisterCode.compiler file) hfinish hsize
  obtain ⟨lines, hbody, hplaced⟩ := hfunctions f hf address haddress
  obtain ⟨hfits, -, rfl⟩ := (RegisterCode.expr_emits e t before rfl rfl () after).mp hexpr
  have hpart := RegisterCode.placed_of_draft hbody hplaced hcode
  have hstands : RegisterCode.Stands L (σ 0) (address + before.position)
      (RegisterCode.Live (σ 0) regs before.vars.length t 0) (σ 0) := by
    refine ⟨by rw [hprogram, hbytes], rfl, hstart, regs, State.registers?_eq_some.mp hregs,
      hcount, fun _ _ => rfl, fun _ _ => rfl, fun r hr => absurd hr (Nat.not_lt_zero r)⟩
  rw [Draft.extend_position, ← Nat.add_assoc] at hstop hfirst
  obtain ⟨m, hm, hend⟩ := RegisterCode.expr_crosses hcomplete hdepth e t hfits (Nat.le_refl t)
    (Nat.zero_le t) _ _ n σ hpart (Nat.le_refl _) h hstands hstop.1 hstop.2
  -- the end is reached at `m`, so that is the last point
  obtain rfl : m = n := by
    rcases Nat.lt_or_eq_of_le hm with hlt | heq
    · exact absurd ⟨hend.pc, congrArg List.length hend.calls⟩ (hfirst m hlt)
    · exact heq
  obtain ⟨regs', hregs', -, hlive⟩ := hend.holds
  exact ⟨⟨regs', State.registers?_eq_some.mpr hregs', hlive.kept⟩, hlive.words, hend.calls⟩

/-- Calls in both operands of the argument of a call. -/
def nestCall : Expr :=
  .call "same" [.binary .add (.call "same" [.number 1]) (.call "same" [.number 2])]

/-- A function that gives back its argument, and one that takes the calls from a variable. -/
def nest : Package :=
  .mk [] [⟨"same", ["n"], .expression (.identifier "n")⟩,
    ⟨"main", [], .block [.var "x" (.number 5),
      .return (.binary .sub (.identifier "x") nestCall)]⟩]

def nestSession : Session :=
  Session.compileAll { backend := RegisterCode.backend .standard, entry := "main" } [nest]

/-- The program that it makes. -/
def nestProgram : Program := nestSession.finish.toOption.getD default

def nestMain : CompiledFunction :=
  (nestSession.functions.find? (·.name == "main")).getD default

/-- The draft of the function before the call is compiled, into temporary 1. -/
def nestBefore : Draft :=
  let compile : Gen Unit := do
    RegisterCode.statement .standard (.var "x" (.number 5))
    RegisterCode.expr .standard (.identifier "x") 0
  match compile { function := "main", scope := .root } with
  | .ok _ draft => draft
  | .error _ draft => draft

/-- The states from the code of the calls on, with 5 in the first register. -/
def nestStates : Nat → State :=
  Register.table.states
    { Kind.register.machine.start {} nestProgram.bytes with
      holder := .registers #[5, 0, 0, 0, 0, 0, 0, 0]
      calls := [5]
      pc := 44 }

/-- The first register holds 5 before the calls and after them, and other values in between. -/
theorem lower_temporaries_kept_nest :
    (nestStates 0).result? = some 5 ∧ (nestStates 33).result? = some 2 ∧
    (∃ regs, (nestStates 54).registers? = some regs ∧ regs[0]? = some 5) ∧
    (∀ a : Fin memorySize, (a : Nat) < 1 →
      (nestStates 54).memory.get a = (nestStates 0).memory.get a) ∧
    (nestStates 54).calls = [5] := by
  have hfinish : nestSession.finish = .ok nestProgram := by decide +kernel
  have hsize : nestProgram.bytes.length < 2 ^ 31 := by decide +kernel
  have hmain : nestMain ∈ nestSession.functions ∧
      nestProgram.symbols.lookup nestMain.name = some 6 := by decide +kernel
  have hbefore : nestBefore.position = 38 ∧ nestBefore.vars = ["x"] ∧
      nestBefore.scope = .root := by decide +kernel
  obtain ⟨hposition, hvars, hscope⟩ := hbefore
  have hfits : RegisterCode.ExprFits .standard nestBefore.vars nestCall 1 := by
    rw [hvars]
    simp only [nestCall, RegisterCode.ExprFits, RegisterCode.ExprsFit]
    decide
  have hexpr := (RegisterCode.expr_emits nestCall 1 nestBefore hscope rfl () _).mpr
    ⟨hfits, rfl, rfl⟩
  have hafter : (nestBefore.extend
        (RegisterCode.exprCode .standard .root nestBefore.vars nestCall 1)
        nestBefore.vars).code.toList <+: nestMain.body ∧
      (nestBefore.extend (RegisterCode.exprCode .standard .root nestBefore.vars nestCall 1)
        nestBefore.vars).position = 254 := by decide +kernel
  obtain ⟨hcode, hafter⟩ := hafter
  have hhistory : Register.table.History 54 nestStates :=
    Register.table.history_states (by decide +kernel)
  have hstates : (nestStates 33).result? = some 2 ∧ (nestStates 54).pc = 260 ∧
      (nestStates 54).depth = 1 ∧
      ∀ k < 54, ¬((nestStates k).pc = 260 ∧ (nestStates k).depth = 1) := by decide +kernel
  obtain ⟨hbetween, hend, hdepth, hfirst⟩ := hstates
  obtain ⟨⟨regs, hregs, hkept⟩, hmemory, hcalls⟩ := lower_temporaries_kept hfinish hsize hmain.1
    hmain.2 hexpr hcode hhistory rfl (by rw [hposition]; rfl) (Nat.le_refl 1) rfl (by decide)
    ⟨by rw [hend, hafter], hdepth⟩ (by rw [hafter]; exact hfirst)
  refine ⟨rfl, hbetween, ⟨regs, hregs, hkept 0 (by decide)⟩, fun a ha => hmemory a ?_, hcalls⟩
  rw [hvars]
  exact ha

end DualMachine
