import DualMachine.Proofs.Checking

/-!
# Histories of checked code

What the check of a program knows at a position is true of every state of a history
that comes there. `Linked.Tracks` says when a point of the check is true of a point of a
history: its operands are those of the activation, its slots have been written by
it or passed to it. `Linked.Begins.known` finds such a point for every step of a history
that begins at one and does not return from the activation that it begins in, as one that
starts at the first byte (`Linked.Starts.known`).

A return leads back to the point of the call that it matches, so the induction is not
on the last step alone: what was known at the call is still true, because
everything that ran in between has written above the frame of the caller
(`Linked.Known.base_le_of_writes`).
-/

namespace DualMachine

open Source

/-! ## Accesses by role -/

namespace Operation

variable {op : Operation} {holder : Holder} {logical : Word} {isGlobal : Bool}

theorem role_of_read (h : op.access? holder = some (.read logical isGlobal)) :
    op.role = .load := by
  unfold access? at h
  split at h
  · rfl
  · simp [Option.bind_eq_some_iff] at h
  · rfl
  · simp at h
  · cases h

theorem role_of_write {w : Word} (h : op.access? holder = some (.write logical isGlobal w)) :
    op.role = .store := by
  unfold access? at h
  split at h
  · simp [Option.bind_eq_some_iff] at h
  · rfl
  · simp at h
  · rfl
  · cases h

end Operation

namespace Table

variable {t : Table} {s : State} {a : Fin memorySize}

theorem Reads.role_eq (h : t.Reads s a) : t.role? s = some .load := by
  obtain ⟨logical, isGlobal, haccess, -⟩ := h
  obtain ⟨op, hop, haccess⟩ := Option.bind_eq_some_iff.mp haccess
  rw [role?, hop, Option.map_some, Operation.role_of_read haccess]

theorem Writes.role_eq {w : Word} (h : t.Writes s a w) : t.role? s = some .store := by
  obtain ⟨logical, isGlobal, haccess, -⟩ := h
  obtain ⟨op, hop, haccess⟩ := Option.bind_eq_some_iff.mp haccess
  rw [role?, hop, Option.map_some, Operation.role_of_write haccess]

end Table

/-! ## Frames -/

/-- The frame ends where that of a call would begin. -/
theorem State.frameBase_add {s : State} (hpos : 0 < s.depth) :
    s.frameBase false + frameSize = s.depth * frameSize := by
  obtain ⟨depth, hdepth⟩ := Nat.exists_eq_add_of_lt hpos
  simp only [State.frameBase, hdepth, Nat.zero_add, Nat.add_sub_cancel, Bool.false_eq_true,
    if_false, Nat.succ_mul]

/-- A slot of the frame, or of the one above it, is at a memory index. -/
def State.Slot (s : State) (slot : Nat) (a : Fin memorySize) : Prop :=
  0 < s.depth ∧ (a : Nat) = s.frameBase false + slot

namespace State.Slot

variable {s s' : State} {slot : Nat} {a : Fin memorySize}

theorem of_address (hdepth : 0 < s.depth) (hslot : slot < frameSize + frameSize)
    (h : s.address (Int32.ofNat slot) false = .ok a) : s.Slot slot a := by
  have hword : (Int32.ofNat slot).toInt = slot :=
    Int32.toInt_ofNat_of_lt (Nat.lt_trans hslot (by decide))
  rw [State.address_ok_iff, hword] at h
  exact ⟨hdepth, by omega⟩

theorem of_depth_eq (h : s.Slot slot a) (hdepth : s'.depth = s.depth) : s'.Slot slot a := by
  unfold State.Slot State.frameBase at h ⊢
  rw [hdepth]
  exact h

/-- A slot of the frame above is one of the frame after a call. -/
theorem call (h : s.Slot (frameSize + slot) a) (hdepth : s'.depth = s.depth + 1) :
    s'.Slot slot a := by
  obtain ⟨hpos, ha⟩ := h
  have hbase : s'.frameBase false = s.depth * frameSize := by
    rw [State.frameBase, hdepth]
    rfl
  have hnext := State.frameBase_add hpos
  exact ⟨by omega, by omega⟩

/-- The frame and all above it lie above the frames of the callers. -/
theorem base_le (h : s.Slot slot a) {depth : Nat} (hdepth : depth < s.depth) :
    depth * frameSize ≤ a := by
  have hbase : depth * frameSize ≤ s.frameBase false :=
    Nat.mul_le_mul_right frameSize (Nat.le_sub_one_of_lt hdepth)
  exact Nat.le_trans hbase (by rw [h.2]; exact Nat.le_add_right _ _)

/-- The slots of the frame itself lie below those of a call. -/
theorem lt_next (h : s.Slot slot a) (hslot : slot < frameSize) :
    (a : Nat) < s.depth * frameSize := by
  rw [h.2, ← State.frameBase_add h.1]
  exact Nat.add_lt_add_left hslot _

end State.Slot

/-! ## Origins -/

/-- The activation of point `i` began with the operands of point `o`: with those of a call, or
with those of the first point. -/
def Table.Origin (t : Table) (σ : Nat → State) (o i : Nat) : Prop :=
  t.Creates σ o i ∨ o = 0 ∧ SameActivation σ 0 i

namespace Table.History

variable {t : Table} {n : Nat} {σ : Nat → State} {i j o : Nat}

theorem exists_origin (h : t.History n σ) (hbase : ∀ k ≤ n, (σ 0).depth ≤ (σ k).depth)
    (hi : i ≤ n) : ∃ o, t.Origin σ o i := by
  rcases Nat.eq_or_lt_of_le (hbase i hi) with heq | hlt
  · exact ⟨0, .inr ⟨rfl, Nat.zero_le i, heq, fun k _ hk => hbase k (Nat.le_trans hk hi)⟩⟩
  · obtain ⟨c, hc⟩ := h.exists_creates hi hlt
    exact ⟨c, .inl hc⟩

/-- The origin is the same at all points of an activation. -/
theorem origin_of_same (h : t.History n σ) (hbase : ∀ k ≤ n, (σ 0).depth ≤ (σ k).depth)
    (hsame : SameActivation σ i j) (hj : j ≤ n) (ho : t.Origin σ o j) : t.Origin σ o i := by
  have hi : i ≤ n := Nat.le_trans hsame.le hj
  obtain ⟨o', ho'⟩ := h.exists_origin hbase hi
  rcases ho with hc | ⟨rfl, hfirst⟩
  · rcases ho' with hc' | ⟨-, hfirst⟩
    · rw [hc.unique (hc'.trans hsame) h hj]
      exact .inl hc'
    · -- no call creates the activation that the history begins in
      have hdepth := hc.depth_eq h hj
      have hlow := hbase o (Nat.le_trans (Nat.le_of_lt hc.lt) hj)
      rw [← hsame.depth_eq, ← hfirst.depth_eq] at hdepth
      omega
  · refine .inr ⟨rfl, Nat.zero_le i, ?_, fun k _ hk => hbase k (Nat.le_trans hk hi)⟩
    rw [hfirst.depth_eq, hsame.depth_eq]

end Table.History

theorem Effect.Holds.program_eq {α : Type} {describes : α → Holder → Prop} {op : Operation}
    {s s' : State} {e : Effect α} (h : e.Holds describes op s s') : s'.program = s.program := by
  cases e with
  | constant after => rw [h.2]
  | compute after => rw [h.2]
  | load slot after => rw [h.2.2]
  | store slot after =>
      obtain ⟨w, a, -, -, -, h⟩ := h
      rw [h]
  | jump offset after =>
      obtain ⟨pc, -, -, h⟩ := h
      rw [h]
  | branch offset after =>
      obtain ⟨pc, -, -, h⟩ := h
      rw [h]
  | call target =>
      obtain ⟨pc, -, h⟩ := h
      rw [h]
  | ret =>
      obtain ⟨back, rest, -, h⟩ := h
      rw [h]
  | halt => rw [h]

/-! ## Points of the check in a history -/

section

variable {ι : Type} [InstructionSet ι]

open InstructionSet

namespace Linked

variable {C : Pieces ι} (L : Linked C) (A : Analysis ι) (σ : Nat → State)

/-- What is known at a point of the check is true of a point of a history. -/
structure Tracks (i : Nat) (P : Point A.Operands) : Prop where
  program : (σ i).program = (codeBytes L.code).toArray
  inside : P.inside = true → 0 < (σ i).depth
  operands : ∀ o, (table ι).Origin σ o i →
    A.Describes P.operands (σ o).holder (σ i).holder
  own : L.complete → ∀ slot ∈ P.own, slot < frameSize →
    ∃ a, (σ i).Slot slot a ∧ (table ι).Initialised σ i a
  passed : ∀ slot ∈ P.passed, ∃ a, (σ i).Slot slot a ∧ (table ι).Passed σ i a

/-- The step at a point of a history is that of an instruction with an effect, and what the
effect asks for is checked for the rest of `n` steps. -/
structure Performs (n i : Nat) (P : Point A.Operands) (instr : ι) (e : Effect A.Operands) :
    Prop where
  does : A.Does instr P.operands e
  operation : (table ι).operation? (σ i) = some (A.operation instr)
  role : (table ι).role? (σ i) = some e.role
  follows : L.Follows A (L.Checked A (n - (i + 1))) ((σ i).pc + width instr) P e
  holds : ∀ o, (table ι).Origin σ o i →
    e.Holds (A.Describes · (σ o).holder) (A.operation instr) ((σ i).skip (width instr))
      (σ (i + 1))

variable {L A σ} {n i : Nat} {P : Point A.Operands}

theorem Tracks.performs (hP : L.Tracks A σ i P) (hA : A.Sound) (h : (table ι).History n σ)
    (hi : i < n) (hchecked : L.Checked A (n - i) (σ i).pc P) :
    ∃ instr e, L.Performs A σ n i P instr e := by
  have hsteps : n - i = n - (i + 1) + 1 := by omega
  rw [hsteps] at hchecked
  obtain ⟨instr, e, hcode, hdoes, hfollows⟩ := hchecked
  have hat : At L.code instr (σ i) := ⟨hP.program, hcode⟩
  have hoperation := hA.operation_eq hat
  have hexec := hat.step_eq.symm.trans (h i hi)
  refine ⟨instr, e, hdoes, hoperation, ?_, hfollows, fun o ho => ?_⟩
  · rw [Table.role?, hoperation, Option.map_some, hA.role_eq hdoes]
  · exact hA.step hdoes (hP.operands o ho) hexec

namespace Performs

variable {instr : ι} {e : Effect A.Operands} {a : Fin memorySize}

/-- What is written is in the frame or in the one above it. -/
theorem writes (hstep : L.Performs A σ n i P instr e) (hP : L.Tracks A σ i P) {o : Nat}
    (ho : (table ι).Origin σ o i) {w : Word} (hw : (table ι).Writes (σ i) a w) :
    ∃ slot after, e = .store slot after ∧ (σ i).Slot slot a := by
  have hrole := hstep.role.symm.trans hw.role_eq
  cases e with
  | store slot after =>
      obtain ⟨hinside, hslot, -⟩ := hstep.follows
      obtain ⟨v, b, haccess, hb, -, -⟩ := hstep.holds o ho
      have hwrites : (table ι).Writes (σ i) b v :=
        ⟨_, _, (Table.access?_eq hstep.operation).trans haccess, hb⟩
      obtain ⟨rfl, -⟩ := hw.unique hwrites
      exact ⟨slot, after, rfl, .of_address (hP.inside hinside) hslot hb⟩
  | _ => cases hrole

/-- What is read is in the frame and known to be written. -/
theorem reads (hstep : L.Performs A σ n i P instr e) (hP : L.Tracks A σ i P) {o : Nat}
    (ho : (table ι).Origin σ o i) (hr : (table ι).Reads (σ i) a) :
    ∃ slot ∈ P.own, slot < frameSize ∧ (σ i).Slot slot a := by
  have hrole := hstep.role.symm.trans hr.role_eq
  cases e with
  | load slot after =>
      obtain ⟨hinside, hslot, hown, -⟩ := hstep.follows
      obtain ⟨haccess, -, -⟩ := hstep.holds o ho
      obtain ⟨logical, isGlobal, haccess', ha⟩ := hr
      rw [Table.access?_eq hstep.operation] at haccess'
      obtain ⟨rfl, rfl⟩ := Access.read.inj (Option.some.inj (haccess'.symm.trans haccess))
      have hslot' : slot < frameSize + frameSize := Nat.lt_add_right _ hslot
      exact ⟨slot, hown, hslot, .of_address (hP.inside hinside) hslot' ha⟩
  | _ => cases hrole

theorem program_eq (hstep : L.Performs A σ n i P instr e) (hP : L.Tracks A σ i P) {o : Nat}
    (ho : (table ι).Origin σ o i) : (σ (i + 1)).program = (codeBytes L.code).toArray :=
  (hstep.holds o ho).program_eq.trans hP.program

end Performs

variable (L A σ) in
/-- A point of the check is true of point `i`, and the code is fine for the rest of `n`
steps. -/
def Known (n i : Nat) : Prop := ∃ P, L.Checked A (n - i) (σ i).pc P ∧ L.Tracks A σ i P

/-- The step at a known point, with the origin of its activation. -/
theorem Known.performs (hknown : L.Known A σ n i) (hS : A.Sound) (h : (table ι).History n σ)
    (hbase : ∀ k ≤ n, (σ 0).depth ≤ (σ k).depth) (hi : i < n) :
    ∃ P instr e o, L.Tracks A σ i P ∧ L.Performs A σ n i P instr e ∧ (table ι).Origin σ o i := by
  obtain ⟨P, hchecked, hP⟩ := hknown
  obtain ⟨instr, e, hstep⟩ := hP.performs hS h hi hchecked
  obtain ⟨o, ho⟩ := h.exists_origin hbase (Nat.le_of_lt hi)
  exact ⟨P, instr, e, o, hP, hstep, ho⟩

/-- What is written lies above the frames of the callers. -/
theorem Known.base_le_of_writes (hknown : L.Known A σ n i) (hS : A.Sound)
    (h : (table ι).History n σ) (hbase : ∀ k ≤ n, (σ 0).depth ≤ (σ k).depth) (hi : i < n)
    {a : Fin memorySize} {w : Word} (hw : (table ι).Writes (σ i) a w) {depth : Nat}
    (hdepth : depth < (σ i).depth) :
    depth * frameSize ≤ a := by
  obtain ⟨P, instr, e, o, hP, hstep, ho⟩ := hknown.performs hS h hbase hi
  obtain ⟨slot, -, -, hat⟩ := hstep.writes hP ho hw
  exact hat.base_le hdepth

/-! ## One step -/

/-- A step within the activation. What is known to be written after it was so before,
or is written by the step. -/
theorem Tracks.next (hP : L.Tracks A σ i P) (h : (table ι).History n σ)
    (hbase : ∀ k ≤ n, (σ 0).depth ≤ (σ k).depth) (hi : i < n)
    (hprogram : (σ (i + 1)).program = (codeBytes L.code).toArray)
    (hcall : (table ι).role? (σ i) ≠ some .call) (hret : (table ι).role? (σ i) ≠ some .ret)
    {P' : Point A.Operands} (hinside : P'.inside = P.inside)
    (hoperands : ∀ o, (table ι).Origin σ o i →
      A.Describes P'.operands (σ o).holder (σ (i + 1)).holder)
    (hown : ∀ slot ∈ P'.own, slot ∈ P.own ∨
      ∃ a w, (σ i).Slot slot a ∧ (table ι).Writes (σ i) a w)
    (hpassed : ∀ slot ∈ P'.passed,
      ((table ι).role? (σ i) = some .constant ∨ (table ι).role? (σ i) = some .store) ∧
      (slot ∈ P.passed ∨ ∃ a w, (σ i).Slot slot a ∧ (table ι).Writes (σ i) a w)) :
    L.Tracks A σ (i + 1) P' := by
  have hcalls : (σ (i + 1)).calls = (σ i).calls := by
    rcases Table.step_calls (h i hi) with ⟨hrole, -⟩ | ⟨hrole, -⟩ | ⟨-, -, hcalls⟩
    · exact absurd hrole hcall
    · exact absurd hrole hret
    · exact hcalls
  have hdepth : (σ (i + 1)).depth = (σ i).depth := congrArg List.length hcalls
  have hsame := (SameActivation.refl σ i).next hdepth
  refine ⟨hprogram, ?_, ?_, ?_, ?_⟩
  · rw [hinside, hdepth]
    exact hP.inside
  · exact fun o ho => hoperands o (h.origin_of_same hbase hsame hi ho)
  · intro hcomplete slot hslot hlt
    rcases hown slot hslot with hold | ⟨a, w, hat, hw⟩
    · obtain ⟨a, hat, ha⟩ := hP.own hcomplete slot hold hlt
      exact ⟨a, hat.of_depth_eq hdepth, ha.next hdepth⟩
    · exact ⟨a, hat.of_depth_eq hdepth, .of_write hw hdepth⟩
  · intro slot hslot
    obtain ⟨hrole, hold | ⟨a, w, hat, hw⟩⟩ := hpassed slot hslot
    · obtain ⟨a, hat, ha⟩ := hP.passed slot hold
      exact ⟨a, hat.of_depth_eq hdepth, ha.next hdepth hrole⟩
    · exact ⟨a, hat.of_depth_eq hdepth, .of_write hw hdepth hrole⟩

/-- A step within the activation that changes operands or the counter. -/
theorem Performs.moves {instr : ι} {e : Effect A.Operands} (hstep : L.Performs A σ n i P instr e)
    (hP : L.Tracks A σ i P) (h : (table ι).History n σ)
    (hbase : ∀ k ≤ n, (σ 0).depth ≤ (σ k).depth) (hi : i < n) (hcall : e.role ≠ .call)
    (hret : e.role ≠ .ret) {after : A.Operands}
    (hafter : ∀ o, (table ι).Origin σ o i →
      A.Describes after (σ o).holder (σ (i + 1)).holder) :
    L.Tracks A σ (i + 1) { P with operands := after, passed := ∅ } := by
  obtain ⟨o, ho⟩ := h.exists_origin hbase (Nat.le_of_lt hi)
  refine hP.next h hbase hi (hstep.program_eq hP ho) ?_ ?_ rfl hafter ?_ ?_
  · rw [hstep.role]
    exact fun hrole => hcall (Option.some.inj hrole)
  · rw [hstep.role]
    exact fun hrole => hret (Option.some.inj hrole)
  · exact fun slot hslot => .inl hslot
  · exact fun slot hslot => hslot.elim

/-- A call begins an activation with the arguments that were passed. -/
theorem Tracks.call (hP : L.Tracks A σ i P) (hA : A.Sound) (h : (table ι).History n σ)
    (hbase : ∀ k ≤ n, (σ 0).depth ≤ (σ k).depth) (hi : i < n)
    (hprogram : (σ (i + 1)).program = (codeBytes L.code).toArray)
    (hrole : (table ι).role? (σ i) = some .call) (hholder : (σ (i + 1)).holder = (σ i).holder)
    {count : Nat} (hpassed : L.complete → ∀ slot < count, frameSize + slot ∈ P.passed) :
    L.Tracks A σ (i + 1) ⟨A.fresh, Set.Iio count, ∅, true⟩ := by
  have hdepth := h.depth_call hi hrole
  have hcreates : (table ι).Creates σ i (i + 1) := ⟨hrole, .refl σ (i + 1)⟩
  refine ⟨hprogram, fun _ => by omega, fun o ho => ?_, fun hcomplete slot hslot _ => ?_, ?_⟩
  · rcases ho with hc | ⟨-, hfirst⟩
    · rw [hc.unique hcreates h hi, hholder]
      obtain ⟨o', ho'⟩ := h.exists_origin hbase (Nat.le_of_lt hi)
      exact hA.fresh (hP.operands o' ho')
    · have hlow := hbase i (Nat.le_of_lt hi)
      rw [← hfirst.depth_eq] at hdepth
      omega
  · obtain ⟨a, hat, ha⟩ := hP.passed _ (hpassed hcomplete slot hslot)
    refine ⟨a, hat.call hdepth, ha.call hrole fun w hw => ?_⟩
    cases hrole.symm.trans hw.role_eq
  · intro slot hslot
    exact hslot.elim

/-- A return goes back to what was known at the call, and what was written before it
has stayed. -/
theorem Tracks.resume {c r : Nat} {Q : Point A.Operands} {instr : ι}
    (hQ : L.Tracks A σ c Q) (hP : L.Tracks A σ r P) (hA : A.Sound) (h : (table ι).History n σ)
    (hbase : ∀ k ≤ n, (σ 0).depth ≤ (σ k).depth) (hr : r < n) (hm : (table ι).Matches σ c r)
    (hdoes : A.Does instr P.operands .ret)
    (hprogram : (σ (r + 1)).program = (codeBytes L.code).toArray)
    (hholder : (σ (r + 1)).holder = (σ r).holder)
    (habove : ∀ k, c < k → k ≤ r → ∀ a w, (table ι).Writes (σ k) a w →
      (σ c).depth * frameSize ≤ a) :
    L.Tracks A σ (r + 1) { Q with operands := A.resumed Q.operands, passed := ∅ } := by
  have hsame := hm.same h hr
  refine ⟨hprogram, fun hinside => ?_, fun o ho => ?_, fun hcomplete slot hslot hlt => ?_, ?_⟩
  · rw [← hsame.depth_eq]
    exact hQ.inside hinside
  · rw [hholder]
    exact hA.resumed hdoes (hQ.operands o (h.origin_of_same hbase hsame hr ho))
      (hP.operands c (.inl hm.1))
  · obtain ⟨a, hat, ha⟩ := hQ.own hcomplete slot hslot hlt
    refine ⟨a, hat.of_depth_eq hsame.depth_eq.symm, ha.mono hsame fun k hck hkr w hw => ?_⟩
    rcases Nat.lt_or_eq_of_le hck with hck | rfl
    · have hbelow := hat.lt_next hlt
      have := habove k hck (Nat.le_of_lt_succ hkr) a w hw
      omega
    · cases hm.1.1.symm.trans hw.role_eq
  · intro slot hslot
    exact hslot.elim

/-! ## All steps -/

/-- A state in which a history can begin at a point of the check. -/
structure Begins (L : Linked C) (A : Analysis ι) (s : State) (P : Point A.Operands) : Prop where
  program : s.program = (codeBytes L.code).toArray
  inside : P.inside = true → 0 < s.depth
  operands : A.Describes P.operands s.holder s.holder
  own : L.complete → P.own = ∅
  passed : P.passed = ∅
  checked : ∀ n, L.Checked A n s.pc P

theorem Begins.tracks (h : L.Begins A (σ 0) P) : L.Tracks A σ 0 P := by
  refine ⟨h.program, h.inside, fun o ho => ?_, fun hcomplete slot hslot => ?_, fun slot hslot => ?_⟩
  · rcases ho with hc | ⟨rfl, -⟩
    · exact absurd hc.lt (Nat.not_lt_zero o)
    · exact h.operands
  · rw [h.own hcomplete] at hslot
    exact hslot.elim
  · rw [h.passed] at hslot
    exact hslot.elim

/-- The state that a program is started in. -/
structure Starts (L : Linked C) (A : Analysis ι) (s : State) : Prop where
  program : s.program = (codeBytes L.code).toArray
  calls : s.calls = []
  pc : s.pc = 0
  operands : A.Describes A.fresh s.holder s.holder
  checked : ∀ n, L.Checked A n 0 ⟨A.fresh, ∅, ∅, false⟩

theorem Starts.of_initial (hC : A.Accepts C) {entry : String} {holder : Holder}
    (hplaced : L.Placed 0 [.call entry, .plain InstructionSet.halt])
    (hentry : L.complete → L.arity entry = 0) (hfresh : A.Describes A.fresh holder holder) :
    L.Starts A (.initial holder (codeBytes L.code)) :=
  ⟨rfl, rfl, rfl, hfresh, hC.start_checked hplaced hentry⟩

/-- Nothing is called yet, so that all points are as deep or deeper. -/
theorem Starts.depth_le {s : State} (h : L.Starts A s) (k : Nat) : s.depth ≤ (σ k).depth := by
  rw [State.depth, h.calls]
  exact Nat.zero_le _

theorem Starts.begins {s : State} (h : L.Starts A s) : L.Begins A s ⟨A.fresh, ∅, ∅, false⟩ where
  program := h.program
  inside := by rintro ⟨⟩
  operands := h.operands
  own _ := rfl
  passed := rfl
  checked := by
    rw [h.pc]
    exact h.checked

/-- A step that neither returns nor halts leads to a point where the code is fine. -/
theorem Performs.next {instr : ι} {e : Effect A.Operands} (hstep : L.Performs A σ n i P instr e)
    (hP : L.Tracks A σ i P) (hS : A.Sound) (hC : A.Accepts C) (h : (table ι).History n σ)
    (hbase : ∀ k ≤ n, (σ 0).depth ≤ (σ k).depth) (hi : i < n) (hret : e ≠ .ret)
    (hhalt : e ≠ .halt) : L.Known A σ n (i + 1) := by
  obtain ⟨o, ho⟩ := h.exists_origin hbase (Nat.le_of_lt hi)
  have hprogram := hstep.program_eq hP ho
  have hrole := hstep.role
  have hfollows := hstep.follows
  have hholds := hstep.holds o ho
  cases e with
  | constant after =>
      obtain ⟨-, hstate⟩ := hholds
      refine ⟨_, by rw [hstate]; exact hfollows, ?_⟩
      refine hP.next h hbase hi hprogram (by rw [hrole]; rintro ⟨⟩) (by rw [hrole]; rintro ⟨⟩)
        rfl (fun o ho => (hstep.holds o ho).1) (fun slot hslot => .inl hslot) fun slot hslot => ?_
      exact ⟨.inl hrole, .inl hslot⟩
  | compute after =>
      obtain ⟨-, hstate⟩ := hholds
      refine ⟨_, by rw [hstate]; exact hfollows, ?_⟩
      exact hstep.moves hP h hbase hi (by rintro ⟨⟩) (by rintro ⟨⟩) fun o ho =>
        (hstep.holds o ho).1
  | load slot after =>
      obtain ⟨-, -, hstate⟩ := hholds
      obtain ⟨-, -, -, hnext⟩ := hfollows
      refine ⟨_, by rw [hstate]; exact hnext, ?_⟩
      exact hstep.moves hP h hbase hi (by rintro ⟨⟩) (by rintro ⟨⟩) fun o ho =>
        (hstep.holds o ho).2.1
  | store slot after =>
      obtain ⟨w, a, haccess, ha, -, hstate⟩ := hholds
      obtain ⟨hinside, hslot, hnext⟩ := hfollows
      have hat : (σ i).Slot slot a := .of_address (hP.inside hinside) hslot ha
      have hw : (table ι).Writes (σ i) a w :=
        ⟨_, _, (Table.access?_eq hstep.operation).trans haccess, ha⟩
      -- the slot joins both sets, whatever was known of it before
      have hinsert : ∀ {known : Set Nat}, ∀ k ∈ insert slot known,
          k ∈ known ∨ ∃ a w, (σ i).Slot k a ∧ (table ι).Writes (σ i) a w := by
        rintro known k (rfl | hk)
        · exact .inr ⟨a, w, hat, hw⟩
        · exact .inl hk
      refine ⟨_, by rw [hstate]; exact hnext, ?_⟩
      refine hP.next h hbase hi hprogram (by rw [hrole]; rintro ⟨⟩) (by rw [hrole]; rintro ⟨⟩)
        rfl (fun o ho => ?_) hinsert fun k hk => ⟨.inr hrole, hinsert k hk⟩
      obtain ⟨-, -, -, -, hdescribes, -⟩ := hstep.holds o ho
      exact hdescribes
  | jump offset after =>
      obtain ⟨pc, hpc, -, hstate⟩ := hholds
      obtain ⟨target, htarget, hnext⟩ := hfollows
      obtain rfl : pc = target := Int.ofNat.inj (hpc.trans htarget.symm)
      refine ⟨_, by rw [hstate]; exact hnext, ?_⟩
      refine hstep.moves hP h hbase hi (by rintro ⟨⟩) (by rintro ⟨⟩) fun o ho => ?_
      obtain ⟨-, -, hafter, -⟩ := hstep.holds o ho
      exact hafter
  | branch offset after =>
      obtain ⟨pc, hpc, -, hstate⟩ := hholds
      obtain ⟨hstay, target, htarget, hnext⟩ := hfollows
      have hchecked : L.Checked A (n - (i + 1)) pc { P with operands := after, passed := ∅ } := by
        rcases hpc with rfl | hpc
        · exact hstay
        · rwa [Int.ofNat.inj (hpc.trans htarget.symm)]
      refine ⟨_, by rw [hstate]; exact hchecked, ?_⟩
      refine hstep.moves hP h hbase hi (by rintro ⟨⟩) (by rintro ⟨⟩) fun o ho => ?_
      obtain ⟨-, -, hafter, -⟩ := hstep.holds o ho
      exact hafter
  | call target =>
      obtain ⟨pc, hpc, hstate⟩ := hholds
      obtain ⟨address, count, haddress, hentry, hpassed, -⟩ := hfollows
      obtain rfl : pc = address := Int.ofNat.inj (hpc.trans haddress)
      refine ⟨_, by rw [hstate]; exact hC.entry_checked hentry _, ?_⟩
      exact hP.call hS h hbase hi hprogram hrole (by rw [hstate]; rfl) hpassed
  | ret => exact absurd rfl hret
  | halt => exact absurd rfl hhalt

/-- A return leads back to the point of the call that it matches. -/
theorem Performs.ret {r : Nat} {instr : ι} (hstep : L.Performs A σ n r P instr .ret)
    (hP : L.Tracks A σ r P) (hS : A.Sound) (h : (table ι).History n σ)
    (hbase : ∀ k ≤ n, (σ 0).depth ≤ (σ k).depth) (hr : r < n) (hknown : ∀ k ≤ r, L.Known A σ n k) :
    L.Known A σ n (r + 1) := by
  -- the first activation does not return
  have hdeeper : (σ 0).depth < (σ r).depth := by
    have hlow := hbase (r + 1) hr
    have hdrop := h.depth_ret hr hstep.role
    omega
  obtain ⟨c, hc⟩ := h.exists_creates (Nat.le_of_lt hr) hdeeper
  have hcr := hc.lt
  have hm : (table ι).Matches σ c r := ⟨hc, hstep.role⟩
  obtain ⟨Q, call, e, o, hQ, hcall, ho⟩ :=
    (hknown c (Nat.le_of_lt hcr)).performs hS h hbase (Nat.lt_trans hcr hr)
  have hrole := hcall.role.symm.trans hc.1
  cases e with
  | call target =>
      obtain ⟨-, -, -, -, -, hnext⟩ := hcall.follows
      obtain ⟨pc, -, hbegun⟩ := hcall.holds o ho
      obtain ⟨back, rest, -, hended⟩ := hstep.holds c (.inl hc)
      have hpc : (σ (r + 1)).pc = (σ c).pc + width call := by
        have hcalls := hm.calls_begun h hr
        rw [hbegun] at hcalls
        exact (List.cons.inj hcalls).1.symm
      refine ⟨_, ?_, hQ.resume hP hS h hbase hr hm hstep.does (hstep.program_eq hP (.inl hc))
        (by rw [hended]; rfl) fun k hck hkr a w hw => ?_⟩
      · rw [hpc]
        exact hnext.mono (by omega)
      · have hdepth := hc.depth_lt h (Nat.le_of_lt hr) hck hkr
        exact (hknown k hkr).base_le_of_writes hS h hbase (by omega) hw hdepth
  | _ => cases hrole

/-- Every step of a history that does not go below its first point is at a point of the check
that is true of it. -/
theorem Begins.known (hbegins : L.Begins A (σ 0) P) (hS : A.Sound) (hC : A.Accepts C)
    (h : (table ι).History n σ) (hbase : ∀ k ≤ n, (σ 0).depth ≤ (σ k).depth) :
    ∀ i < n, L.Known A σ n i := by
  intro i
  induction i using Nat.strong_induction_on with
  | _ i ih =>
      intro hi
      cases i with
      | zero => exact ⟨P, hbegins.checked _, hbegins.tracks⟩
      | succ r =>
          have hr : r < n := Nat.lt_of_succ_lt hi
          have hknown : ∀ k ≤ r, L.Known A σ n k := fun k hk =>
            ih k (Nat.lt_succ_of_le hk) (by omega)
          obtain ⟨P, instr, e, o, hP, hstep, ho⟩ :=
            (hknown r (Nat.le_refl r)).performs hS h hbase hr
          by_cases hret : e = .ret
          · subst hret
            exact hstep.ret hP hS h hbase hr hknown
          · refine hstep.next hP hS hC h hbase hr hret ?_
            rintro rfl
            -- there is no step after a halt
            have hrunning : (σ (r + 1)).running = false := by
              rw [hstep.holds o ho, State.running, decide_eq_false_iff_not]
              exact Nat.lt_irrefl _
            obtain ⟨fault, hstuck⟩ := Table.step_of_not_running (t := table ι) hrunning
            cases hstuck.symm.trans (h (r + 1) hi)

/-- The frames below a call stay as they are until it has returned. -/
theorem Begins.memory_eq (hbegins : L.Begins A (σ 1) P) (hS : A.Sound) (hC : A.Accepts C)
    (h : (table ι).History n σ) {r : Nat} (hr : r < n) (hm : (table ι).Matches σ 0 r)
    {a : Fin memorySize} (ha : a < (σ 0).depth * frameSize) :
    (σ (r + 1)).memory.get a = (σ 0).memory.get a := by
  have hpos := hm.1.lt
  have hcallee : (table ι).History (r - 1) fun k => σ (1 + k) :=
    (h.mono (Nat.le_of_lt hr)).drop 1
  have hbase : ∀ k ≤ r - 1, (σ 1).depth ≤ (σ (1 + k)).depth := fun k hk =>
    hm.1.2.depth_le _ (Nat.le_add_right 1 k) (by omega)
  refine h.memory_eq (Nat.zero_le _) hr fun k _ hk w hw => ?_
  rcases Nat.eq_zero_or_pos k with rfl | hfirst
  · cases hm.1.1.symm.trans hw.role_eq
  · rcases Nat.lt_or_eq_of_le (Nat.le_of_lt_succ hk) with hkr | rfl
    · have hdepth := hm.1.depth_lt h (Nat.le_of_lt hr) hfirst (Nat.le_of_lt hkr)
      obtain ⟨k, rfl⟩ := Nat.exists_eq_add_of_le hfirst
      have hk : k < r - 1 := by omega
      have := (hbegins.known (σ := fun k => σ (1 + k)) hS hC hcallee hbase k hk).base_le_of_writes
        hS hcallee hbase hk hw hdepth
      omega
    · cases hm.2.symm.trans hw.role_eq

theorem Starts.known (hstarts : L.Starts A (σ 0)) (hS : A.Sound) (hC : A.Accepts C)
    (h : (table ι).History n σ) : ∀ i < n, L.Known A σ n i :=
  hstarts.begins.known hS hC h fun k _ => hstarts.depth_le k

end Linked

end

end DualMachine
