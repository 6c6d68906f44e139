import DualMachine.Proofs.Frames

/-!
# What is known at every position

A check of code follows its paths and may come to a position with different knowledge each time.
An annotation knows the same on all of them: `Linked.Annotated A known` says that `known` gives for
every instruction what an analysis can know of the operands there, that it agrees with what the
instruction leaves wherever this goes on, and that it knows nothing yet where functions begin.
Such knowledge is true of every state of a history (`Linked.Annotated.told`).
-/

namespace DualMachine

section

variable {ι : Type} [InstructionSet ι]

open InstructionSet

/-! ## Positions -/

namespace CodeAt

variable {code part : List ι} {pc o : Nat} {i j : ι}

/-- Instructions begin and end where a part of the code begins. -/
theorem edge (h : CodeAt code pc part) : CodeAt code pc [] := left (a := []) h

theorem edge_next (h : CodeAt code pc [i]) : CodeAt code (pc + width i) [] := h.tail

theorem edge_end (h : CodeAt code pc part) : CodeAt code (pc + codeLength part) [] :=
  right (b := []) (by rwa [List.append_nil])

/-- Before the end of the code another instruction begins. -/
theorem exists_instr (h : CodeAt code pc []) (hlt : pc < codeLength code) :
    ∃ i, CodeAt code pc [i] := by
  obtain ⟨before, after, rfl, rfl⟩ := h
  cases after with
  | nil => simp at hlt
  | cons i after => exact ⟨i, before, after, by simp, rfl⟩

/-- No instruction begins inside another. -/
theorem unique (h : CodeAt code pc [i]) (h' : CodeAt code o [j]) (hle : pc ≤ o)
    (hlt : o < pc + width i) : o = pc ∧ j = i := by
  obtain ⟨before, after, rfl, rfl⟩ := h
  obtain ⟨before', after', hcode, rfl⟩ := h'
  simp only [List.append_assoc, List.singleton_append] at hcode
  rcases List.append_eq_append_iff.mp hcode with ⟨mid, rfl, hrest⟩ | ⟨mid, rfl, hrest⟩
  · cases mid with
    | nil =>
        obtain ⟨rfl, -⟩ := List.cons.inj hrest
        simp
    | cons k mid =>
        obtain ⟨rfl, -⟩ := List.cons.inj hrest
        simp only [codeLength_append, codeLength_cons] at hlt
        omega
  · cases mid with
    | nil =>
        obtain ⟨rfl, -⟩ := List.cons.inj hrest
        simp
    | cons k mid =>
        have hpos := width_pos k
        simp only [codeLength_append, codeLength_cons] at hle
        omega

end CodeAt

theorem Placed.edge_end {code : List ι} {symbols : String → Option Nat} {pc : Nat}
    {lines : List (Line ι)} (h : Placed code symbols pc lines) :
    CodeAt code (pc + Line.length lines) [] := by
  rw [Line.length_eq_codeLength]
  exact h.code.edge_end

/-! ## Annotations -/

namespace Linked

variable {C : Pieces ι} (L : Linked C) (A : Analysis ι) (known : Nat → A.Operands)

/-- What an effect leaves is what is known where it goes on; `stop` is the end of the instruction. -/
def Agrees (operands : A.Operands) (stop : Nat) : Effect A.Operands → Prop
  | .constant after | .compute after | .load _ after | .store _ after => known stop = after
  | .jump offset after => ∃ target : Nat, (target : Int) = stop + offset.toInt ∧
      CodeAt L.code target [] ∧ known target = after
  | .branch offset after => known stop = after ∧
      ∃ target : Nat, (target : Int) = stop + offset.toInt ∧
        CodeAt L.code target [] ∧ known target = after
  | .call target => known stop = A.resumed operands ∧
      ∃ name address, L.symbols name = some address ∧ target.toInt = (address : Nat)
  | .ret | .halt => True

/-- The instruction at a position can be carried out with the operands that are known there. -/
def Explains (pc : Nat) (i : ι) : Prop :=
  ∃ e, A.Does i (known pc) e ∧ L.Agrees A known (known pc) (pc + width i) e

/-- All instructions are explained, and nothing is known of operands where functions begin. -/
structure Annotated : Prop where
  start : known 0 = A.fresh
  entry : ∀ name address, L.symbols name = some address → known address = A.fresh
  code : ∀ pc i, CodeAt L.code pc [i] → L.Explains A known pc i

/-! ## Runs -/

variable (σ : Nat → State)

/-- A point of a history is at an instruction, with operands as they are known there. -/
structure Told (i : Nat) : Prop where
  at_instr : ∃ instr, At L.code instr (σ i)
  operands : ∀ o, (table ι).Origin σ o i →
    A.Describes (known (σ i).pc) (σ o).holder (σ i).holder

/-- The step at a point of a history is that of an instruction with an effect. -/
structure Carries (i : Nat) (instr : ι) (e : Effect A.Operands) : Prop where
  code : CodeAt L.code (σ i).pc [instr]
  does : A.Does instr (known (σ i).pc) e
  agrees : L.Agrees A known (known (σ i).pc) ((σ i).pc + width instr) e
  role : (table ι).role? (σ i) = some e.role
  holds : ∀ o, (table ι).Origin σ o i →
    e.Holds (A.Describes · (σ o).holder) (A.operation instr) ((σ i).skip (width instr))
      (σ (i + 1))

variable {L A known σ} {n i : Nat}

theorem Told.carries (ht : L.Told A known σ i) (ha : L.Annotated A known) (hS : A.Sound)
    (h : (table ι).History n σ) (hi : i < n) : ∃ instr e, L.Carries A known σ i instr e := by
  obtain ⟨instr, hat⟩ := ht.at_instr
  obtain ⟨e, hdoes, hagrees⟩ := ha.code _ _ hat.code
  have hexec := hat.step_eq.symm.trans (h i hi)
  refine ⟨instr, e, hat.code, hdoes, hagrees, ?_, fun o ho => ?_⟩
  · rw [Table.role?, hS.operation_eq hat, Option.map_some, hS.role_eq hdoes]
  · exact hS.step hdoes (ht.operands o ho) hexec

/-- An effect that stays in the activation goes on where what it leaves is known. -/
theorem Agrees.describes {describes : A.Operands → Holder → Prop} {op : Operation} {s s' : State}
    {operands : A.Operands} {e : Effect A.Operands} (h : L.Agrees A known operands s.pc e)
    (hedge : CodeAt L.code s.pc []) (hholds : e.Holds describes op s s') (hcall : e.role ≠ .call)
    (hret : e.role ≠ .ret) (hhalt : e.role ≠ .halt) :
    CodeAt L.code s'.pc [] ∧ describes (known s'.pc) s'.holder := by
  -- instructions without a branch go on to the next one
  have hstraight : ∀ {after : A.Operands}, known s.pc = after → describes after s'.holder →
      s'.pc = s.pc → CodeAt L.code s'.pc [] ∧ describes (known s'.pc) s'.holder := by
    rintro after rfl hafter hpc
    rw [hpc]
    exact ⟨hedge, hafter⟩
  cases e with
  | constant after => exact hstraight h hholds.1 (by rw [hholds.2])
  | compute after => exact hstraight h hholds.1 (by rw [hholds.2])
  | load slot after => exact hstraight h hholds.2.1 (by rw [hholds.2.2])
  | store slot after =>
      obtain ⟨w, a, -, -, hafter, hstate⟩ := hholds
      exact hstraight h hafter (by rw [hstate])
  | jump offset after =>
      obtain ⟨pc, hpc, hafter, hstate⟩ := hholds
      obtain ⟨target, htarget, hland, rfl⟩ := h
      obtain rfl : pc = target := Int.ofNat.inj (hpc.trans htarget.symm)
      rw [congrArg State.pc hstate]
      exact ⟨hland, hafter⟩
  | branch offset after =>
      obtain ⟨pc, hpc, hafter, hstate⟩ := hholds
      obtain ⟨hstay, target, htarget, hland, hknown⟩ := h
      rcases hpc with rfl | hpc
      · exact hstraight hstay hafter (by rw [hstate])
      · obtain rfl : pc = target := Int.ofNat.inj (hpc.trans htarget.symm)
        rw [congrArg State.pc hstate, hknown]
        exact ⟨hland, hafter⟩
  | call target => exact absurd rfl hcall
  | ret => exact absurd rfl hret
  | halt => exact absurd rfl hhalt

section

variable (ha : L.Annotated A known) (hS : A.Sound) (h : (table ι).History n σ)
  (hstarts : L.Starts A (σ 0))

include h hstarts in
theorem Starts.exists_at (hi : i ≤ n) (hedge : CodeAt L.code (σ i).pc [])
    (hrunning : (σ i).running = true) : ∃ instr, At L.code instr (σ i) := by
  have hprogram := (h.program_eq hi).trans hstarts.program
  rw [State.running, hprogram, decide_eq_true_eq, List.size_toArray, length_codeBytes] at hrunning
  obtain ⟨instr, hinstr⟩ := hedge.exists_instr hrunning
  exact ⟨instr, hprogram, hinstr⟩

variable {instr : ι} {e : Effect A.Operands}

include h hstarts in
/-- A step within the activation. -/
theorem Carries.moves (hstep : L.Carries A known σ i instr e) (hi : i < n)
    (hcall : e.role ≠ .call) (hret : e.role ≠ .ret) (hhalt : e.role ≠ .halt)
    (hrunning : (σ (i + 1)).running = true) : L.Told A known σ (i + 1) := by
  have hbase : ∀ k ≤ n, (σ 0).depth ≤ (σ k).depth := fun k _ => hstarts.depth_le k
  have hdepth : (σ (i + 1)).depth = (σ i).depth := by
    rcases Table.step_calls (h i hi) with ⟨hrole, -⟩ | ⟨hrole, -⟩ | ⟨-, -, hcalls⟩
    · exact absurd (Option.some.inj (hstep.role.symm.trans hrole)) hcall
    · exact absurd (Option.some.inj (hstep.role.symm.trans hrole)) hret
    · exact congrArg List.length hcalls
  have hgoes := fun o ho => hstep.agrees.describes (s := (σ i).skip (width instr))
    hstep.code.edge_next (hstep.holds o ho) hcall hret hhalt
  obtain ⟨o, ho⟩ := h.exists_origin hbase (Nat.le_of_lt hi)
  refine ⟨hstarts.exists_at h hi (hgoes o ho).1 hrunning, fun o' ho' => ?_⟩
  exact (hgoes o' (h.origin_of_same hbase ((SameActivation.refl σ i).next hdepth) hi ho')).2

include ha hS h hstarts in
/-- A call leads to the first instruction of a function. -/
theorem Carries.call {target : Word} (hstep : L.Carries A known σ i instr (.call target))
    (ht : L.Told A known σ i) (hi : i < n) (hrunning : (σ (i + 1)).running = true) :
    L.Told A known σ (i + 1) := by
  have hbase : ∀ k ≤ n, (σ 0).depth ≤ (σ k).depth := fun k _ => hstarts.depth_le k
  obtain ⟨o, ho⟩ := h.exists_origin hbase (Nat.le_of_lt hi)
  obtain ⟨pc, hpc, hstate⟩ := hstep.holds o ho
  obtain ⟨-, name, address, haddress, htarget⟩ := hstep.agrees
  obtain rfl : pc = address := Int.ofNat.inj (hpc.trans htarget)
  obtain ⟨scope, d, -, hbody, -⟩ := L.function name pc haddress
  have hpc : (σ (i + 1)).pc = pc := congrArg State.pc hstate
  have hholder : (σ (i + 1)).holder = (σ i).holder := by rw [hstate]; rfl
  refine ⟨hstarts.exists_at h hi (hpc ▸ hbody.code.edge) hrunning, fun o' ho' => ?_⟩
  rw [hpc, ha.entry name pc haddress, hholder]
  rcases ho' with hc | ⟨-, hfirst⟩
  · rw [hc.unique ⟨hstep.role, .refl σ (i + 1)⟩ h hi]
    exact hS.fresh (ht.operands o ho)
  · -- the activation that the history begins in is not one that is called
    have hdepth := h.depth_call hi hstep.role
    have hlow := hbase i (Nat.le_of_lt hi)
    rw [← hfirst.depth_eq] at hdepth
    omega

include ha hS h hstarts in
/-- A return leads back to the instruction after the call that it matches. -/
theorem Carries.ret (hstep : L.Carries A known σ i instr .ret) (ht : L.Told A known σ i)
    (hi : i < n) (hbefore : ∀ k < i, L.Told A known σ k) (hrunning : (σ (i + 1)).running = true) :
    L.Told A known σ (i + 1) := by
  have hbase : ∀ k ≤ n, (σ 0).depth ≤ (σ k).depth := fun k _ => hstarts.depth_le k
  have hdeeper : (σ 0).depth < (σ i).depth := by
    have hlow := hbase (i + 1) hi
    have hdrop := h.depth_ret hi hstep.role
    omega
  obtain ⟨c, hc⟩ := h.exists_creates (Nat.le_of_lt hi) hdeeper
  have hcn : c < n := Nat.lt_trans hc.lt hi
  have hm : (table ι).Matches σ c i := ⟨hc, hstep.role⟩
  have hcaller := hbefore c hc.lt
  obtain ⟨call, e, hcall⟩ := hcaller.carries ha hS h hcn
  obtain ⟨o, ho⟩ := h.exists_origin hbase (Nat.le_of_lt hcn)
  have hrole := hcall.role.symm.trans hc.1
  cases e with
  | call target =>
      obtain ⟨pc, -, hbegun⟩ := hcall.holds o ho
      obtain ⟨back, rest, -, hended⟩ := hstep.holds c (.inl hc)
      have hholder : (σ (i + 1)).holder = (σ i).holder := by rw [hended]; rfl
      have hpc : (σ (i + 1)).pc = (σ c).pc + width call := by
        have hcalls := hm.calls_begun h hi
        rw [hbegun] at hcalls
        exact (List.cons.inj hcalls).1.symm
      refine ⟨hstarts.exists_at h hi (hpc ▸ hcall.code.edge_next) hrunning, fun o' ho' => ?_⟩
      rw [hpc, hcall.agrees.1, hholder]
      exact hS.resumed hstep.does (hcaller.operands o' (h.origin_of_same hbase (hm.same h hi) hi ho'))
        (ht.operands c (.inl hc))
  | _ => cases hrole

include ha hS h hstarts in
/-- What an annotation knows is true wherever a history that begins with the program comes. -/
theorem Annotated.told : ∀ i ≤ n, (σ i).running = true → L.Told A known σ i := by
  intro i
  induction i using Nat.strong_induction_on with
  | _ i ih =>
      intro hi hrunning
      cases i with
      | zero =>
          refine ⟨hstarts.exists_at h hi ?_ hrunning, fun o ho => ?_⟩
          · rw [hstarts.pc]
            exact ⟨[], L.code, rfl, rfl⟩
          · rcases ho with hc | ⟨rfl, -⟩
            · exact absurd hc.lt (Nat.not_lt_zero o)
            · rw [hstarts.pc, ha.start]
              exact hstarts.operands
      | succ r =>
          have hbefore : ∀ k ≤ r, L.Told A known σ k := fun k hk => by
            refine ih k (Nat.lt_succ_of_le hk) (by omega) ?_
            -- a state that is stepped from is running
            by_contra hstopped
            obtain ⟨fault, hstuck⟩ :=
              Table.step_of_not_running (t := table ι) (eq_false_of_ne_true hstopped)
            cases hstuck.symm.trans (h k (by omega))
          have ht := hbefore r (Nat.le_refl r)
          obtain ⟨instr, e, hstep⟩ := ht.carries ha hS h hi
          cases e with
          | call target => exact hstep.call ha hS h hstarts ht hi hrunning
          | ret => exact hstep.ret ha hS h hstarts ht hi (fun k hk => hbefore k hk.le) hrunning
          | halt =>
              obtain ⟨o, ho⟩ := h.exists_origin (fun k _ => hstarts.depth_le k) (Nat.le_of_lt hi)
              rw [hstep.holds o ho, State.running, decide_eq_true_eq] at hrunning
              exact absurd hrunning (Nat.lt_irrefl _)
          | _ =>
              exact hstep.moves h hstarts hi (by rintro ⟨⟩) (by rintro ⟨⟩) (by rintro ⟨⟩) hrunning

end

end Linked

end

end DualMachine
