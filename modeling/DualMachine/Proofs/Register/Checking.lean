import DualMachine.Proofs.Checking
import DualMachine.Proofs.Register.Simulation

/-!
# Checking code for the register machine

What is known of the operands is which registers hold constants. It is needed between
two constants and the load or store that they are for, and nowhere else: code counts
on no register that it has not just set.
-/

namespace DualMachine.RegisterCode

open Source
open Register (Instr)

/-! ## The analysis -/

/-- How instructions change what is known of the registers. -/
inductive Does : Instr → (UInt8 → Option Word) → Effect (UInt8 → Option Word) → Prop where
  | mov {known : UInt8 → Option Word} {dst : UInt8} {w : Word} :
      Does (.mov dst w) known (.constant (Function.update known dst (some w)))
  | alu {known : UInt8 → Option Word} {op : Alu} {dst lhs rhs : UInt8} :
      Does (.alu op dst lhs rhs) known (.compute (Function.update known dst none))
  | dup {known : UInt8 → Option Word} {dst src : UInt8} :
      Does (.dup dst src) known (.compute (Function.update known dst none))
  | jump {known : UInt8 → Option Word} {offset : Word} :
      Does (.jump offset) known (.jump offset known)
  | cjump {known : UInt8 → Option Word} {cond : UInt8} {offset : Word} :
      Does (.cjump cond offset) known (.branch offset known)
  | load {known : UInt8 → Option Word} {dst address flag : UInt8} {slot : Nat}
      (haddress : known address = some (Int32.ofNat slot)) (hflag : known flag = some 0) :
      Does (.load dst address flag) known (.load slot (Function.update known dst none))
  | store {known : UInt8 → Option Word} {src address flag : UInt8} {slot : Nat}
      (haddress : known address = some (Int32.ofNat slot)) (hflag : known flag = some 0) :
      Does (.store src address flag) known (.store slot known)
  | call {known : UInt8 → Option Word} {target : Word} : Does (.call target) known (.call target)
  | ret {known : UInt8 → Option Word} : Does .ret known .ret
  | halt {known : UInt8 → Option Word} : Does .halt known .halt

/-- The registers that are known hold what is known. -/
def Knows (known : UInt8 → Option Word) (regs : Array Word) : Prop :=
  ∀ r w v, known r = some w → regs[r.toNat]? = some v → v = w

theorem Knows.eq {known : UInt8 → Option Word} {regs : Array Word} (h : Knows known regs)
    {r : UInt8} {w v : Word} (hknown : known r = some w) (hv : regs[r.toNat]? = some v) : v = w :=
  h r w v hknown hv

/-- A register is written with a word that is known or not. -/
theorem Knows.set {known : UInt8 → Option Word} {regs : Array Word} (h : Knows known regs)
    (dst : UInt8) {w : Word} {o : Option Word} (ho : ∀ v, o = some v → w = v) :
    Knows (Function.update known dst o) (regs.setIfInBounds dst.toNat w) := by
  intro r v u hknown hu
  by_cases hr : r = dst
  · subst hr
    rw [Function.update_self] at hknown
    rw [Array.getElem?_setIfInBounds_self] at hu
    split at hu
    · rw [← Option.some.inj hu]
      exact ho v hknown
    · cases hu
  · rw [Function.update_of_ne hr] at hknown
    have hne : dst.toNat ≠ r.toNat := fun heq => hr (UInt8.toNat_inj.mp heq.symm)
    rw [Array.getElem?_setIfInBounds_ne hne] at hu
    exact h r v u hknown hu

def analysis : Analysis Instr where
  Operands := UInt8 → Option Word
  fresh _ := none
  resumed _ _ := none
  idle _ := True
  value _ := True
  operation := .register
  Does := Does
  Describes known _ now := ∃ regs, now = .registers regs ∧ Knows known regs

theorem does_role {i : Instr} {known : UInt8 → Option Word} {e : Effect (UInt8 → Option Word)}
    (h : Does i known e) : (Operation.register i).role = e.role := by
  cases h <;> rfl

theorem does_sound {i : Instr} {known : UInt8 → Option Word} {e : Effect (UInt8 → Option Word)}
    {before : Holder} {s s' : State} (h : Does i known e)
    (hdescribes : analysis.Describes known before s.holder) (hexec : i.exec s = .ok () s') :
    e.Holds (analysis.Describes · before) (.register i) s s' := by
  obtain ⟨regs, hregs, hknows⟩ := hdescribes
  have houtcome := Register.outcome_of_exec hexec
  cases h with
  | @mov _ dst w =>
      cases houtcome with
      | mov hfile hdst =>
          obtain rfl := Holder.registers.inj (hregs.symm.trans hfile)
          exact ⟨⟨_, rfl, hknows.set dst fun v hv => Option.some.inj hv⟩, rfl⟩
  | @alu _ op dst lhs rhs =>
      cases houtcome with
      | alu hfile ha hb hw =>
          obtain rfl := Holder.registers.inj (hregs.symm.trans hfile)
          exact ⟨⟨_, rfl, hknows.set dst (by simp)⟩, rfl⟩
  | @dup _ dst src =>
      cases houtcome with
      | dup hfile ha =>
          obtain rfl := Holder.registers.inj (hregs.symm.trans hfile)
          exact ⟨⟨_, rfl, hknows.set dst (by simp)⟩, rfl⟩
  | jump =>
      cases houtcome with
      | @jump _ pc hpc => exact ⟨pc, hpc, ⟨regs, hregs, hknows⟩, rfl⟩
  | cjump =>
      cases houtcome with
      | @branch _ _ pc hpc => exact ⟨pc, .inr hpc, ⟨regs, hregs, hknows⟩, rfl⟩
      | stay => exact ⟨s.pc, .inl rfl, ⟨regs, hregs, hknows⟩, rfl⟩
  | @load _ dst address flag slot haddress hflag =>
      cases houtcome with
      | load hfile ha hg hi hdst =>
          obtain rfl := Holder.registers.inj (hregs.symm.trans hfile)
          obtain rfl := hknows.eq haddress ha
          obtain rfl := hknows.eq hflag hg
          refine ⟨?_, ⟨_, rfl, hknows.set dst (by simp)⟩, rfl⟩
          simp [Operation.access?, hfile, ha, hg]
  | @store _ src address flag slot haddress hflag =>
      cases houtcome with
      | @store _ _ _ _ w a g i hfile hw ha hg hi =>
          obtain rfl := Holder.registers.inj (hregs.symm.trans hfile)
          obtain rfl := hknows.eq haddress ha
          obtain rfl := hknows.eq hflag hg
          refine ⟨w, i, ?_, hi, ⟨_, hregs, hknows⟩, rfl⟩
          simp [Operation.access?, hfile, hw, ha, hg]
  | call =>
      cases houtcome with
      | @call _ pc hpc => exact ⟨pc, hpc, rfl⟩
  | ret =>
      cases houtcome with
      | @ret back rest hcalls => exact ⟨back, rest, hcalls, rfl⟩
  | halt =>
      cases houtcome with
      | halt => rfl

theorem analysis_sound : analysis.Sound where
  operation_eq hat := Register.operation?_eq hat.reads
  role_eq := does_role
  step := does_sound
  fresh := by
    rintro known before now ⟨regs, hregs, -⟩
    exact ⟨regs, hregs, fun r w v h => by cases h⟩
  resumed := by
    rintro i known known' before between now - - ⟨regs, hregs, -⟩
    exact ⟨regs, hregs, fun r w v h => by cases h⟩

/-! ## The pieces -/

theorem File.address_ne_flag (file : File) : file.address ≠ file.flag := by
  intro h
  have hnat := congrArg UInt8.toNat h
  have hthree := file.three_le
  rw [file.address_toNat, file.flag_toNat] at hnat
  omega

/-- What code counts on between two pieces: written slots and nothing of the registers. -/
abbrev clear (own : Set Nat) (passed : Set Nat := ∅) : Assertion analysis.Operands :=
  ⟨fun _ => True, own, passed⟩

/-- A slot of the frame is addressed. -/
def addressing (file : File) (slot : Nat) (known : UInt8 → Option Word) : Prop :=
  known file.address = some (Int32.ofNat slot) ∧ known file.flag = some 0

section

variable {file : File} {L : Linked (pieces file)} {own passed : Set Nat}

theorem mov_leads {Q : analysis.Operands → Prop} (dst : UInt8) (w : Word) :
    L.Leads analysis (Line.ofCode [Instr.mov dst w]) ⟨Q, own, passed⟩ (clear own passed) :=
  .constant fun _ _ => ⟨_, .mov, trivial⟩

theorem alu_leads {Q : analysis.Operands → Prop} (op : Alu) (dst lhs rhs : UInt8) :
    L.Leads analysis (Line.ofCode [Instr.alu op dst lhs rhs]) ⟨Q, own, passed⟩ (clear own) :=
  .compute fun _ _ => ⟨_, .alu, trivial⟩

/-- Two constants address a slot of the frame. -/
theorem address_leads (slot : Nat) :
    L.Leads analysis
      (Line.ofCode [.mov file.address (Int32.ofNat slot)] ++ Line.ofCode [.mov file.flag 0])
      (clear own passed)
      ⟨addressing file slot, own, passed⟩ := by
  have haddress : L.Leads analysis (Line.ofCode [.mov file.address (Int32.ofNat slot)])
      (clear own passed)
      ⟨fun known : UInt8 → Option Word => known file.address = some (Int32.ofNat slot),
        own, passed⟩ :=
    .constant fun _ _ => ⟨_, .mov, Function.update_self ..⟩
  refine haddress.append (.constant fun known hknown => ⟨_, .mov, ?_, Function.update_self ..⟩)
  exact (Function.update_of_ne file.address_ne_flag ..).trans hknown

theorem loadCode_leads {dst : UInt8} {slot : Nat} (hslot : slot < frameSize) (hmem : slot ∈ own) :
    L.Leads analysis (Line.ofCode (loadCode file dst slot)) (clear own passed) (clear own) :=
  .append (address_leads slot)
    (.load hslot hmem fun _ h => ⟨_, .load h.1 h.2, trivial⟩)

theorem storeCode_leads {src : UInt8} {slot : Nat} (hslot : slot < frameSize + frameSize) :
    L.Leads analysis (Line.ofCode (storeCode file src slot)) (clear own passed)
      (clear (insert slot own) (insert slot passed)) :=
  .append (address_leads slot) (.store hslot fun _ h => ⟨_, .store h.1 h.2, trivial⟩)

theorem invertCode_leads (reg : UInt8) :
    L.Leads analysis (Line.ofCode (invertCode file reg)) (clear own) (clear own) :=
  .append (mov_leads file.flag 0) (alu_leads .eq reg reg file.flag)

theorem unaryCode_leads (op : UnaryOp) (reg : UInt8) :
    L.Leads analysis (Line.ofCode (unaryCode file reg op)) (clear own) (clear own) := by
  cases op with
  | neg => exact .append (mov_leads file.flag 0) (alu_leads .sub reg file.flag reg)
  | not => exact invertCode_leads reg

theorem binaryCode_leads (op : BinaryOp) (dst rhs : UInt8) :
    L.Leads analysis (Line.ofCode (binaryCode file dst rhs op)) (clear own) (clear own) := by
  refine .append (alu_leads op.lowered.1 dst dst rhs) ?_
  cases op.lowered.2 with
  | true => exact invertCode_leads dst
  | false => exact .nil

theorem saveCode_leads {first slot count : Nat} (hslot : slot + count ≤ frameSize + frameSize) :
    L.Leads analysis (Line.ofCode (saveCode file first slot count)) (clear own passed)
      (clear (own ∪ Set.Ico slot (slot + count)) (passed ∪ Set.Ico slot (slot + count))) := by
  induction count with
  | zero =>
      rw [Nat.add_zero, Set.Ico_self, Set.union_empty, Set.union_empty]
      exact .nil
  | succ count ih =>
      rw [saveCode_succ, Line.ofCode_append, ← Nat.add_assoc,
        ← Set.insert_Ico_right_eq_Ico_add_one (by omega), Set.union_insert, Set.union_insert]
      exact .append (ih (by omega)) (storeCode_leads (by omega))

theorem restoreCode_leads {slot count : Nat} (hslot : slot + count ≤ frameSize)
    (hmem : Set.Iio (slot + count) ⊆ own) :
    L.Leads analysis (Line.ofCode (restoreCode file slot count)) (clear own) (clear own) := by
  induction count with
  | zero => exact .nil
  | succ count ih =>
      rw [restoreCode_succ, Line.ofCode_append]
      refine .append (ih (by omega) ?_) (loadCode_leads (by omega) (hmem ?_))
      · exact (Set.Iio_subset_Iio (by omega)).trans hmem
      · exact Set.mem_Iio.mpr (by omega)

theorem resultCode_leads (t : Nat) :
    L.Leads analysis (Line.ofCode (resultCode t)) (clear own) (clear own) := by
  unfold resultCode
  split
  · exact .nil
  · exact .compute fun _ _ => ⟨_, .dup, trivial⟩

/-- A call: the registers in use are saved, the arguments evaluated and passed, and the
registers restored. -/
theorem call_leads {saved : Set Nat} {args : List (Line Instr)} {name : String}
    {slot count t : Nat} (hsaved : saved = own ∪ Set.Ico slot (slot + t))
    (hcount : count ≤ frameSize) (hroom : slot + t ≤ frameSize) (hmem : Set.Iio slot ⊆ own)
    (harity : L.complete → L.arity name ≤ count)
    (hargs : L.Leads analysis args (clear saved) (clear saved)) :
    L.Leads analysis
      (Line.ofCode (saveCode file 0 slot t) ++ args
        ++ (Line.ofCode (saveCode file t frameSize count) ++ [.call name])
        ++ (Line.ofCode (resultCode t) ++ Line.ofCode (restoreCode file slot t)))
      (clear own) (clear own) := by
  subst hsaved
  -- what was saved is among the slots that have been written
  have hbelow : Set.Iio (slot + t) ⊆ own ∪ Set.Ico slot (slot + t) := by
    intro k hk
    rcases Nat.lt_or_ge k slot with hlt | hge
    · exact .inl (hmem hlt)
    · exact .inr ⟨hge, hk⟩
  have hsave : L.Leads analysis (Line.ofCode (saveCode file 0 slot t)) (clear own)
      (clear (own ∪ Set.Ico slot (slot + t))) :=
    (saveCode_leads (by omega)).weaken fun P hP =>
      hP.weaken (fun _ h => h) subset_rfl (Set.empty_subset _)
  have hpass : L.Leads analysis (Line.ofCode (saveCode file t frameSize count))
      (clear (own ∪ Set.Ico slot (slot + t)))
      (clear (own ∪ Set.Ico slot (slot + t)) (Set.Ico frameSize (frameSize + count))) :=
    (saveCode_leads (by omega)).weaken fun P hP =>
      hP.weaken (fun _ h => h) Set.subset_union_left Set.subset_union_right
  have hcall : L.Leads analysis [.call name]
      (clear (own ∪ Set.Ico slot (slot + t)) (Set.Ico frameSize (frameSize + count)))
      (clear (own ∪ Set.Ico slot (slot + t))) :=
    .call (fun _ _ => .call) harity fun _ _ => trivial
  have hback : L.Leads analysis
      (Line.ofCode (resultCode t) ++ Line.ofCode (restoreCode file slot t))
      (clear (own ∪ Set.Ico slot (slot + t))) (clear own) :=
    ((resultCode_leads t).append (restoreCode_leads hroom hbelow)).weaken fun P hP =>
      hP.weaken (fun _ h => h) Set.subset_union_left subset_rfl
  exact ((hsave.append hargs).append (hpass.append hcall)).append hback

variable {scope : Scope} {vars : List String}

mutual

theorem expr_leads : ∀ (e : Expr) (t : Nat) {own : Set Nat}, ExprFits file vars e t →
    vars.length ≤ frameSize → Set.Iio vars.length ⊆ own →
    (L.complete → e.saturated (fun f => L.arity (scope.qualify f)) = true) →
    L.Leads analysis (exprCode file scope vars e t) (clear own) (clear own)
  | .number n, t, own, _, _, _, _ => by
      rw [exprCode]
      exact mov_leads _ _
  | .boolean b, t, own, _, _, _, _ => by
      rw [exprCode]
      exact mov_leads _ _
  | .identifier x, t, own, hfits, hvars, hmem, _ => by
      rw [ExprFits] at hfits
      rw [exprCode]
      have hslot := List.idxOf_lt_length_of_mem hfits.2
      exact loadCode_leads (by omega) (hmem hslot)
  | .paren inner, t, own, hfits, hvars, hmem, hsat => by
      rw [ExprFits] at hfits
      rw [exprCode]
      exact expr_leads inner t hfits.2 hvars hmem hsat
  | .unary op operand, t, own, hfits, hvars, hmem, hsat => by
      rw [ExprFits] at hfits
      rw [exprCode]
      exact (expr_leads operand t hfits.2 hvars hmem hsat).append (unaryCode_leads op _)
  | .binary op left right, t, own, hfits, hvars, hmem, hsat => by
      rw [ExprFits] at hfits
      rw [exprCode]
      simp only [Expr.saturated, Bool.and_eq_true] at hsat
      exact ((expr_leads left t hfits.2.1 hvars hmem fun h => (hsat h).1).append
        (expr_leads right (t + 1) hfits.2.2 hvars hmem fun h => (hsat h).2)).append
        (binaryCode_leads op _ _)
  | .call f args, t, own, hfits, hvars, hmem, hsat => by
      rw [ExprFits] at hfits
      rw [exprCode]
      simp only [Expr.saturated, Bool.and_eq_true, decide_eq_true_eq] at hsat
      obtain ⟨-, hcount, -, hroom, hargs⟩ := hfits
      refine call_leads rfl hcount hroom hmem (fun h => (hsat h).1) ?_
      exact exprs_leads args t hargs hvars (hmem.trans Set.subset_union_left) fun h => (hsat h).2

theorem exprs_leads : ∀ (es : List Expr) (t : Nat) {own : Set Nat}, ExprsFit file vars es t →
    vars.length ≤ frameSize → Set.Iio vars.length ⊆ own →
    (L.complete → Expr.saturatedAll (fun f => L.arity (scope.qualify f)) es = true) →
    L.Leads analysis (exprsCode file scope vars es t) (clear own) (clear own)
  | [], t, own, _, _, _, _ => by
      rw [exprsCode]
      exact .nil
  | e :: es, t, own, hfits, hvars, hmem, hsat => by
      rw [ExprsFit] at hfits
      rw [exprsCode]
      simp only [Expr.saturatedAll, Bool.and_eq_true] at hsat
      exact (expr_leads e t hfits.1 hvars hmem fun h => (hsat h).1).append
        (exprs_leads es (t + 1) hfits.2 hvars hmem fun h => (hsat h).2)

end

end

theorem analysis_accepts (file : File) : analysis.Accepts (pieces file) where
  idle_fresh := trivial
  call _ _ := .call
  halt _ := .halt
  jumpLength_eq _ := rfl
  expr _ _ _ _ hfits hvars hsat := expr_leads _ 0 hfits hvars subset_rfl hsat
  store L slot own hslot := by
    have hstore : L.Leads analysis (Line.ofCode (storeCode file 0 slot)) (clear own)
        (clear (insert slot own) (insert slot ∅)) := storeCode_leads (by omega)
    exact hstore.weaken fun P hP => hP.weaken (fun _ h => h) subset_rfl (Set.empty_subset _)
  ret _ _ _ := .ret fun _ _ => .ret
  zero _ _ := mov_leads 0 0
  invert _ _ := invertCode_leads 0
  jump _ _ _ _ _ _ hplaced htarget hnext :=
    .jump hplaced (fun _ _ => ⟨_, .jump, trivial⟩) htarget hnext
  cjump _ _ _ _ _ _ hplaced htarget hstay hnext :=
    .branch hplaced (fun _ _ => ⟨_, .cjump, trivial⟩) htarget hstay hnext

end DualMachine.RegisterCode
