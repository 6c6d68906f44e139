import DualMachine.Proofs.Checking
import DualMachine.Proofs.Stack.Simulation

/-!
# Checking code for the stack machine

What is known of the operands is how many values an activation has on the stack, above
those that were there when it began, and which of them are constants. The number is
known at every position, so that a return leaves one value and all that was below.
-/

namespace DualMachine.StackCode

open Source
open Stack (Instr)

/-! ## The analysis -/

/-- How instructions change what is known of the stack. -/
inductive Does : Instr → List (Option Word) → Effect (List (Option Word)) → Prop where
  | push {known : List (Option Word)} {w : Word} :
      Does (.push w) known (.constant (some w :: known))
  | alu {known : List (Option Word)} {op : Alu} {a b : Option Word} :
      Does (.alu op) (a :: b :: known) (.compute (none :: known))
  | jump {known : List (Option Word)} {offset : Word} :
      Does .jump (some offset :: known) (.jump offset known)
  | cjump {known : List (Option Word)} {offset : Word} {cond : Option Word} :
      Does .cjump (some offset :: cond :: known) (.branch offset known)
  | load {known : List (Option Word)} {slot : Nat} :
      Does .load (some 0 :: some (Int32.ofNat slot) :: known) (.load slot (none :: known))
  | store {known : List (Option Word)} {slot : Nat} {a : Option Word} :
      Does .store (some 0 :: some (Int32.ofNat slot) :: a :: known) (.store slot known)
  | call {known : List (Option Word)} {target : Word} : Does (.call target) known (.call target)
  | ret {a : Option Word} : Does .ret [a] .ret
  | halt {known : List (Option Word)} : Does .halt known .halt

/-- Values of which some are known. -/
abbrev Knows : List (Option Word) → List Word → Prop :=
  List.Forall₂ fun known v => ∀ w, known = some w → v = w

/-- So many values more than before. -/
def Pushed (count : Nat) (before known : List (Option Word)) : Prop :=
  ∃ values : List (Option Word), values.length = count ∧ known = values ++ before

theorem pushed_one (a : Option Word) (known : List (Option Word)) : Pushed 1 known (a :: known) :=
  ⟨[a], rfl, rfl⟩

theorem pushed_one_iff {before known : List (Option Word)} :
    Pushed 1 before known ↔ ∃ a, known = a :: before := by
  constructor
  · rintro ⟨values, hlength, rfl⟩
    obtain ⟨a, rfl⟩ := List.length_eq_one_iff.mp hlength
    exact ⟨a, rfl⟩
  · rintro ⟨a, rfl⟩
    exact pushed_one a before

theorem Pushed.trans {m n : Nat} {before between known : List (Option Word)}
    (h : Pushed m before between) (h' : Pushed n between known) : Pushed (n + m) before known := by
  obtain ⟨values, rfl, rfl⟩ := h
  obtain ⟨values', rfl, rfl⟩ := h'
  exact ⟨values' ++ values, List.length_append, by rw [List.append_assoc]⟩

def analysis : Analysis Instr where
  Operands := List (Option Word)
  fresh := []
  resumed known := none :: known
  idle known := known = []
  value := Pushed 1 []
  operation := .stack
  Does := Does
  Describes known before now := ∃ values below, before = .stack below ∧
    now = .stack (values ++ below) ∧ Knows known values

theorem does_role {i : Instr} {known : List (Option Word)} {e : Effect (List (Option Word))}
    (h : Does i known e) : (Operation.stack i).role = e.role := by
  cases h <;> rfl

theorem does_sound {i : Instr} {known : List (Option Word)} {e : Effect (List (Option Word))}
    {before : Holder} {s s' : State} (h : Does i known e)
    (hdescribes : analysis.Describes known before s.holder) (hexec : i.exec s = .ok () s') :
    e.Holds (analysis.Describes · before) (.stack i) s s' := by
  obtain ⟨values, below, rfl, hnow, hknows⟩ := hdescribes
  have houtcome := Stack.outcome_of_exec hexec
  cases h with
  | @push _ w =>
      cases houtcome with
      | push hstack =>
          obtain rfl := Holder.stack.inj (hnow.symm.trans hstack)
          exact ⟨⟨w :: values, below, rfl, rfl, .cons (fun v hv => Option.some.inj hv) hknows⟩, rfl⟩
  | alu =>
      obtain _ | ⟨-, _ | ⟨-, hknows⟩⟩ := hknows
      cases houtcome with
      | alu hstack hw =>
          obtain ⟨rfl, rfl, rfl⟩ : _ ∧ _ ∧ _ := by simpa using hnow.symm.trans hstack
          exact ⟨⟨_ :: _, below, rfl, rfl, .cons (by simp) hknows⟩, rfl⟩
  | jump =>
      obtain _ | ⟨hoffset, hknows⟩ := hknows
      obtain rfl := hoffset _ rfl
      cases houtcome with
      | @jump _ _ pc hstack hpc =>
          obtain ⟨rfl, rfl⟩ : _ ∧ _ := by simpa using hnow.symm.trans hstack
          exact ⟨pc, hpc, ⟨_, below, rfl, rfl, hknows⟩, rfl⟩
  | cjump =>
      obtain _ | ⟨hoffset, _ | ⟨-, hknows⟩⟩ := hknows
      obtain rfl := hoffset _ rfl
      cases houtcome with
      | @branch _ _ _ pc hstack hpc =>
          obtain ⟨rfl, rfl, rfl⟩ : _ ∧ _ ∧ _ := by simpa using hnow.symm.trans hstack
          exact ⟨pc, .inr hpc, ⟨_, below, rfl, rfl, hknows⟩, rfl⟩
      | stay hstack =>
          obtain ⟨rfl, rfl, rfl⟩ : _ ∧ _ ∧ _ := by simpa using hnow.symm.trans hstack
          exact ⟨s.pc, .inl rfl, ⟨_, below, rfl, rfl, hknows⟩, rfl⟩
  | load =>
      obtain _ | ⟨hflag, _ | ⟨haddress, hknows⟩⟩ := hknows
      obtain rfl := hflag _ rfl
      obtain rfl := haddress _ rfl
      cases houtcome with
      | load hstack hi =>
          obtain ⟨rfl, rfl, rfl⟩ : _ ∧ _ ∧ _ := by simpa using hnow.symm.trans hstack
          refine ⟨?_, ⟨_ :: _, below, rfl, rfl, .cons (by simp) hknows⟩, rfl⟩
          simp [Operation.access?, hstack]
  | store =>
      obtain _ | ⟨hflag, _ | ⟨haddress, _ | ⟨-, hknows⟩⟩⟩ := hknows
      obtain rfl := hflag _ rfl
      obtain rfl := haddress _ rfl
      cases houtcome with
      | @store _ _ _ w i hstack hi =>
          obtain ⟨rfl, rfl, rfl, rfl⟩ : _ ∧ _ ∧ _ ∧ _ := by simpa using hnow.symm.trans hstack
          refine ⟨_, i, ?_, hi, ⟨_, below, rfl, rfl, hknows⟩, rfl⟩
          simp [Operation.access?, hstack]
  | call =>
      cases houtcome with
      | @call _ pc hpc => exact ⟨pc, hpc, rfl⟩
  | ret =>
      cases houtcome with
      | @ret back rest hcalls => exact ⟨back, rest, hcalls, rfl⟩
  | halt =>
      cases houtcome with
      | halt => rfl

theorem analysis_sound : analysis.Sound where
  operation_eq hat := Stack.operation?_eq hat.reads
  role_eq := does_role
  step := does_sound
  fresh := by
    rintro known before now ⟨values, below, rfl, rfl, -⟩
    exact ⟨[], values ++ below, rfl, rfl, .nil⟩
  resumed := by
    rintro i known known' before between now hret ⟨values, below, rfl, rfl, hknows⟩
      ⟨result, _, hbelow, rfl, hresult⟩
    obtain rfl := Holder.stack.inj hbelow
    cases hret
    obtain _ | ⟨-, _ | _⟩ := hresult
    exact ⟨_ :: values, below, rfl, rfl, .cons (by simp) hknows⟩

/-! ## The pieces -/

theorem codeLength_pushed (pc : Nat) (w : Word) (i : Instr) :
    pc + codeLength [.push w, i] = pc + Line.length (Line.ofCode [Instr.push w]) + width i := by
  simp [Nat.add_assoc]

/-- What code counts on where the operands are known. -/
abbrev exactly (known : List (Option Word)) (own : Set Nat) (passed : Set Nat := ∅) :
    Assertion analysis.Operands :=
  ⟨(· = known), own, passed⟩

/-- What code counts on with so many values pushed. -/
abbrev pushed (count : Nat) (known : List (Option Word)) (own : Set Nat) :
    Assertion analysis.Operands :=
  ⟨Pushed count known, own, ∅⟩

section

variable {L : Linked pieces} {own passed : Set Nat} {known : List (Option Word)}

theorem push_leads (w : Word) :
    L.Leads analysis (Line.ofCode [Instr.push w]) (exactly known own passed)
      (exactly (some w :: known) own passed) := by
  refine .constant ?_
  rintro _ rfl
  exact ⟨_, .push, rfl⟩

theorem alu_leads (op : Alu) (a b : Option Word) :
    L.Leads analysis (Line.ofCode [Instr.alu op]) (exactly (a :: b :: known) own passed)
      (pushed 1 known own) := by
  refine .compute ?_
  rintro _ rfl
  exact ⟨_, .alu, pushed_one none known⟩

/-- An operation on the top and a constant. -/
theorem constant_alu_leads (w : Word) (op : Alu) :
    L.Leads analysis (Line.ofCode [Instr.push w, .alu op]) (pushed 1 known own)
      (pushed 1 known own) := by
  refine .of_operands fun ops hops => ?_
  obtain ⟨a, rfl⟩ := pushed_one_iff.mp hops
  exact .append (push_leads w) (alu_leads op (some w) a)

theorem loadCode_leads {slot : Nat} (hslot : slot < frameSize) (hmem : slot ∈ own) :
    L.Leads analysis (Line.ofCode (loadCode slot)) (exactly known own passed)
      (pushed 1 known own) := by
  refine .append (push_leads (Int32.ofNat slot)) (.append (push_leads 0) (.load hslot hmem ?_))
  rintro _ rfl
  exact ⟨_, .load, pushed_one none known⟩

theorem storeCode_leads {slot : Nat} (hslot : slot < frameSize + frameSize) (a : Option Word) :
    L.Leads analysis (Line.ofCode (storeCode slot)) (exactly (a :: known) own passed)
      (exactly known (insert slot own) (insert slot passed)) := by
  refine .append (push_leads (Int32.ofNat slot)) (.append (push_leads 0) (.store hslot ?_))
  rintro _ rfl
  exact ⟨_, .store, rfl⟩

theorem unaryCode_leads (op : UnaryOp) :
    L.Leads analysis (Line.ofCode (unaryCode op)) (pushed 1 known own) (pushed 1 known own) := by
  cases op with
  | neg => exact constant_alu_leads 0 .sub
  | not => exact constant_alu_leads 0 .eq

theorem binaryCode_leads (op : BinaryOp) (a b : Option Word) :
    L.Leads analysis (Line.ofCode (binaryCode op)) (exactly (a :: b :: known) own)
      (pushed 1 known own) := by
  refine .append (alu_leads op.lowered.1 a b) ?_
  cases op.lowered.2 with
  | true => exact constant_alu_leads 0 .eq
  | false => exact .nil

/-- Arguments get from the stack to the slots above the frame. -/
theorem passCode_leads {values : List (Option Word)} (hlength : values.length ≤ frameSize) :
    L.Leads analysis (Line.ofCode (passCode values.length)) (exactly (values ++ known) own passed)
      (exactly known own (passed ∪ Set.Ico frameSize (frameSize + values.length))) := by
  induction values generalizing own passed with
  | nil =>
      rw [List.length_nil, Nat.add_zero, Set.Ico_self, Set.union_empty]
      exact .nil
  | cons a values ih =>
      rw [List.length_cons] at hlength ⊢
      rw [passCode_succ, Line.ofCode_append, ← Nat.add_assoc,
        ← Set.insert_Ico_right_eq_Ico_add_one (by omega), Set.union_insert, ← Set.insert_union]
      refine .append (storeCode_leads (by omega) a) ((ih (by omega)).weaken fun P hP => ?_)
      exact hP.weaken (fun _ h => h) (Set.subset_insert _ _) subset_rfl

theorem jump_ready {n pc target : Nat} {offset : Word}
    (hplaced : L.Placed pc (Line.ofCode [.push offset, .jump]))
    (htarget : (target : Int) = (pc + codeLength [Instr.push offset, .jump] : Nat) + offset.toInt)
    (hnext : ∀ m < n, L.Ready analysis m target (exactly [] own)) :
    L.Ready analysis n pc (exactly [] own) := by
  have hsplit : L.Placed pc (Line.ofCode [Instr.push offset] ++ Line.ofCode [.jump]) := hplaced
  rw [codeLength_pushed] at htarget
  refine push_leads offset n pc hsplit.left (.jump hsplit.right ?_ htarget hnext)
  rintro _ rfl
  exact ⟨_, .jump, rfl⟩

theorem cjump_ready {n pc target : Nat} {offset : Word}
    (hplaced : L.Placed pc (Line.ofCode [.push offset, .cjump]))
    (htarget : (target : Int) = (pc + codeLength [Instr.push offset, .cjump] : Nat) + offset.toInt)
    (hstay : L.Ready analysis n (pc + codeLength [Instr.push offset, .cjump]) (exactly [] own))
    (hnext : L.Ready analysis n target (exactly [] own)) :
    L.Ready analysis n pc (pushed 1 [] own) := by
  have hsplit : L.Placed pc (Line.ofCode [Instr.push offset] ++ Line.ofCode [.cjump]) := hplaced
  rw [codeLength_pushed] at htarget hstay
  intro P hP
  obtain ⟨a, ha⟩ := pushed_one_iff.mp hP.operands
  have hpush : L.Leads analysis (Line.ofCode [.push offset]) (exactly [a] own)
      (exactly [some offset, a] own) := push_leads offset
  refine hpush n pc hsplit.left (.branch hsplit.right ?_ htarget hstay hnext) P
    ⟨hP.inside, ha, hP.own, hP.passed⟩
  rintro _ rfl
  exact ⟨_, .cjump, rfl⟩

variable {scope : Scope} {vars : List String}

mutual

theorem expr_leads : ∀ (e : Expr) {known : List (Option Word)}, ExprFits vars e →
    vars.length ≤ frameSize → Set.Iio vars.length ⊆ own →
    (L.complete → e.saturated (fun f => L.arity (scope.qualify f)) = true) →
    L.Leads analysis (exprCode scope vars e) (exactly known own) (pushed 1 known own)
  | .number n, known, _, _, _, _ => by
      rw [exprCode]
      exact (push_leads n).weaken fun P hP =>
        hP.weaken (fun _ h => h ▸ pushed_one _ _) subset_rfl subset_rfl
  | .boolean b, known, _, _, _, _ => by
      rw [exprCode]
      exact (push_leads _).weaken fun P hP =>
        hP.weaken (fun _ h => h ▸ pushed_one _ _) subset_rfl subset_rfl
  | .identifier x, known, hfits, hvars, hmem, _ => by
      rw [ExprFits] at hfits
      rw [exprCode]
      have hslot := List.idxOf_lt_length_of_mem hfits
      exact loadCode_leads (by omega) (hmem hslot)
  | .paren inner, known, hfits, hvars, hmem, hsat => by
      rw [ExprFits] at hfits
      rw [exprCode]
      exact expr_leads inner hfits hvars hmem hsat
  | .unary op operand, known, hfits, hvars, hmem, hsat => by
      rw [ExprFits] at hfits
      rw [exprCode]
      exact (expr_leads operand hfits hvars hmem hsat).append (unaryCode_leads op)
  | .binary op left right, known, hfits, hvars, hmem, hsat => by
      rw [ExprFits] at hfits
      rw [exprCode, List.append_assoc]
      simp only [Expr.saturated, Bool.and_eq_true] at hsat
      refine (expr_leads right hfits.1 hvars hmem fun h => (hsat h).2).append ?_
      refine .of_operands fun ops hops => ?_
      obtain ⟨b, rfl⟩ := pushed_one_iff.mp hops
      refine (expr_leads left hfits.2 hvars hmem fun h => (hsat h).1).append ?_
      refine .of_operands fun ops hops => ?_
      obtain ⟨a, rfl⟩ := pushed_one_iff.mp hops
      exact binaryCode_leads op a b
  | .call f args, known, hfits, hvars, hmem, hsat => by
      rw [ExprFits] at hfits
      rw [exprCode]
      simp only [Expr.saturated, Bool.and_eq_true, decide_eq_true_eq] at hsat
      refine (exprs_leads args hfits.2 hvars hmem fun h => (hsat h).2).append ?_
      refine .of_operands fun ops hops => ?_
      obtain ⟨values, hlength, rfl⟩ := hops
      have hpass : L.Leads analysis (Line.ofCode (passCode args.length))
          (exactly (values ++ known) own)
          (exactly known own (∅ ∪ Set.Ico frameSize (frameSize + args.length))) := by
        rw [← hlength] at hfits ⊢
        exact passCode_leads hfits.1
      rw [Set.empty_union] at hpass
      refine hpass.append (.call (fun _ _ => .call) (fun h => (hsat h).1) ?_)
      rintro _ rfl
      exact pushed_one none _

theorem exprs_leads : ∀ (es : List Expr) {known : List (Option Word)}, ExprsFit vars es →
    vars.length ≤ frameSize → Set.Iio vars.length ⊆ own →
    (L.complete → Expr.saturatedAll (fun f => L.arity (scope.qualify f)) es = true) →
    L.Leads analysis (exprsCode scope vars es) (exactly known own) (pushed es.length known own)
  | [], known, _, _, _, _ => by
      rw [exprsCode]
      refine Linked.Leads.nil.weaken fun P hP => hP.weaken ?_ subset_rfl subset_rfl
      rintro _ rfl
      exact ⟨[], rfl, rfl⟩
  | e :: es, known, hfits, hvars, hmem, hsat => by
      rw [ExprsFit] at hfits
      rw [exprsCode]
      simp only [Expr.saturatedAll, Bool.and_eq_true] at hsat
      refine (expr_leads e hfits.1 hvars hmem fun h => (hsat h).1).append ?_
      refine .of_operands fun between hbetween => ?_
      refine (exprs_leads es hfits.2 hvars hmem fun h => (hsat h).2).weaken fun P hP => ?_
      exact hP.weaken (fun _ h => hbetween.trans h) subset_rfl subset_rfl

end

end

theorem analysis_accepts : analysis.Accepts pieces where
  idle_fresh := rfl
  call _ _ := .call
  halt _ := .halt
  jumpLength_eq _ := rfl
  expr _ _ _ _ hfits hvars hsat := expr_leads _ hfits hvars subset_rfl hsat
  store L slot own hslot := by
    refine .of_operands fun ops hops => ?_
    obtain ⟨a, rfl⟩ := pushed_one_iff.mp hops
    exact (storeCode_leads (by omega) a).weaken fun P hP =>
      hP.weaken (fun _ h => h) subset_rfl (Set.empty_subset _)
  ret _ _ _ := by
    refine .ret fun ops hops => ?_
    obtain ⟨a, rfl⟩ := pushed_one_iff.mp hops
    exact .ret
  zero _ _ := (push_leads 0).weaken fun P hP =>
    hP.weaken (fun _ h => h ▸ pushed_one _ _) subset_rfl subset_rfl
  invert _ _ := constant_alu_leads 0 .eq
  jump _ _ _ _ _ _ := jump_ready
  cjump _ _ _ _ _ _ := cjump_ready

end DualMachine.StackCode
