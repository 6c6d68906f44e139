import DualMachine.Proofs.Register.Emission
import DualMachine.Proofs.Stack.Emission

/-!
# Room for expressions

The code generator of the register machine walks an expression with a number of free
temporaries, that of the stack machine without. Apart from the room this takes, both accept
the same functions: what fits on the register machine fits on the stack machine
(`RegisterCode.functionFits_stack`), and where it fits there, the register machine's
generator refuses it for lack of room only (`RegisterCode.compileFunction_error`).

`Gen.Reports` says of a generator why it fails: for lack of room, or because of a variable, and
then what it works on does not fit. It is put together along the definition of a generator as
`Gen.Emits` is, which tells how a generator leaves the variables where it succeeds.
-/

namespace DualMachine

open Source
open Gen (Emits)

/-! ## What fits -/

namespace Pieces

variable {ι κ : Type} {C : Pieces ι} {D : Pieces κ}

mutual

theorem StatementFits.mono (h : ∀ vars e, C.fits vars e → D.fits vars e) :
    ∀ (s : Stmt) (vars : List String), C.StatementFits vars s → D.StatementFits vars s
  | .var _ _, _ => by
      unfold StatementFits
      exact fun hfits => ⟨h _ _ hfits.1, hfits.2⟩
  | .assign _ _, _ => by
      unfold StatementFits
      exact fun hfits => ⟨h _ _ hfits.1, hfits.2⟩
  | .return _, _ => by
      unfold StatementFits
      exact h _ _
  | .if _ onTrue none, _ => by
      unfold StatementFits
      exact fun hfits => ⟨h _ _ hfits.1, StatementsFit.mono h onTrue _ hfits.2⟩
  | .if _ onTrue (some onFalse), _ => by
      unfold StatementFits
      exact fun hfits => ⟨h _ _ hfits.1, StatementsFit.mono h onTrue _ hfits.2.1,
        StatementsFit.mono h onFalse _ hfits.2.2⟩
  | .while _ body, _ => by
      unfold StatementFits
      exact fun hfits => ⟨h _ _ hfits.1, StatementsFit.mono h body _ hfits.2⟩

theorem StatementsFit.mono (h : ∀ vars e, C.fits vars e → D.fits vars e) :
    ∀ (ss : List Stmt) (vars : List String), C.StatementsFit vars ss → D.StatementsFit vars ss
  | [], _ => by
      unfold StatementsFit
      exact id
  | s :: ss, _ => by
      unfold StatementsFit
      exact fun hfits => ⟨StatementFits.mono h s _ hfits.1, StatementsFit.mono h ss _ hfits.2⟩

end

theorem FunctionFits.mono (h : ∀ vars e, C.fits vars e → D.fits vars e) {d : Definition}
    (hd : C.FunctionFits d) : D.FunctionFits d := by
  refine ⟨hd.1, ?_⟩
  have hbody := hd.2
  cases hcase : d.body with
  | block ss =>
      rw [hcase] at hbody
      exact StatementsFit.mono h ss _ hbody
  | expression value =>
      rw [hcase] at hbody
      exact h _ _ hbody

end Pieces

namespace RegisterCode

variable {file : File} {vars : List String}

mutual

theorem exprFits_stack : ∀ (e : Expr) (t : Nat),
    ExprFits file vars e t → StackCode.ExprFits vars e
  | .number _, t => by
      unfold StackCode.ExprFits
      exact fun _ => trivial
  | .boolean _, t => by
      unfold StackCode.ExprFits
      exact fun _ => trivial
  | .identifier _, t => by
      unfold ExprFits StackCode.ExprFits
      exact And.right
  | .paren inner, t => by
      unfold ExprFits StackCode.ExprFits
      exact fun h => exprFits_stack inner t h.2
  | .unary _ operand, t => by
      unfold ExprFits StackCode.ExprFits
      exact fun h => exprFits_stack operand t h.2
  | .binary _ left right, t => by
      unfold ExprFits StackCode.ExprFits
      exact fun h => ⟨exprFits_stack right (t + 1) h.2.2, exprFits_stack left t h.2.1⟩
  | .call _ args, t => by
      unfold ExprFits StackCode.ExprFits
      exact fun h => ⟨h.2.1, exprsFit_stack args t h.2.2.2.2⟩

theorem exprsFit_stack : ∀ (es : List Expr) (t : Nat),
    ExprsFit file vars es t → StackCode.ExprsFit vars es
  | [], t => by
      unfold StackCode.ExprsFit
      exact fun _ => trivial
  | e :: es, t => by
      unfold ExprsFit StackCode.ExprsFit
      exact fun h => ⟨exprFits_stack e t h.1, exprsFit_stack es (t + 1) h.2⟩

end

/-- What fits on the register machine fits on the stack machine. -/
theorem functionFits_stack {d : Definition} (h : (pieces file).FunctionFits d) :
    StackCode.pieces.FunctionFits d :=
  h.mono fun _ e => exprFits_stack e 0

end RegisterCode

/-! ## Errors -/

/-- Whether an error is about a lack of registers or of frame slots. -/
def CompileError.ofRoom : CompileError → Bool
  | .registerPressure .. | .frameOverflow .. => true
  | _ => false

/-- Whether an error is about a variable. -/
def CompileError.ofVariable : CompileError → Bool
  | .duplicateVariable .. | .undeclaredVariable .. => true
  | _ => false

namespace Gen

/-- Started with the variables `vars`, a generator fails for lack of room, or because of a
variable where not all `fits`. -/
def Reports {α : Type} (scope : Scope) (vars : List String) (g : Gen α) (fits : Prop) : Prop :=
  ∀ d : Draft, d.scope = scope → d.vars = vars → ∀ e d', g d = .error e d' →
    e.ofRoom = true ∨ e.ofVariable = true ∧ ¬fits

namespace Reports

variable {ι : Type} [InstructionSet ι] {α β : Type} {scope : Scope}
  {vars mid vars' : List String} {g : Gen α} {f : α → Gen β} {fits fits' held : Prop}
  {result : α} {a : List (Line ι)}

theorem mono (h : Reports scope vars g fits) (hfits : fits' → fits) :
    Reports scope vars g fits' := by
  intro d hscope hvars e d' herror
  exact (h d hscope hvars e d' herror).imp_right fun hvariable =>
    ⟨hvariable.1, fun hfits' => hvariable.2 (hfits hfits')⟩

/-- What fits does not fail. -/
theorem of_fits (h : Emits scope vars g held result a vars') (hheld : held) :
    Reports scope vars g True := by
  intro d hscope hvars e d' herror
  rw [(h d hscope hvars result _).mpr ⟨hheld, rfl, rfl⟩] at herror
  cases herror

protected theorem bind (hg : Emits scope vars g held result a mid)
    (rg : Reports scope vars g fits) (rf : Reports scope mid (f result) fits') :
    Reports scope vars (g >>= f) (fits ∧ fits') := by
  intro d hscope hvars e d' herror
  rcases bind_error_cases herror with hfirst | ⟨r, d₁, hfirst, hrest⟩
  · exact (rg d hscope hvars e d' hfirst).imp_right fun h => ⟨h.1, fun hboth => h.2 hboth.1⟩
  · obtain ⟨-, rfl, rfl⟩ := (hg d hscope hvars r d₁).mp hfirst
    exact (rf (d.extend a mid) hscope rfl e d' hrest).imp_right
      fun h => ⟨h.1, fun hboth => h.2 hboth.2⟩

theorem get_bind {k : Draft → Gen α} (h : ∀ d, Reports scope vars (k d) fits) :
    Reports scope vars (get >>= k) fits := by
  intro d hscope hvars e d' herror
  exact h d d hscope hvars e d' herror

theorem measure {g : Gen Unit} (rg : Reports scope vars g fits) :
    Reports scope vars (Gen.measure g) fits := by
  intro d hscope hvars e d' herror
  rw [Gen.measure] at herror
  cases hrun : g d with
  | ok u d₁ => rw [hrun] at herror; cases herror
  | error e₁ d₁ =>
      rw [hrun] at herror
      obtain ⟨rfl, -⟩ := EStateM.Result.error.inj herror
      exact rg d hscope hvars e₁ d₁ hrun

theorem inBlock (rg : Reports scope vars g fits) : Reports scope vars (Gen.inBlock g) fits := by
  intro d hscope hvars e d' herror
  rw [Gen.inBlock] at herror
  cases hrun : g d with
  | ok r d₁ => rw [hrun] at herror; cases herror
  | error e₁ d₁ =>
      rw [hrun] at herror
      obtain ⟨rfl, -⟩ := EStateM.Result.error.inj herror
      exact rg d hscope hvars e₁ d₁ hrun

/-- A test for room comes first. -/
theorem refuse {c : Prop} [Decidable c] {slots : Nat} {k : Unit → Gen α}
    (rg : Reports scope vars g fits) :
    Reports scope vars (if c then Gen.overflow slots >>= k else g) fits := by
  intro d hscope hvars e d' herror
  by_cases hc : c
  · rw [if_pos hc] at herror
    rw [← (EStateM.Result.error.inj herror).1]
    exact .inl rfl
  · rw [if_neg hc] at herror
    exact rg d hscope hvars e d' herror

theorem slot (name : String) : Reports scope vars (Gen.slot name) (name ∈ vars) := by
  rintro d - rfl e d' herror
  rw [Gen.slot, Gen.get_bind] at herror
  cases hidx : d.vars.idxOf? name with
  | some k =>
      rw [hidx] at herror
      cases herror
  | none =>
      rw [hidx] at herror
      rw [← (EStateM.Result.error.inj herror).1]
      exact .inr ⟨rfl, List.idxOf?_eq_none_iff.mp hidx⟩

theorem declare (name : String) :
    Reports scope vars (Gen.declare name) (name ∉ vars ∧ vars.length < frameSize) := by
  rintro d - rfl e d' herror
  rw [Gen.declare, Gen.get_bind] at herror
  by_cases hmem : name ∈ d.vars
  · simp only [if_pos hmem] at herror
    rw [← (EStateM.Result.error.inj herror).1]
    exact .inr ⟨rfl, fun h => h.1 hmem⟩
  · simp only [if_neg hmem] at herror
    by_cases hfull : frameSize ≤ d.vars.length
    · simp only [if_pos hfull] at herror
      rw [← (EStateM.Result.error.inj herror).1]
      exact .inl rfl
    · simp only [if_neg hfull] at herror
      cases herror

theorem declareAll (names : List String) (vars : List String) :
    Reports scope vars (names.forM fun name => do let _ ← Gen.declare name)
      (Declarable vars names) := by
  induction names generalizing vars with
  | nil => exact .of_fits (Emits.pure (ι := Register.Instr) ()) trivial
  | cons name names ih =>
      have hdeclare : Emits scope vars (Gen.declare name) _ _ ([] : List (Line Register.Instr)) _ :=
        .declare name
      refine .mono (.bind (.bind hdeclare (.pure ()))
        (.bind hdeclare (declare name) (.of_fits (Emits.pure (ι := Register.Instr) ()) trivial))
        (ih _)) ?_
      simp [Declarable]

end Reports

end Gen

open Gen (Reports)

namespace RegisterCode

open Register (Instr)

variable {file : File} {scope : Scope} {vars : List String}

theorem reserve_reports (t : Nat) : Reports scope vars (reserve file t) True := by
  intro d _ _ e d' herror
  rw [reserve] at herror
  by_cases ht : t < file.temporaries
  · rw [if_pos ht] at herror
    cases herror
  · rw [if_neg ht] at herror
    rw [← (EStateM.Result.error.inj herror).1]
    exact .inl rfl

theorem beginCall_reports (count t : Nat) : Reports scope vars (beginCall file count t) True := by
  have hspill : ∀ base : Nat, Reports scope vars
      (if frameSize < base + t then do
          Gen.overflow (base + t)
          (List.range t).forM fun live => storeSlot file (UInt8.ofNat live) (base + live)
          pure base
        else do
          (List.range t).forM fun live => storeSlot file (UInt8.ofNat live) (base + live)
          pure base) True := by
    intro base
    have hsave : Emits scope vars
        ((List.range t).forM fun live => storeSlot file (UInt8.ofNat live) (base + live))
        True () (Line.ofCode (saveCode file 0 base t)) vars := by
      simpa only [Nat.zero_add] using save_emits 0 base t
    exact .refuse (.of_fits (.bind hsave (.pure base)) ⟨trivial, trivial⟩)
  rw [beginCall]
  refine .refuse ?_
  by_cases hcount : count ≠ 0
  · rw [if_pos hcount]
    exact .mono (.bind (reserve_emits _) (reserve_reports _)
      (.get_bind fun d => hspill d.vars.length)) and_self_iff.mpr
  · rw [if_neg hcount]
    exact .get_bind fun d => hspill d.vars.length

mutual

theorem expr_reports : ∀ (e : Expr) (t : Nat),
    Reports scope vars (expr file e t) (StackCode.ExprFits vars e)
  | .number n, t => by
      rw [expr, StackCode.ExprFits]
      exact .mono (.bind (reserve_emits t) (reserve_reports t)
        (.of_fits (emit_emits _) trivial)) and_self_iff.mpr
  | .boolean b, t => by
      rw [expr, StackCode.ExprFits]
      exact .mono (.bind (reserve_emits t) (reserve_reports t)
        (.of_fits (emit_emits _) trivial)) and_self_iff.mpr
  | .identifier x, t => by
      rw [expr, StackCode.ExprFits]
      have hslot : Emits scope vars (Gen.slot x) _ _ ([] : List (Line Instr)) vars := .slot x
      refine .mono (.bind (reserve_emits t) (reserve_reports t) <|
        .bind hslot (.slot x) (.of_fits (loadSlot_emits _ _) trivial)) ?_
      simp
  | .paren inner, t => by
      rw [expr, StackCode.ExprFits]
      refine .mono (.bind (reserve_emits t) (reserve_reports t) (expr_reports inner t)) ?_
      simp
  | .unary op operand, t => by
      rw [expr, StackCode.ExprFits]
      refine .mono (.bind (reserve_emits t) (reserve_reports t) <|
        .bind (expr_emits operand t) (expr_reports operand t)
          (.of_fits (unary_emits op _) trivial)) ?_
      simp
  | .binary op left right, t => by
      rw [expr, StackCode.ExprFits]
      refine .mono (.bind (reserve_emits t) (reserve_reports t) <|
        .bind (reserve_emits (t + 1)) (reserve_reports (t + 1)) <|
        .bind (expr_emits left t) (expr_reports left t) <|
        .bind (expr_emits right (t + 1)) (expr_reports right (t + 1))
          (.of_fits (binary_emits op _ _) trivial)) ?_
      exact fun h => ⟨trivial, trivial, h.2, h.1, trivial⟩
  | .call f args, t => by
      rw [expr, StackCode.ExprFits]
      refine .mono (.bind (reserve_emits t) (reserve_reports t) <|
        .bind (beginCall_emits args.length t) (beginCall_reports args.length t) <|
        .bind (exprs_emits args t) (exprs_reports args t)
          (.of_fits (endCall_emits f args.length t _) trivial)) ?_
      simp

theorem exprs_reports : ∀ (es : List Expr) (t : Nat),
    Reports scope vars (exprs file es t) (StackCode.ExprsFit vars es)
  | [], t => by
      rw [exprs, StackCode.ExprsFit]
      exact .of_fits (Emits.pure (ι := Instr) ()) trivial
  | e :: es, t => by
      rw [exprs, StackCode.ExprsFit]
      exact .bind (expr_emits e t) (expr_reports e t) (exprs_reports es (t + 1))

end

end RegisterCode

namespace StackCode

open Stack (Instr)

variable {scope : Scope} {vars : List String}

mutual

theorem expr_reports : ∀ e : Expr, Reports scope vars (expr e) (ExprFits vars e)
  | .number n => by
      rw [expr, ExprFits]
      exact .of_fits (emit_emits _) trivial
  | .boolean b => by
      rw [expr, ExprFits]
      exact .of_fits (emit_emits _) trivial
  | .identifier x => by
      rw [expr, ExprFits]
      have hslot : Emits scope vars (Gen.slot x) _ _ ([] : List (Line Instr)) vars := .slot x
      refine .mono (.bind hslot (.slot x) (.of_fits (loadSlot_emits _) trivial)) ?_
      simp
  | .paren inner => by
      rw [expr, ExprFits]
      exact expr_reports inner
  | .unary op operand => by
      rw [expr, ExprFits]
      refine .mono (.bind (expr_emits operand) (expr_reports operand)
        (.of_fits (unary_emits op) trivial)) ?_
      simp
  | .binary op left right => by
      rw [expr, ExprFits]
      refine .mono (.bind (expr_emits right) (expr_reports right) <|
        .bind (expr_emits left) (expr_reports left) (.of_fits (binary_emits op) trivial)) ?_
      simp
  | .call f args => by
      rw [expr, ExprFits]
      refine .refuse (.mono (.bind (exprs_emits args) (exprs_reports args)
        (.of_fits (endCall_emits f args.length) trivial)) ?_)
      simp

theorem exprs_reports : ∀ es : List Expr, Reports scope vars (exprs es) (ExprsFit vars es)
  | [] => by
      rw [exprs, ExprsFit]
      exact .of_fits (Emits.pure (ι := Instr) ()) trivial
  | e :: es => by
      rw [exprs, ExprsFit]
      exact .bind (expr_emits e) (expr_reports e) (exprs_reports es)

end

end StackCode

namespace Generator

variable {ι κ : Type} [InstructionSet ι] {C : Pieces ι} {D : Pieces κ} (G : Generator C)
  {scope : Scope}

theorem conditional_reports {vars : List String} {cond : Expr} {onTrue onFalse : Gen Unit}
    {fits fits' known held held' : Prop} {a b : List (Line ι)}
    (hcond : Reports scope vars (G.expr cond) known)
    (htrue : Emits scope vars onTrue held () a vars)
    (hfalse : Emits scope vars onFalse held' () b vars) (rtrue : Reports scope vars onTrue fits)
    (rfalse : Reports scope vars onFalse fits') :
    Reports scope vars (G.conditional cond onTrue onFalse) (known ∧ fits ∧ fits') := by
  rw [G.conditional_eq]
  refine .mono (.bind (G.expr_emits _ _ _) hcond <| .bind hfalse.measure rfalse.measure <|
    .bind htrue.measure rtrue.measure <|
    .bind (G.cjump_emits _ _ _) (.of_fits (G.cjump_emits _ _ _) trivial) <|
    .bind hfalse rfalse <|
    .bind (G.jump_emits _ _ _) (.of_fits (G.jump_emits _ _ _) trivial) rtrue) ?_
  exact fun h => ⟨h.1, h.2.2, h.2.1, trivial, h.2.2, trivial, h.2.1⟩

theorem loop_reports {vars : List String} {cond : Expr} {body : Gen Unit}
    {fits known held : Prop} {a : List (Line ι)}
    (hcond : Reports scope vars (G.expr cond) known)
    (hbody : Emits scope vars body held () a vars) (rbody : Reports scope vars body fits) :
    Reports scope vars (G.loop cond body) (known ∧ fits) := by
  rw [G.loop_eq]
  refine .get_bind fun start => ?_
  refine .mono (.bind (G.expr_emits _ _ _) hcond <|
    .bind (G.invert_emits _ _) (.of_fits (G.invert_emits _ _) trivial) <|
    .bind hbody.measure rbody.measure <|
    .bind (G.cjump_emits _ _ _) (.of_fits (G.cjump_emits _ _ _) trivial) <|
    .bind hbody rbody <| .get_bind fun stop => .of_fits (G.jump_emits _ _ _) trivial) ?_
  exact fun h => ⟨h.1, trivial, h.2, trivial, h.2, trivial⟩

mutual

theorem statement_reports
    (hexpr : ∀ scope vars e, Reports scope vars (G.expr e) (D.fits vars e)) :
    ∀ (s : Stmt) (vars : List String),
      Reports scope vars (G.statement s) (D.StatementFits vars s)
  | .var x value, vars => by
      have hdeclare : Emits scope vars (Gen.declare x) _ _ ([] : List (Line ι)) _ := .declare x
      rw [G.var_eq, Pieces.StatementFits]
      refine .mono (.bind (G.expr_emits _ _ _) (hexpr _ _ _) <|
        .bind hdeclare (.declare x) (.of_fits (G.store_emits _ _ _) trivial)) ?_
      exact fun h => ⟨h.1, h.2, trivial⟩
  | .assign x value, vars => by
      have hslot : Emits scope vars (Gen.slot x) _ _ ([] : List (Line ι)) vars := .slot x
      rw [G.assign_eq, Pieces.StatementFits]
      refine .mono (.bind (G.expr_emits _ _ _) (hexpr _ _ _) <|
        .bind hslot (.slot x) (.of_fits (G.store_emits _ _ _) trivial)) ?_
      exact fun h => ⟨h.1, h.2, trivial⟩
  | .return value, vars => by
      rw [G.return_eq, Pieces.StatementFits]
      refine .mono (.bind (G.expr_emits _ _ _) (hexpr _ _ _)
        (.of_fits (G.ret_emits _ _) trivial)) ?_
      exact fun h => ⟨h, trivial⟩
  | .if cond onTrue none, vars => by
      have hpure : Emits scope vars (pure ()) True () ([] : List (Line ι)) vars := .pure ()
      rw [G.if_eq, Pieces.StatementFits]
      refine .mono (G.conditional_reports (hexpr _ _ _) (G.statements_emits onTrue vars).inBlock
        hpure (statements_reports hexpr onTrue vars).inBlock (.of_fits hpure trivial)) ?_
      exact fun h => ⟨h.1, h.2, trivial⟩
  | .if cond onTrue (some onFalse), vars => by
      rw [G.else_eq, Pieces.StatementFits]
      exact G.conditional_reports (hexpr _ _ _) (G.statements_emits onTrue vars).inBlock
        (G.statements_emits onFalse vars).inBlock
        (statements_reports hexpr onTrue vars).inBlock
        (statements_reports hexpr onFalse vars).inBlock
  | .while cond body, vars => by
      rw [G.while_eq, Pieces.StatementFits]
      exact G.loop_reports (hexpr _ _ _) (G.statements_emits body vars).inBlock
        (statements_reports hexpr body vars).inBlock

theorem statements_reports
    (hexpr : ∀ scope vars e, Reports scope vars (G.expr e) (D.fits vars e)) :
    ∀ (ss : List Stmt) (vars : List String),
      Reports scope vars (G.statements ss) (D.StatementsFit vars ss)
  | [], vars => by
      have hpure : Emits scope vars (pure ()) True () ([] : List (Line ι)) vars := .pure ()
      rw [G.nil_eq, Pieces.StatementsFit]
      exact .of_fits hpure trivial
  | s :: ss, vars => by
      rw [G.cons_eq, Pieces.StatementsFit]
      exact .bind (G.statement_emits s vars) (statement_reports hexpr s vars)
        (statements_reports hexpr ss (s.declared vars))

end

theorem body_reports (hexpr : ∀ scope vars e, Reports scope vars (G.expr e) (D.fits vars e))
    (vars : List String) (body : Body) :
    Reports scope vars (G.body body) (D.BodyFits vars body) := by
  cases body with
  | block ss =>
      rw [G.block_eq, Pieces.BodyFits]
      refine .mono (.bind (G.statements_emits ss vars).inBlock
        (G.statements_reports hexpr ss vars).inBlock <|
        .bind (G.zero_emits _ _) (.of_fits (G.zero_emits _ _) trivial)
          (.of_fits (G.ret_emits _ _) trivial)) ?_
      exact fun h => ⟨h, trivial, trivial⟩
  | expression value =>
      rw [G.expression_eq, Pieces.BodyFits]
      refine .mono (.bind (G.expr_emits _ _ _) (hexpr _ _ _)
        (.of_fits (G.ret_emits _ _) trivial)) ?_
      exact fun h => ⟨h, trivial⟩

/-- A function is refused for lack of room, or because of a variable where it does not fit. -/
theorem compileFunction_error {backend : Backend} (hbody : backend.compileBody = G.body)
    (hexpr : ∀ scope vars e, Reports scope vars (G.expr e) (D.fits vars e)) {d : Definition}
    {e : CompileError} (h : backend.compileFunction scope d = .error e) :
    e.ofRoom = true ∨ e.ofVariable = true ∧ ¬D.FunctionFits d := by
  have hdeclare : Emits scope [] (d.args.forM fun arg => do let _ ← Gen.declare arg)
      (Declarable [] d.args) () ([] : List (Line ι)) d.args := .declareAll d.args []
  have hreports : Reports scope []
      (do
        d.args.forM fun arg => do let _ ← Gen.declare arg
        G.body d.body) (D.FunctionFits d) :=
    .bind hdeclare (.declareAll d.args []) (G.body_reports hexpr d.args d.body)
  rw [Backend.compileFunction, hbody] at h
  cases hcompile : (do
      d.args.forM fun arg => do let _ ← Gen.declare arg
      G.body d.body : Gen Unit) { function := scope.define d.name, scope } with
  | ok u draft =>
      rw [hcompile] at h
      cases h
  | error e₁ draft =>
      rw [hcompile] at h
      obtain rfl := Except.error.inj h
      exact hreports { function := scope.define d.name, scope } rfl rfl e₁ draft hcompile

end Generator

/-- A function that fits on the stack machine is refused for lack of room only. -/
theorem RegisterCode.compileFunction_error {file : File} {scope : Scope} {d : Definition}
    (hfits : StackCode.pieces.FunctionFits d) {e : CompileError}
    (h : (backend file).compileFunction scope d = .error e) : e.ofRoom = true := by
  rcases (generator file).compileFunction_error (D := StackCode.pieces) rfl
    (fun _ _ e => expr_reports e 0) h with hroom | ⟨-, hnot⟩
  · exact hroom
  · exact absurd hfits hnot

end DualMachine
