import DualMachine.Proofs.Emission

/-!
# The code of statements and functions

Both code generators lower statements in the same way and differ in the pieces
they do it with: how an expression is evaluated, how a value gets into a slot, how a
branch is written. `Pieces` are such pieces, and `Pieces.statement`,
`Pieces.body` the code that is put together from them, as lists of lines.
`StatementFits`, `BodyFits` say when a generator accepts its input.

A `Generator` is a code generator that follows the common scheme with given pieces.
Its code is that of the pieces, and it accepts exactly what fits
(`Generator.statement_emits`, `Generator.compileFunction_ok`).
-/

namespace DualMachine

open Source

/-- The variables in scope after a statement. -/
def Source.Stmt.declared (vars : List String) : Stmt → List String
  | .var x _ => vars ++ [x]
  | _ => vars

/-! ## Code from pieces -/

/-- What the code of a function is put together from. -/
structure Pieces (ι : Type) where
  /-- Evaluates an expression. -/
  expr : Scope → (vars : List String) → Expr → List (Line ι)
  /-- Whether an expression can be evaluated with these variables in scope. -/
  fits : (vars : List String) → Expr → Prop
  /-- Puts a value into a slot. -/
  store : Nat → List ι
  /-- Returns a value. -/
  ret : List ι
  /-- Gives the value 0. -/
  zero : List ι
  /-- Makes a value 1 if it is zero, and 0 otherwise. -/
  invert : List ι
  /-- Jumps by an offset. -/
  jump : Word → List ι
  /-- Jumps by an offset if a value is not zero. -/
  cjump : Word → List ι
  /-- Length of a jump in bytes. -/
  jumpLength : Nat

namespace Pieces

variable {ι : Type} [InstructionSet ι] (C : Pieces ι) (scope : Scope)

/-- A branch on a condition, the code for zero first. -/
def conditional (cond onTrue onFalse : List (Line ι)) : List (Line ι) :=
  cond ++ Line.ofCode (C.cjump (Int32.ofNat (Line.length onFalse + C.jumpLength))) ++ onFalse
    ++ Line.ofCode (C.jump (Int32.ofNat (Line.length onTrue))) ++ onTrue

/-- One round of a loop, without the jump back. -/
def round (cond body : List (Line ι)) : List (Line ι) :=
  cond ++ Line.ofCode C.invert
    ++ Line.ofCode (C.cjump (Int32.ofNat (Line.length body + C.jumpLength))) ++ body

/-- A loop. -/
def loop (cond body : List (Line ι)) : List (Line ι) :=
  C.round cond body
    ++ Line.ofCode (C.jump (Int32.ofInt (-(Line.length (C.round cond body) + C.jumpLength : Nat))))

mutual

/-- The code of a statement. -/
def statement (vars : List String) : Stmt → List (Line ι)
  | .var _ value => C.expr scope vars value ++ Line.ofCode (C.store vars.length)
  | .assign x value => C.expr scope vars value ++ Line.ofCode (C.store (vars.idxOf x))
  | .return value => C.expr scope vars value ++ Line.ofCode C.ret
  | .if cond onTrue none => C.conditional (C.expr scope vars cond) (statements vars onTrue) []
  | .if cond onTrue (some onFalse) =>
    C.conditional (C.expr scope vars cond) (statements vars onTrue) (statements vars onFalse)
  | .while cond body => C.loop (C.expr scope vars cond) (statements vars body)

/-- The code of statements that follow each other. -/
def statements (vars : List String) : List Stmt → List (Line ι)
  | [] => []
  | s :: ss => statement vars s ++ statements (s.declared vars) ss

end

mutual

/-- Whether a statement is accepted with these variables in scope. -/
def StatementFits (vars : List String) : Stmt → Prop
  | .var x value => C.fits vars value ∧ x ∉ vars ∧ vars.length < frameSize
  | .assign x value => C.fits vars value ∧ x ∈ vars
  | .return value => C.fits vars value
  | .if cond onTrue none => C.fits vars cond ∧ StatementsFit vars onTrue
  | .if cond onTrue (some onFalse) =>
    C.fits vars cond ∧ StatementsFit vars onTrue ∧ StatementsFit vars onFalse
  | .while cond body => C.fits vars cond ∧ StatementsFit vars body

/-- Whether statements that follow each other are accepted. -/
def StatementsFit (vars : List String) : List Stmt → Prop
  | [] => True
  | s :: ss => StatementFits vars s ∧ StatementsFit (s.declared vars) ss

end

/-- The code of a body. -/
def body (vars : List String) : Body → List (Line ι)
  | .block ss => C.statements scope vars ss ++ Line.ofCode C.zero ++ Line.ofCode C.ret
  | .expression value => C.expr scope vars value ++ Line.ofCode C.ret

/-- Whether a body is accepted. -/
def BodyFits (vars : List String) : Body → Prop
  | .block ss => C.StatementsFit vars ss
  | .expression value => C.fits vars value

/-- Whether a function is accepted. -/
def FunctionFits (d : Definition) : Prop := Declarable [] d.args ∧ C.BodyFits d.args d.body

end Pieces

/-! ## Generators -/

open Gen (Emits)

/-- A code generator that puts its code together from pieces. -/
structure Generator {ι : Type} [InstructionSet ι] (C : Pieces ι) where
  expr : Expr → Gen Unit
  store : Nat → Gen Unit
  ret : Gen Unit
  zero : Gen Unit
  invert : Gen Unit
  jump : Word → Gen Unit
  cjump : Word → Gen Unit
  statement : Stmt → Gen Unit
  statements : List Stmt → Gen Unit
  body : Body → Gen Unit
  expr_emits : ∀ scope vars e,
    Emits scope vars (expr e) (C.fits vars e) () (C.expr scope vars e) vars
  store_emits : ∀ scope vars slot,
    Emits scope vars (store slot) True () (Line.ofCode (C.store slot)) vars
  ret_emits : ∀ scope vars, Emits scope vars ret True () (Line.ofCode C.ret) vars
  zero_emits : ∀ scope vars, Emits scope vars zero True () (Line.ofCode C.zero) vars
  invert_emits : ∀ scope vars, Emits scope vars invert True () (Line.ofCode C.invert) vars
  jump_emits : ∀ scope vars offset,
    Emits scope vars (jump offset) True () (Line.ofCode (C.jump offset)) vars
  cjump_emits : ∀ scope vars offset,
    Emits scope vars (cjump offset) True () (Line.ofCode (C.cjump offset)) vars
  var_eq : ∀ x value, statement (.var x value) = do
    expr value
    store (← Gen.declare x)
  assign_eq : ∀ x value, statement (.assign x value) = do
    expr value
    store (← Gen.slot x)
  return_eq : ∀ value, statement (.return value) = do
    expr value
    ret
  conditional : Expr → (onTrue onFalse : Gen Unit) → Gen Unit
  conditional_eq : ∀ cond onTrue onFalse, conditional cond onTrue onFalse = do
    expr cond
    let falseSize ← Gen.measure onFalse
    let trueSize ← Gen.measure onTrue
    cjump (Int32.ofNat (falseSize + C.jumpLength))
    onFalse
    jump (Int32.ofNat trueSize)
    onTrue
  loop : Expr → (body : Gen Unit) → Gen Unit
  loop_eq : ∀ cond body, loop cond body = do
    let start := (← get).size
    expr cond
    invert
    let bodySize ← Gen.measure body
    cjump (Int32.ofNat (bodySize + C.jumpLength))
    body
    let stop := (← get).size + C.jumpLength
    jump (Int32.ofInt ((start : Int) - stop))
  if_eq : ∀ cond onTrue, statement (.if cond onTrue none)
    = conditional cond (Gen.inBlock (statements onTrue)) (pure ())
  else_eq : ∀ cond onTrue onFalse, statement (.if cond onTrue (some onFalse))
    = conditional cond (Gen.inBlock (statements onTrue)) (Gen.inBlock (statements onFalse))
  while_eq : ∀ cond body, statement (.while cond body)
    = loop cond (Gen.inBlock (statements body))
  nil_eq : statements [] = pure ()
  cons_eq : ∀ s ss, statements (s :: ss) = do
    statement s
    statements ss
  block_eq : ∀ ss, body (.block ss) = do
    Gen.inBlock (statements ss)
    zero
    ret
  expression_eq : ∀ value, body (.expression value) = do
    expr value
    ret

namespace Generator

variable {ι : Type} [InstructionSet ι] {C : Pieces ι} (G : Generator C) {scope : Scope}

theorem conditional_emits {vars : List String} {cond : Expr} {onTrue onFalse : Gen Unit}
    {fits fits' : Prop} {a b : List (Line ι)} (htrue : Emits scope vars onTrue fits () a vars)
    (hfalse : Emits scope vars onFalse fits' () b vars) :
    Emits scope vars (G.conditional cond onTrue onFalse) (C.fits vars cond ∧ fits ∧ fits') ()
      (C.conditional (C.expr scope vars cond) a b) vars := by
  rw [G.conditional_eq]
  refine Emits.congr (.bind (G.expr_emits _ _ _) <| .bind (.measure hfalse) <|
    .bind (.measure htrue) <| .bind (G.cjump_emits _ _ _) <| .bind hfalse <|
    .bind (G.jump_emits _ _ _) htrue) ?_ ?_
  · grind
  · simp [Pieces.conditional]

theorem loop_emits {vars : List String} {cond : Expr} {body : Gen Unit} {fits : Prop}
    {a : List (Line ι)} (hbody : Emits scope vars body fits () a vars) :
    Emits scope vars (G.loop cond body) (C.fits vars cond ∧ fits) ()
      (C.loop (C.expr scope vars cond) a) vars := by
  -- one round is what stands between the two looks at the size
  have hround : Emits scope vars
      (do
        G.expr cond
        G.invert
        let bodySize ← Gen.measure body
        G.cjump (Int32.ofNat (bodySize + C.jumpLength))
        body)
      (C.fits vars cond ∧ fits) () (C.round (C.expr scope vars cond) a) vars := by
    refine Emits.congr (.bind (G.expr_emits _ _ _) <| .bind (G.invert_emits _ _) <|
      .bind (.measure hbody) <| .bind (G.cjump_emits _ _ _) hbody) ?_ ?_
    · simp
    · simp [Pieces.round]
  have hloop := Emits.between C.jumpLength (k := fun offset => G.jump (Int32.ofInt offset))
    hround (G.jump_emits _ _ _)
  rw [G.loop_eq, Pieces.loop]
  simpa only [bind_assoc] using hloop

mutual

theorem statement_emits : ∀ (s : Stmt) (vars : List String),
    Emits scope vars (G.statement s) (C.StatementFits vars s) () (C.statement scope vars s)
      (s.declared vars)
  | .var x value, vars => by
      rw [G.var_eq]
      refine Emits.congr (.bind (G.expr_emits _ _ _) <| .bind (.declare x) (G.store_emits _ _ _))
        ?_ ?_
      · simp [Pieces.StatementFits]
      · simp [Pieces.statement]
  | .assign x value, vars => by
      rw [G.assign_eq]
      refine Emits.congr (.bind (G.expr_emits _ _ _) <| .bind (.slot x) (G.store_emits _ _ _))
        ?_ ?_
      · simp [Pieces.StatementFits]
      · simp [Pieces.statement]
  | .return value, vars => by
      rw [G.return_eq]
      refine Emits.congr (.bind (G.expr_emits _ _ _) (G.ret_emits _ _)) ?_ ?_
      · simp [Pieces.StatementFits]
      · simp [Pieces.statement]
  | .if cond onTrue none, vars => by
      rw [G.if_eq]
      refine Emits.congr (G.conditional_emits (statements_emits onTrue vars).inBlock (.pure ()))
        ?_ ?_
      · simp [Pieces.StatementFits]
      · simp [Pieces.statement]
  | .if cond onTrue (some onFalse), vars => by
      rw [G.else_eq]
      refine Emits.congr (G.conditional_emits (statements_emits onTrue vars).inBlock
        (statements_emits onFalse vars).inBlock) ?_ ?_
      · simp [Pieces.StatementFits]
      · simp [Pieces.statement]
  | .while cond body, vars => by
      rw [G.while_eq]
      refine Emits.congr (G.loop_emits (statements_emits body vars).inBlock) ?_ ?_
      · simp [Pieces.StatementFits]
      · simp [Pieces.statement]

theorem statements_emits : ∀ (ss : List Stmt) (vars : List String),
    Emits scope vars (G.statements ss) (C.StatementsFit vars ss) ()
      (C.statements scope vars ss) (ss.foldl Stmt.declared vars)
  | [], vars => by
      rw [G.nil_eq]
      exact .pure ()
  | s :: ss, vars => by
      rw [G.cons_eq]
      exact .bind (statement_emits s vars) (statements_emits ss (s.declared vars))

end

theorem body_emits (vars : List String) (body : Body) :
    Emits scope vars (G.body body) (C.BodyFits vars body) () (C.body scope vars body) vars := by
  cases body with
  | block ss =>
      rw [G.block_eq]
      refine Emits.congr (.bind (G.statements_emits ss vars).inBlock <|
        .bind (G.zero_emits _ _) (G.ret_emits _ _)) ?_ ?_
      · simp [Pieces.BodyFits]
      · simp [Pieces.body]
  | expression value =>
      rw [G.expression_eq]
      refine Emits.congr (.bind (G.expr_emits _ _ _) (G.ret_emits _ _)) ?_ ?_
      · simp [Pieces.BodyFits]
      · simp [Pieces.body]

/-- A function is accepted exactly when it fits, and its code is that of its body. -/
theorem compileFunction_ok {backend : Backend} (hbody : backend.compileBody = G.body)
    {d : Definition} {f : CompiledFunction} :
    backend.compileFunction scope d = .ok f ↔ C.FunctionFits d ∧
      f = ⟨scope.define d.name, d.args.length, (C.body scope d.args d.body).map Line.symbolic⟩ := by
  have hemits : Emits scope []
      (do
        d.args.forM fun arg => do let _ ← Gen.declare arg
        G.body d.body)
      (C.FunctionFits d) () (C.body scope d.args d.body) d.args :=
    .bind (.declareAll d.args []) (G.body_emits d.args d.body)
  have hrun := hemits { function := scope.define d.name, scope } rfl rfl
  rw [Backend.compileFunction, hbody]
  cases hcompile : (do
      d.args.forM fun arg => do let _ ← Gen.declare arg
      G.body d.body : Gen Unit) { function := scope.define d.name, scope } with
  | error e draft =>
      dsimp only
      refine ⟨fun h => (nomatch h), fun h => ?_⟩
      cases hcompile.symm.trans ((hrun () _).mpr ⟨h.1, rfl, rfl⟩)
  | ok u draft =>
      obtain ⟨hfits, -, rfl⟩ := (hrun u draft).mp hcompile
      simp only [Except.ok.injEq]
      constructor
      · rintro rfl
        exact ⟨hfits, by simp [Draft.extend]⟩
      · rintro ⟨-, rfl⟩
        simp [Draft.extend]

end Generator

end DualMachine
