import DualMachine.Proofs.Register.Emission
import DualMachine.Proofs.Stack.Emission

/-!
# Functions that can be compiled

Which functions are accepted can be said without their code. `Stmt.Stands` gives the statements of a
block and of the blocks inside it, each with the variables that are in scope there, and `Expr.Part`
the parts of an expression, each with the number of values that wait in temporaries while it is
evaluated. A function is `WellScoped` if names are declared once and before they are used, and if
variables and arguments fit in a frame. The stack machine asks for no more; the register machine has
to have as many temporaries as every expression needs (`Expr.need`), and a frame has to take the
values that wait at a call beside the variables (`compileFunction_accepts`).
-/

namespace DualMachine

namespace Source

/-! ## Parts of expressions -/

/-- `e.Part t part live`: while `e` is evaluated with `t` values waiting, `part` is evaluated with
`live` values waiting. -/
inductive Expr.Part : Expr → Nat → Expr → Nat → Prop where
  | self (e : Expr) (t : Nat) : Part e t e t
  | paren {inner part : Expr} {t live : Nat} (h : Part inner t part live) :
      Part (.paren inner) t part live
  | unary {op : UnaryOp} {operand part : Expr} {t live : Nat} (h : Part operand t part live) :
      Part (.unary op operand) t part live
  | left {op : BinaryOp} {left right part : Expr} {t live : Nat} (h : Part left t part live) :
      Part (.binary op left right) t part live
  | right {op : BinaryOp} {left right part : Expr} {t live : Nat}
      (h : Part right (t + 1) part live) : Part (.binary op left right) t part live
  | arg {f : String} {args : List Expr} {i : Nat} {a part : Expr} {t live : Nat}
      (ha : args[i]? = some a) (h : Part a (t + i) part live) : Part (.call f args) t part live

mutual

/-- How many temporaries the evaluation of an expression takes. -/
def Expr.need : Expr → Nat
  | .number _ | .boolean _ | .identifier _ => 1
  | .unary _ operand => operand.need
  | .paren inner => inner.need
  | .binary _ left right => max left.need (1 + right.need)
  | .call _ args => max 1 (Expr.needFrom 0 args)

/-- How many temporaries arguments take when `i` values wait before the first of them. -/
def Expr.needFrom (i : Nat) : List Expr → Nat
  | [] => 0
  | e :: es => max (i + e.need) (Expr.needFrom (i + 1) es)

end

section

variable {P : Expr → Nat → Prop} {t : Nat}

/-- All parts of an expression have a property. -/
def Expr.Parts (P : Expr → Nat → Prop) (e : Expr) (t : Nat) : Prop :=
  ∀ part live, e.Part t part live → P part live

/-- All parts of arguments have a property. -/
def Expr.ArgParts (P : Expr → Nat → Prop) (es : List Expr) (t : Nat) : Prop :=
  ∀ (i : Nat) (e : Expr), es[i]? = some e → e.Parts P (t + i)

namespace Expr

theorem parts_number {n : Word} : (number n).Parts P t ↔ P (.number n) t :=
  ⟨fun h => h _ _ (.self _ _), fun h part live hpart => by cases hpart; exact h⟩

theorem parts_boolean {b : Bool} : (boolean b).Parts P t ↔ P (.boolean b) t :=
  ⟨fun h => h _ _ (.self _ _), fun h part live hpart => by cases hpart; exact h⟩

theorem parts_identifier {x : String} : (identifier x).Parts P t ↔ P (.identifier x) t :=
  ⟨fun h => h _ _ (.self _ _), fun h part live hpart => by cases hpart; exact h⟩

theorem parts_paren {inner : Expr} :
    (paren inner).Parts P t ↔ P (.paren inner) t ∧ inner.Parts P t := by
  constructor
  · intro h
    exact ⟨h _ _ (.self _ _), fun part live hpart => h _ _ (.paren hpart)⟩
  · rintro ⟨hself, hinner⟩ part live hpart
    cases hpart with
    | self => exact hself
    | paren hpart => exact hinner _ _ hpart

theorem parts_unary {op : UnaryOp} {operand : Expr} :
    (unary op operand).Parts P t ↔ P (.unary op operand) t ∧ operand.Parts P t := by
  constructor
  · intro h
    exact ⟨h _ _ (.self _ _), fun part live hpart => h _ _ (.unary hpart)⟩
  · rintro ⟨hself, hoperand⟩ part live hpart
    cases hpart with
    | self => exact hself
    | unary hpart => exact hoperand _ _ hpart

theorem parts_binary {op : BinaryOp} {left right : Expr} :
    (binary op left right).Parts P t ↔
      P (.binary op left right) t ∧ left.Parts P t ∧ right.Parts P (t + 1) := by
  constructor
  · intro h
    exact ⟨h _ _ (.self _ _), fun part live hpart => h _ _ (.left hpart),
      fun part live hpart => h _ _ (.right hpart)⟩
  · rintro ⟨hself, hleft, hright⟩ part live hpart
    cases hpart with
    | self => exact hself
    | left hpart => exact hleft _ _ hpart
    | right hpart => exact hright _ _ hpart

theorem parts_call {f : String} {args : List Expr} :
    (call f args).Parts P t ↔ P (.call f args) t ∧ ArgParts P args t := by
  constructor
  · intro h
    exact ⟨h _ _ (.self _ _), fun i a ha part live hpart => h _ _ (.arg ha hpart)⟩
  · rintro ⟨hself, hargs⟩ part live hpart
    cases hpart with
    | self => exact hself
    | arg ha hpart => exact hargs _ _ ha _ _ hpart

theorem argParts_nil : ArgParts P [] t := by
  intro i e he
  cases he

theorem argParts_cons {e : Expr} {es : List Expr} :
    ArgParts P (e :: es) t ↔ e.Parts P t ∧ ArgParts P es (t + 1) := by
  constructor
  · intro h
    refine ⟨h 0 e rfl, fun i a ha => ?_⟩
    rw [Nat.add_right_comm]
    exact h (i + 1) a ha
  · rintro ⟨hfirst, hrest⟩ i a ha
    cases i with
    | zero =>
        obtain rfl := Option.some.inj ha
        exact hfirst
    | succ i =>
        have hparts := hrest i a ha
        rwa [Nat.add_right_comm] at hparts

theorem need_pos : ∀ e : Expr, 1 ≤ e.need
  | .number _ | .boolean _ | .identifier _ => Nat.le_refl 1
  | .unary _ operand => operand.need_pos
  | .paren inner => inner.need_pos
  | .binary _ left _ => left.need_pos.trans (Nat.le_max_left _ _)
  | .call _ _ => Nat.le_max_left _ _

theorem length_le_needFrom (es : List Expr) (i : Nat) :
    es = [] ∨ i + es.length ≤ needFrom i es := by
  induction es generalizing i with
  | nil => exact .inl rfl
  | cons e es ih =>
      have hpos := e.need_pos
      rw [needFrom, List.length_cons]
      rcases ih (i + 1) with rfl | hrest
      · exact .inr (by simp; omega)
      · exact .inr (by omega)

theorem needFrom_add (es : List Expr) (t i : Nat) :
    es = [] ∨ needFrom (t + i) es = t + needFrom i es := by
  induction es generalizing i with
  | nil => exact .inl rfl
  | cons e es ih =>
      have hpos := e.need_pos
      refine .inr ?_
      rw [needFrom, needFrom]
      rcases ih (i + 1) with rfl | hrest
      · simp only [needFrom]
        omega
      · rw [Nat.add_assoc t i 1, hrest]
        omega

/-- The temporaries of a call are those of its arguments, and one for its value. -/
theorem add_need_call_le_iff {f : String} {args : List Expr} {t n : Nat} :
    t + (call f args).need ≤ n ↔
      t < n ∧ (args.length ≠ 0 → t + args.length - 1 < n) ∧ needFrom t args ≤ n := by
  rw [need]
  -- without arguments there is nothing to wait for
  rcases needFrom_add args t 0 with rfl | hadd
  · simp [needFrom]
  rcases length_le_needFrom args t with rfl | hlength
  · simp [needFrom]
  · rw [Nat.add_zero] at hadd
    omega

end Expr

end

/-! ## Statements in scope -/

/-- The expression that a statement evaluates. -/
def Stmt.value : Stmt → Expr
  | .var _ value | .assign _ value | .return value => value
  | .if cond _ _ => cond
  | .while cond _ => cond

/-- The blocks in a statement. -/
def Stmt.blocks : Stmt → List (List Stmt)
  | .if _ onTrue onFalse => onTrue :: onFalse.toList
  | .while _ body => [body]
  | _ => []

/-- `Stmt.Stands vars ss inner s`: in the block `ss`, which sees `vars`, or in a block inside it,
stands the statement `s`, which sees `inner`. A declaration is seen by the statements that follow it
in its block, and by the blocks in these. -/
inductive Stmt.Stands : List String → List Stmt → List String → Stmt → Prop where
  | first (vars : List String) (s : Stmt) (ss : List Stmt) : Stands vars (s :: ss) vars s
  | next {vars inner : List String} {s other : Stmt} {ss : List Stmt}
      (h : Stands (other.declared vars) ss inner s) : Stands vars (other :: ss) inner s
  | inside {vars inner : List String} {s other : Stmt} {ss block : List Stmt}
      (hblock : block ∈ other.blocks) (h : Stands vars block inner s) :
      Stands vars (other :: ss) inner s

namespace Definition

/-- The statement is one of the function's, and sees the variables. -/
def Has (d : Definition) (vars : List String) (s : Stmt) : Prop :=
  ∃ ss, d.body = .block ss ∧ Stmt.Stands d.args ss vars s

/-- The function evaluates the expression, which sees the variables. -/
def Evaluates (d : Definition) (vars : List String) (e : Expr) : Prop :=
  (∃ s, d.Has vars s ∧ s.value = e) ∨ d.body = .expression e ∧ vars = d.args

/-- Names are declared once and before they are used, and variables and arguments fit in a frame. -/
structure WellScoped (d : Definition) : Prop where
  args_nodup : d.args.Nodup
  read : ∀ vars e, d.Evaluates vars e → ∀ x live, e.Part 0 (.identifier x) live → x ∈ vars
  assigned : ∀ vars x value, d.Has vars (.assign x value) → x ∈ vars
  fresh : ∀ vars x value, d.Has vars (.var x value) → x ∉ vars
  args_fit : d.args.length ≤ frameSize
  vars_fit : ∀ vars x value, d.Has vars (.var x value) → (vars ++ [x]).length ≤ frameSize
  calls_fit : ∀ vars e, d.Evaluates vars e →
    ∀ f args live, e.Part 0 (.call f args) live → args.length ≤ frameSize

end Definition

end Source

open Source

/-! ## Statements that fit -/

/-- The names that a statement declares or assigns allow it. -/
def Source.Stmt.Binds (vars : List String) : Stmt → Prop
  | .var x _ => x ∉ vars ∧ vars.length < frameSize
  | .assign x _ => x ∈ vars
  | _ => True

theorem Source.Stmt.forall_stands_cons {vars : List String} {s : Stmt} {ss : List Stmt}
    {P : List String → Stmt → Prop} :
    (∀ inner other, Stmt.Stands vars (s :: ss) inner other → P inner other) ↔
      (P vars s ∧ ∀ block ∈ s.blocks, ∀ inner other, Stmt.Stands vars block inner other →
        P inner other) ∧
      ∀ inner other, Stmt.Stands (s.declared vars) ss inner other → P inner other := by
  constructor
  · intro h
    exact ⟨⟨h _ _ (.first _ _ _), fun block hblock inner other hstands =>
      h _ _ (.inside hblock hstands)⟩, fun inner other hstands => h _ _ (.next hstands)⟩
  · rintro ⟨⟨hfirst, hblocks⟩, hnext⟩ inner other hstands
    cases hstands with
    | first => exact hfirst
    | next hstands => exact hnext _ _ hstands
    | inside hblock hstands => exact hblocks _ hblock _ _ hstands

namespace Pieces

variable {ι : Type} (C : Pieces ι)

/-- What a statement needs by itself: that its expression fits, and that its names allow it. -/
def Allows (vars : List String) (s : Stmt) : Prop := C.fits vars s.value ∧ s.Binds vars

mutual

theorem statementFits_iff : ∀ (s : Stmt) (vars : List String),
    C.StatementFits vars s ↔ C.Allows vars s ∧
      ∀ block ∈ s.blocks, ∀ inner other, Stmt.Stands vars block inner other →
        C.Allows inner other
  | .var x value, vars => by simp [StatementFits, Allows, Stmt.value, Stmt.Binds, Stmt.blocks]
  | .assign x value, vars => by simp [StatementFits, Allows, Stmt.value, Stmt.Binds, Stmt.blocks]
  | .return value, vars => by simp [StatementFits, Allows, Stmt.value, Stmt.Binds, Stmt.blocks]
  | .if cond onTrue none, vars => by
      simp [StatementFits, Allows, Stmt.value, Stmt.Binds, Stmt.blocks,
        statementsFit_iff onTrue vars]
  | .if cond onTrue (some onFalse), vars => by
      simp [StatementFits, Allows, Stmt.value, Stmt.Binds, Stmt.blocks,
        statementsFit_iff onTrue vars, statementsFit_iff onFalse vars]
  | .while cond body, vars => by
      simp [StatementFits, Allows, Stmt.value, Stmt.Binds, Stmt.blocks,
        statementsFit_iff body vars]

/-- Statements fit if all that stand in them are allowed where they stand. -/
theorem statementsFit_iff : ∀ (ss : List Stmt) (vars : List String),
    C.StatementsFit vars ss ↔
      ∀ inner s, Stmt.Stands vars ss inner s → C.Allows inner s
  | [], vars => by
      refine iff_of_true trivial ?_
      intro inner s hstands
      cases hstands
  | s :: ss, vars => by
      rw [StatementsFit, statementFits_iff s vars, statementsFit_iff ss (s.declared vars),
        Stmt.forall_stands_cons]

end

theorem declarable_iff {vars args : List String} (hvars : vars.Nodup)
    (hfit : vars.length ≤ frameSize) :
    Declarable vars args ↔ (vars ++ args).Nodup ∧ (vars ++ args).length ≤ frameSize := by
  induction args generalizing vars with
  | nil => simp [Declarable, hvars, hfit]
  | cons x args ih =>
      rw [Declarable, List.append_cons vars x args]
      constructor
      · rintro ⟨⟨hx, hlt⟩, hrest⟩
        refine (ih ?_ ?_).mp hrest
        · simpa [List.nodup_append] using ⟨hvars, fun a ha => ne_of_mem_of_not_mem ha hx⟩
        · simpa using hlt
      · rintro ⟨hnodup, hlength⟩
        have hfront : (vars ++ [x]).Nodup := hnodup.sublist (List.sublist_append_left _ _)
        have hlt : (vars ++ [x]).length ≤ frameSize :=
          (List.sublist_append_left _ args).length_le.trans hlength
        refine ⟨⟨fun hx => ?_, ?_⟩, (ih hfront hlt).mpr ⟨hnodup, hlength⟩⟩
        · exact (List.nodup_append.mp hfront).2.2 x hx x (List.mem_singleton.mpr rfl) rfl
        · simpa using hlt

/-- A function fits if its arguments do, if its names are declared and assigned as they may be, and
if its expressions fit. -/
theorem functionFits_iff {d : Definition} :
    C.FunctionFits d ↔ (d.args.Nodup ∧ d.args.length ≤ frameSize) ∧
      (∀ vars s, d.Has vars s → s.Binds vars) ∧ ∀ vars e, d.Evaluates vars e → C.fits vars e := by
  rw [FunctionFits, declarable_iff .nil (Nat.zero_le _), List.nil_append]
  refine and_congr_right fun _ => ?_
  constructor
  · intro hfits
    have hallows : ∀ vars s, d.Has vars s → C.Allows vars s := by
      rintro vars s ⟨ss, hbody, hstands⟩
      rw [hbody] at hfits
      exact (C.statementsFit_iff ss d.args).mp hfits vars s hstands
    refine ⟨fun vars s hs => (hallows vars s hs).2, ?_⟩
    rintro vars e (⟨s, hs, rfl⟩ | ⟨hbody, rfl⟩)
    · exact (hallows vars s hs).1
    · rwa [hbody] at hfits
  · rintro ⟨hbinds, hfits⟩
    cases hbody : d.body with
    | block ss =>
        refine (C.statementsFit_iff ss d.args).mpr fun vars s hstands => ?_
        have hs : d.Has vars s := ⟨ss, hbody, hstands⟩
        exact ⟨hfits vars s.value (.inl ⟨s, hs, rfl⟩), hbinds vars s hs⟩
    | expression value => exact hfits d.args value (.inr ⟨hbody, rfl⟩)

end Pieces

/-! ## Expressions that fit -/

/-- The part of an expression names what is in scope, or passes arguments that fit in a frame. -/
def Source.Expr.Admits (vars : List String) : Expr → Prop
  | .identifier x => x ∈ vars
  | .call _ args => args.length ≤ frameSize
  | _ => True

/-- A call at which so many values wait can keep them in the frame beside the variables. -/
def Source.Expr.Keeps (vars : List String) (live : Nat) : Expr → Prop
  | .call _ _ => vars.length + live ≤ frameSize
  | _ => True

section

open Expr

variable {vars : List String}

mutual

theorem StackCode.exprFits_iff : ∀ (e : Expr) (t : Nat),
    StackCode.ExprFits vars e ↔ e.Parts (fun part _ => part.Admits vars) t
  | .number n, t => by simp [StackCode.ExprFits, parts_number, Admits]
  | .boolean b, t => by simp [StackCode.ExprFits, parts_boolean, Admits]
  | .identifier x, t => by simp [StackCode.ExprFits, parts_identifier, Admits]
  | .paren inner, t => by
      simp [StackCode.ExprFits, parts_paren, Admits, StackCode.exprFits_iff inner t]
  | .unary op operand, t => by
      simp [StackCode.ExprFits, parts_unary, Admits, StackCode.exprFits_iff operand t]
  | .binary op left right, t => by
      simp [StackCode.ExprFits, parts_binary, Admits, StackCode.exprFits_iff left t,
        StackCode.exprFits_iff right (t + 1), and_comm]
  | .call f args, t => by
      simp [StackCode.ExprFits, parts_call, Admits, StackCode.exprsFit_iff args t]

theorem StackCode.exprsFit_iff : ∀ (es : List Expr) (t : Nat),
    StackCode.ExprsFit vars es ↔ ArgParts (fun part _ => part.Admits vars) es t
  | [], t => by simp [StackCode.ExprsFit, argParts_nil]
  | e :: es, t => by
      simp [StackCode.ExprsFit, argParts_cons, StackCode.exprFits_iff e t,
        StackCode.exprsFit_iff es (t + 1)]

end

variable {file : RegisterCode.File}

mutual

/-- The register machine asks for temporaries and for room in the frame beside what the stack machine
asks for. -/
theorem RegisterCode.exprFits_iff : ∀ (e : Expr) (t : Nat),
    RegisterCode.ExprFits file vars e t ↔ StackCode.ExprFits vars e ∧
      t + e.need ≤ file.temporaries ∧ e.Parts (fun part live => part.Keeps vars live) t
  | .number n, t => by
      simp [RegisterCode.ExprFits, StackCode.ExprFits, parts_number, Keeps, need]
  | .boolean b, t => by
      simp [RegisterCode.ExprFits, StackCode.ExprFits, parts_boolean, Keeps, need]
  | .identifier x, t => by
      simp [RegisterCode.ExprFits, StackCode.ExprFits, parts_identifier, Keeps, need, and_comm]
  | .paren inner, t => by
      have hpos := inner.need_pos
      simp only [RegisterCode.ExprFits, StackCode.ExprFits, parts_paren, Keeps, need,
        RegisterCode.exprFits_iff inner t]
      grind
  | .unary op operand, t => by
      have hpos := operand.need_pos
      simp only [RegisterCode.ExprFits, StackCode.ExprFits, parts_unary, Keeps, need,
        RegisterCode.exprFits_iff operand t]
      grind
  | .binary op left right, t => by
      have hpos := right.need_pos
      simp only [RegisterCode.ExprFits, StackCode.ExprFits, parts_binary, Keeps, need,
        RegisterCode.exprFits_iff left t, RegisterCode.exprFits_iff right (t + 1)]
      grind
  | .call f args, t => by
      simp only [RegisterCode.ExprFits, StackCode.ExprFits, parts_call, Keeps,
        add_need_call_le_iff, RegisterCode.exprsFit_iff args t]
      grind

theorem RegisterCode.exprsFit_iff : ∀ (es : List Expr) (t : Nat),
    RegisterCode.ExprsFit file vars es t ↔ StackCode.ExprsFit vars es ∧
      needFrom t es ≤ file.temporaries ∧ ArgParts (fun part live => part.Keeps vars live) es t
  | [], t => by simp [RegisterCode.ExprsFit, StackCode.ExprsFit, argParts_nil, needFrom]
  | e :: es, t => by
      simp only [RegisterCode.ExprsFit, StackCode.ExprsFit, argParts_cons, needFrom,
        RegisterCode.exprFits_iff e t, RegisterCode.exprsFit_iff es (t + 1), Nat.max_le]
      grind

end

end

/-! ## Functions -/

variable {d : Definition}

theorem Source.Definition.wellScoped_iff : d.WellScoped ↔ StackCode.pieces.FunctionFits d := by
  rw [Pieces.functionFits_iff]
  constructor
  · intro h
    refine ⟨⟨h.args_nodup, h.args_fit⟩, fun vars s hs => ?_, fun vars e he => ?_⟩
    · cases s with
      | var x value =>
          exact ⟨h.fresh vars x value hs, by simpa using h.vars_fit vars x value hs⟩
      | assign x value => exact h.assigned vars x value hs
      | _ => trivial
    · refine (StackCode.exprFits_iff e 0).mpr fun part live hpart => ?_
      cases part with
      | identifier x => exact h.read vars e he x live hpart
      | call f args => exact h.calls_fit vars e he f args live hpart
      | _ => trivial
  · rintro ⟨⟨hnodup, hlength⟩, hbinds, hfits⟩
    have hadmits : ∀ vars e, d.Evaluates vars e → ∀ part live, e.Part 0 part live →
        part.Admits vars := fun vars e he => (StackCode.exprFits_iff e 0).mp (hfits vars e he)
    exact {
      args_nodup := hnodup
      read := fun vars e he x live hpart => hadmits vars e he _ live hpart
      assigned := fun vars x value hs => hbinds vars _ hs
      fresh := fun vars x value hs => (hbinds vars _ hs).1
      args_fit := hlength
      vars_fit := fun vars x value hs => by simpa using (hbinds vars _ hs).2
      calls_fit := fun vars e he f args live hpart => hadmits vars e he _ live hpart }

theorem RegisterCode.functionFits_iff {file : RegisterCode.File} :
    (RegisterCode.pieces file).FunctionFits d ↔ StackCode.pieces.FunctionFits d ∧
      ∀ vars e, d.Evaluates vars e → e.need ≤ file.temporaries ∧
        ∀ f args live, e.Part 0 (.call f args) live → vars.length + live ≤ frameSize := by
  have hkeeps (vars : List String) (e : Expr) :
      e.Parts (fun part live => part.Keeps vars live) 0 ↔
        ∀ f args live, e.Part 0 (.call f args) live → vars.length + live ≤ frameSize := by
    constructor
    · intro h f args live hpart
      exact h _ live hpart
    · intro h part live hpart
      cases part with
      | call f args => exact h f args live hpart
      | _ => trivial
  simp only [Pieces.functionFits_iff, RegisterCode.pieces, StackCode.pieces,
    RegisterCode.exprFits_iff, Nat.zero_add, hkeeps]
  grind

theorem Generator.accepts_iff {ι : Type} [InstructionSet ι] {C : Pieces ι} (G : Generator C)
    {backend : Backend} (hbody : backend.compileBody = G.body) {scope : Scope} :
    (∃ f, backend.compileFunction scope d = .ok f) ↔ C.FunctionFits d := by
  simp only [G.compileFunction_ok hbody, exists_and_left, exists_eq, and_true]

theorem RegisterCode.File.ofCount_ok {registers : Nat} {file : RegisterCode.File} :
    ofCount registers = .ok file ↔ file.count = registers := by
  rw [ofCount]
  constructor
  · intro h
    split at h
    · obtain rfl := Except.ok.inj h
      rfl
    · cases h
  · rintro rfl
    rw [dif_pos ⟨file.three_le, file.le_256⟩]

/-- Code for the stack machine is generated for exactly the well-scoped functions. For the register
machine with a valid number of registers, two of which are taken for addressing, it is generated for
those among them whose expressions need no more than the remaining ones, and whose calls find room in
the frame for the values that wait there beside the variables. -/
theorem compileFunction_accepts (scope : Scope) (d : Definition) :
    ((∃ f, StackCode.backend.compileFunction scope d = .ok f) ↔ d.WellScoped) ∧
    ∀ registers, (∃ file f, RegisterCode.File.ofCount registers = .ok file ∧
        (RegisterCode.backend file).compileFunction scope d = .ok f) ↔
      (3 ≤ registers ∧ registers ≤ 256) ∧ d.WellScoped ∧
        ∀ vars e, d.Evaluates vars e → e.need ≤ registers - 2 ∧
          ∀ f args live, e.Part 0 (.call f args) live → vars.length + live ≤ frameSize := by
  have haccepts (file : RegisterCode.File) :
      (∃ f, (RegisterCode.backend file).compileFunction scope d = .ok f) ↔
        (RegisterCode.pieces file).FunctionFits d := (RegisterCode.generator file).accepts_iff rfl
  rw [Definition.wellScoped_iff]
  refine ⟨StackCode.generator.accepts_iff rfl, fun registers => ?_⟩
  constructor
  · rintro ⟨file, f, hfile, hf⟩
    obtain rfl := RegisterCode.File.ofCount_ok.mp hfile
    exact ⟨⟨file.three_le, file.le_256⟩,
      RegisterCode.functionFits_iff.mp ((haccepts file).mp ⟨f, hf⟩)⟩
  · rintro ⟨⟨hlower, hupper⟩, hfits⟩
    obtain ⟨f, hf⟩ := (haccepts ⟨registers, hlower, hupper⟩).mpr
      (RegisterCode.functionFits_iff.mpr hfits)
    exact ⟨_, f, RegisterCode.File.ofCount_ok.mpr rfl, hf⟩

end DualMachine
