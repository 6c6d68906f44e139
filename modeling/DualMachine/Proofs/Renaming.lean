import DualMachine.Proofs.Libraries

/-!
# Renaming

The scope in which a function is compiled matters for names only: the code is what it would be
outside of every library, with each name that is called as the scope qualifies it
(`Pieces.body_qualify`). For a package whose calls stay inside (`Package.SelfContained`), moving
it below a library's name puts this name before every registered name and every call and does
nothing else (`include_renames`). Offsets of branches stay, since a call is as long whatever
its name is.
-/

namespace DualMachine

open Source

/-! ## Names in code -/

/-- The operand with its name changed. -/
def Operand.rename (f : String → String) : Operand → Operand
  | .value v => .value v
  | .symbol name => .symbol (f name)

/-- The instruction with its names changed. -/
def Instruction.rename (f : String → String) (i : Instruction) : Instruction :=
  { i with operands := i.operands.map (Operand.rename f) }

/-- The function with its own name and those in its code changed. -/
def CompiledFunction.rename (f : String → String) (g : CompiledFunction) : CompiledFunction :=
  { g with name := f g.name, body := g.body.map (Instruction.rename f) }

theorem Instruction.rename_of_symbols_eq_nil {i : Instruction} (f : String → String)
    (h : i.symbols = []) : i.rename f = i := by
  have hvalue : ∀ o ∈ i.operands, o.rename f = o := by
    intro o ho
    have hnone := List.filterMap_eq_nil_iff.mp h o ho
    cases o with
    | value v => rfl
    | symbol name => cases hnone
  rw [rename, List.map_congr_left hvalue, List.map_id']

namespace Line

variable {ι : Type}

/-- The line with the function that it calls changed. -/
def rename (f : String → String) : Line ι → Line ι
  | .plain i => .plain i
  | .call name => .call (f name)

@[simp] theorem map_rename_ofCode (f : String → String) (code : List ι) :
    (ofCode code).map (rename f) = ofCode code := by
  rw [ofCode, List.map_map]
  rfl

/-- Names that are not called do not matter. -/
theorem map_rename_congr {f g : String → String} {lines : List (Line ι)}
    (h : ∀ name, call name ∈ lines → f name = g name) :
    lines.map (rename f) = lines.map (rename g) := by
  refine List.map_congr_left fun l hl => ?_
  cases l with
  | plain i => rfl
  | call name => rw [rename, rename, h name hl]

theorem map_rename_rename (f g : String → String) (lines : List (Line ι)) :
    (lines.map (rename g)).map (rename f) = lines.map (rename (f ∘ g)) := by
  rw [List.map_map]
  refine List.map_congr_left fun l _ => ?_
  cases l <;> rfl

variable [InstructionSet ι]

/-- The length of a call does not depend on the name. -/
@[simp] theorem length_map_rename (f : String → String) (lines : List (Line ι)) :
    length (lines.map (rename f)) = length lines := by
  rw [length, length, List.map_map]
  congr 1
  refine List.map_congr_left fun l _ => ?_
  cases l <;> rfl

theorem symbolic_rename [InstructionSet.Nameless ι] (f : String → String) (l : Line ι) :
    (l.rename f).symbolic = l.symbolic.rename f := by
  cases l with
  | plain i =>
      exact (Instruction.rename_of_symbols_eq_nil f
        (InstructionSet.Nameless.symbols_symbolic i)).symm
  | call name => rfl

end Line

/-! ## Code and scopes -/

namespace Pieces

variable {ι : Type} [InstructionSet ι]

/-- The scope gives the names in the code of an expression and nothing else. -/
def Qualifies (C : Pieces ι) : Prop :=
  ∀ scope vars e, C.expr scope vars e
    = (C.expr Scope.root vars e).map (Line.rename (Scope.qualify scope))

variable {C : Pieces ι} {scope : Scope}

theorem conditional_rename (f : String → String) (cond onTrue onFalse : List (Line ι)) :
    (C.conditional cond onTrue onFalse).map (Line.rename f)
      = C.conditional (cond.map (Line.rename f)) (onTrue.map (Line.rename f))
        (onFalse.map (Line.rename f)) := by
  simp [conditional]

theorem loop_rename (f : String → String) (cond body : List (Line ι)) :
    (C.loop cond body).map (Line.rename f)
      = C.loop (cond.map (Line.rename f)) (body.map (Line.rename f)) := by
  simp [loop, round]

mutual

theorem statement_qualify (hC : C.Qualifies) : ∀ (s : Stmt) (vars : List String),
    C.statement scope vars s
      = (C.statement Scope.root vars s).map (Line.rename scope.qualify)
  | .var x value, vars => by simp [statement, hC scope vars value]
  | .assign x value, vars => by simp [statement, hC scope vars value]
  | .return value, vars => by simp [statement, hC scope vars value]
  | .if cond onTrue none, vars => by
      simp only [statement, conditional_rename, List.map_nil, ← hC scope vars cond,
        ← statements_qualify hC onTrue vars]
  | .if cond onTrue (some onFalse), vars => by
      simp only [statement, conditional_rename, ← hC scope vars cond,
        ← statements_qualify hC onTrue vars, ← statements_qualify hC onFalse vars]
  | .while cond body, vars => by
      simp only [statement, loop_rename, ← hC scope vars cond, ← statements_qualify hC body vars]

theorem statements_qualify (hC : C.Qualifies) : ∀ (ss : List Stmt) (vars : List String),
    C.statements scope vars ss
      = (C.statements Scope.root vars ss).map (Line.rename scope.qualify)
  | [], vars => by simp [statements]
  | s :: ss, vars => by
      simp only [statements, List.map_append, ← statement_qualify hC s vars,
        ← statements_qualify hC ss (s.declared vars)]

end

/-- The code of a body has the names that its scope gives to those that are written. -/
theorem body_qualify (hC : C.Qualifies) (vars : List String) (body : Body) :
    C.body scope vars body = (C.body Scope.root vars body).map (Line.rename scope.qualify) := by
  cases body with
  | block ss =>
      simp only [Pieces.body, List.map_append, Line.map_rename_ofCode,
        ← statements_qualify hC ss vars]
  | expression value =>
      simp only [Pieces.body, List.map_append, Line.map_rename_ofCode, ← hC scope vars value]

end Pieces

namespace RegisterCode

variable {file : File} {scope : Scope} {vars : List String}

mutual

theorem exprCode_qualify : ∀ (e : Expr) (t : Nat),
    exprCode file scope vars e t
      = (exprCode file Scope.root vars e t).map (Line.rename scope.qualify)
  | .number n, t => by simp [exprCode]
  | .boolean b, t => by simp [exprCode]
  | .identifier x, t => by simp [exprCode]
  | .paren inner, t => by simp only [exprCode, ← exprCode_qualify inner t]
  | .unary op operand, t => by
      simp only [exprCode, List.map_append, Line.map_rename_ofCode, ← exprCode_qualify operand t]
  | .binary op left right, t => by
      simp only [exprCode, List.map_append, Line.map_rename_ofCode, ← exprCode_qualify left t,
        ← exprCode_qualify right (t + 1)]
  | .call f args, t => by
      simp only [exprCode, List.map_append, Line.map_rename_ofCode, ← exprsCode_qualify args t]
      simp [Line.rename, Scope.qualify, Scope.root]

theorem exprsCode_qualify : ∀ (es : List Expr) (t : Nat),
    exprsCode file scope vars es t
      = (exprsCode file Scope.root vars es t).map (Line.rename scope.qualify)
  | [], t => by simp [exprsCode]
  | e :: es, t => by
      simp only [exprsCode, List.map_append, ← exprCode_qualify e t,
        ← exprsCode_qualify es (t + 1)]

end

theorem qualifies (file : File) : (pieces file).Qualifies := fun _ _ e => exprCode_qualify e 0

end RegisterCode

namespace StackCode

variable {scope : Scope} {vars : List String}

mutual

theorem exprCode_qualify : ∀ e : Expr,
    exprCode scope vars e = (exprCode Scope.root vars e).map (Line.rename scope.qualify)
  | .number n => by simp [exprCode]
  | .boolean b => by simp [exprCode]
  | .identifier x => by simp [exprCode]
  | .paren inner => by simp only [exprCode, ← exprCode_qualify inner]
  | .unary op operand => by
      simp only [exprCode, List.map_append, Line.map_rename_ofCode, ← exprCode_qualify operand]
  | .binary op left right => by
      simp only [exprCode, List.map_append, Line.map_rename_ofCode, ← exprCode_qualify left,
        ← exprCode_qualify right]
  | .call f args => by
      simp only [exprCode, List.map_append, Line.map_rename_ofCode, ← exprsCode_qualify args]
      simp [Line.rename, Scope.qualify, Scope.root]

theorem exprsCode_qualify : ∀ es : List Expr,
    exprsCode scope vars es = (exprsCode Scope.root vars es).map (Line.rename scope.qualify)
  | [] => by simp [exprsCode]
  | e :: es => by
      simp only [exprsCode, List.map_append, ← exprCode_qualify e, ← exprsCode_qualify es]

end

theorem qualifies : pieces.Qualifies := fun _ _ e => exprCode_qualify e

end StackCode

/-! ## Included packages -/

/-- Every call names a function that the package in which it is written defines, itself or in
one of its includes. -/
def Source.Package.SelfContained (p : Package) : Prop :=
  ∀ site q d, p.Has site q d → ∀ name ∈ d.body.calls, ∃ target, q.Defines target name

theorem Source.Package.selfContained_iff {p : Package} : p.SelfContained ↔
    ∀ u ∈ p.sited, ∀ name ∈ u.2.2.body.calls, name ∈ Scope.namesOf "" u.2.1 := by
  have hdefines : ∀ {q : Package} {name : String},
      name ∈ Scope.namesOf "" q ↔ ∃ target, q.Defines target name := by
    intro q name
    simp [mem_namesOf_iff]
  constructor
  · intro h u hu name hname
    exact hdefines.mpr (h _ _ _ (mem_sited_iff.mp hu) name hname)
  · intro h site q d hhas name hname
    exact hdefines.mp (h (site, q, d) (mem_sited_iff.mpr hhas) name hname)

instance (p : Package) : Decidable p.SelfContained :=
  decidable_of_iff _ Package.selfContained_iff.symm

section

variable {ι : Type} [InstructionSet ι] [InstructionSet.Nameless ι] {T : Target ι}
  {p q : Package} {d : Definition}

/-- The library's name stands before the names in a function's code. -/
theorem Target.function_below (hT : T.Qualifies) (hcalls : T.CallsAsWritten)
    (h : ∀ name ∈ d.body.calls, ∃ target, q.Defines target name) (library path : String) :
    T.function (Scope.ofPackage (library ++ path) q, d)
      = (T.function (Scope.ofPackage path q, d)).rename (library ++ ·) := by
  have hbody : T.body (Scope.ofPackage (library ++ path) q) d.args d.body
      = (T.body (Scope.ofPackage path q) d.args d.body).map (Line.rename (library ++ ·)) := by
    have hqualify : ∀ scope : Scope, T.body scope d.args d.body
        = (T.body .root d.args d.body).map (Line.rename scope.qualify) := fun scope =>
      Pieces.body_qualify hT d.args d.body
    rw [hqualify (.ofPackage (library ++ path) q), hqualify (.ofPackage path q),
      Line.map_rename_rename]
    refine Line.map_rename_congr fun name hname => ?_
    obtain ⟨f, hf, rfl⟩ := (Pieces.mem_body_iff hcalls d.args d.body).mp hname
    obtain ⟨target, hdefines⟩ := h f hf
    have hroot : Scope.root.qualify f = f := by simp [Scope.qualify, Scope.root]
    rw [hroot, Function.comp, Scope.qualify_of_defines hdefines, Scope.qualify_of_defines hdefines,
      String.append_assoc]
  rw [Target.function, Target.function, CompiledFunction.rename, hbody, List.map_map, List.map_map]
  congr 1
  · exact String.append_assoc
  · exact List.map_congr_left fun l _ => Line.symbolic_rename _ l

theorem Target.functions_below (hT : T.Qualifies) (hcalls : T.CallsAsWritten)
    (hp : p.SelfContained) (library : String) :
    (p.registered library).map T.function
      = ((p.registered "").map T.function).map (CompiledFunction.rename (library ++ ·)) := by
  rw [Package.registered_eq, Package.registered_eq, List.map_map, List.map_map, List.map_map]
  refine List.map_congr_left fun u hu => ?_
  have hhas := Package.mem_sited_iff.mp hu
  have hbelow := Target.function_below hT hcalls (hp _ _ _ hhas) library (dotted u.1.libraries)
  simpa using hbelow

omit [InstructionSet.Nameless ι] in
theorem Session.compile_eq_none_iff {backend : Backend} (C : T.Compiler backend) {entry : String} :
    (({ backend, entry } : Session).compile p).1 = none ↔
      (∀ u ∈ p.registered "", T.FunctionFits u.2) ∧ p.names.Nodup := by
  constructor
  · intro h
    exact ((compile_ok_iff C).mp (Prod.ext h rfl)).1
  · intro h
    rw [(compile_ok_iff C).mpr ⟨h, rfl⟩]

omit [InstructionSet.Nameless ι] in
theorem Session.functions_of_compile {backend : Backend} (C : T.Compiler backend) {entry : String}
    (h : (({ backend, entry } : Session).compile p).1 = none) :
    (({ backend, entry } : Session).compile p).2.functions = (p.registered "").map T.function := by
  have hcompile : ({ backend, entry } : Session).compile p
      = (none, (({ backend, entry } : Session).compile p).2) := Prod.ext h rfl
  exact congrArg Session.functions ((compile_ok_iff C).mp hcompile).2

namespace Source.Package

variable (p : Package) (library : String)

theorem registered_include :
    (mk [(library, p)] []).registered "" = p.registered (library ++ ".") := by
  simp [registered, registeredIn]

theorem names_include : (mk [(library, p)] []).names = p.names.map (library ++ "." ++ ·) := by
  rw [names, registered_include, names, registered_eq, registered_eq, List.map_map, List.map_map,
    List.map_map]
  refine List.map_congr_left fun u _ => ?_
  simp [Scope.define, Scope.ofPackage, String.append_assoc]

end Source.Package

/-- A package is compiled alone exactly when it is compiled as the only include of another one,
and then the library's name stands before each name. -/
theorem Session.compile_include {backend : Backend} (C : T.Compiler backend) (hT : T.Qualifies)
    (hcalls : T.CallsAsWritten) (hp : p.SelfContained) (entry entry' library : String) :
    let alone := ({ backend, entry } : Session).compile p
    let included := ({ backend, entry := entry' } : Session).compile (.mk [(library, p)] [])
    (alone.1 = none ↔ included.1 = none) ∧
      (alone.1 = none → included.2.functions
        = alone.2.functions.map (CompiledFunction.rename (library ++ "." ++ ·))) := by
  intro alone included
  have hfits : (∀ u ∈ p.registered (library ++ "."), T.FunctionFits u.2) ↔
      ∀ u ∈ p.registered "", T.FunctionFits u.2 := by
    rw [Package.registered_eq, Package.registered_eq, List.forall_mem_map, List.forall_mem_map]
  have hinjective : Function.Injective (library ++ "." ++ · : String → String) :=
    fun _ _ h => (String.append_right_inj _).mp h
  have hiff : alone.1 = none ↔ included.1 = none := by
    rw [compile_eq_none_iff C, compile_eq_none_iff C, Package.registered_include, hfits,
      Package.names_include, List.nodup_map_iff hinjective]
  refine ⟨hiff, fun h => ?_⟩
  rw [functions_of_compile C h, functions_of_compile C (hiff.mp h), Package.registered_include,
    Target.functions_below hT hcalls hp]

end

/-- Including a package is a renaming: where each call stays in the package or library that it is
written in, a fresh session compiles the package exactly when another one compiles a package
that has nothing but this one as a library. The functions are then the same, in the same order,
with the library's name and a dot before each function's name and before each name that code
calls. -/
theorem include_renames {backend : Backend} (hbackend : backend.Provided) {p : Package}
    (hp : p.SelfContained) (entry entry' library : String) :
    let alone := ({ backend, entry } : Session).compile p
    let included := ({ backend, entry := entry' } : Session).compile (.mk [(library, p)] [])
    (alone.1 = none ↔ included.1 = none) ∧
      (alone.1 = none → included.2.functions
        = alone.2.functions.map (CompiledFunction.rename (library ++ "." ++ ·))) := by
  cases hbackend with
  | register file =>
      exact Session.compile_include (RegisterCode.compiler file) (RegisterCode.qualifies file)
        (RegisterCode.callsAsWritten file) hp entry entry' library
  | stack =>
      exact Session.compile_include StackCode.compiler StackCode.qualifies
        StackCode.callsAsWritten hp entry entry' library

/-- A package with a loop and a branch around calls of its own functions and of one in a library,
which has a function of the same name. -/
def contained : Package :=
  .mk [("in", .mk [] [⟨"f", ["x"], .expression (.binary .sub (.identifier "x") (.call "g" []))⟩,
      ⟨"g", [], .expression (.number 1)⟩])]
    [⟨"f", ["x"], .block [
        .while (.identifier "x") [.assign "x" (.call "in.f" [.identifier "x"])],
        .if (.call "in.g" []) [.return (.call "g" [])] none]⟩,
     ⟨"g", [], .expression (.number 7)⟩]

/-- The session that compiles it, as it is or as a library. -/
def containedSession (p : Package) : Option CompileError × Session :=
  ({ backend := RegisterCode.backend .standard, entry := "main" } : Session).compile p

/-- In the library, `f` and `g` are called as `lib.f` and `lib.g`. -/
theorem include_renames_contained :
    contained.SelfContained ∧ (containedSession contained).1 = none ∧
    (containedSession (.mk [("lib", contained)] [])).2.functions
      = (containedSession contained).2.functions.map (.rename ("lib" ++ "." ++ ·)) ∧
    (containedSession (.mk [("lib", contained)] [])).2.functions.map (·.callees)
      = [["lib.in.g"], [], ["lib.in.f", "lib.in.g", "lib.g"], []] := by
  have hcontained : contained.SelfContained := by decide +kernel
  have halone : (containedSession contained).1 = none := by decide +kernel
  have hrenames := include_renames (.register .standard) hcontained "main" "main" "lib"
  refine ⟨hcontained, halone, ?_, by decide +kernel⟩
  unfold containedSession at halone ⊢
  exact hrenames.2 halone

end DualMachine
