import DualMachine.Proofs.Linking
import DualMachine.Proofs.Register.Emission
import DualMachine.Proofs.Stack.Emission

/-!
# What calls lead to

`Link.Reached functions roots f` says that calls lead from one of the names in `roots` to
the function `f`. The search that decides which functions a program keeps finds exactly
these (`Link.mem_reach_iff`), in whatever order it meets them. So of two lists of functions
with the same names and the same calls it keeps the same positions
(`Link.reachable_alike`), whatever their code is otherwise.

Which functions the code of a body calls can be read off its source: `Source.Body.calls` are
the names that are written there, and the code generators emit calls of these and of no
others (`Pieces.mem_body_iff`).
-/

namespace DualMachine

/-! ## Calls in code -/

/-- Instructions that have no names among their operands. -/
class InstructionSet.Nameless (ι : Type) [InstructionSet ι] : Prop where
  symbols_symbolic : ∀ i : ι, (symbolic i).symbols = []

theorem Instruction.symbols_ofValues (d : Descriptor) (values : List Int) :
    (Instruction.ofValues d values).symbols = [] := by
  unfold Instruction.symbols Instruction.ofValues
  rw [List.filterMap_eq_nil_iff]
  intro operand hoperand
  obtain ⟨i, hi, rfl⟩ := List.mem_iff_getElem.mp hoperand
  rw [List.getElem_zipWith]
  rfl

instance : InstructionSet.Nameless Register.Instr where
  symbols_symbolic _ := Instruction.symbols_ofValues _ _

instance : InstructionSet.Nameless Stack.Instr where
  symbols_symbolic _ := Instruction.symbols_ofValues _ _

theorem CompiledFunction.mem_callees {f : CompiledFunction} {name : String} :
    name ∈ f.callees ↔ ∃ i ∈ f.body, name ∈ i.symbols := by
  rw [callees, List.mem_eraseDups, List.mem_flatMap]

section

variable {ι : Type} [InstructionSet ι] [InstructionSet.Nameless ι]

theorem Line.mem_symbols {l : Line ι} {name : String} :
    name ∈ l.symbolic.symbols ↔ l = .call name := by
  cases l with
  | plain i =>
      rw [symbolic, InstructionSet.Nameless.symbols_symbolic]
      simp
  | call other =>
      show name ∈ [other] ↔ _
      rw [List.mem_singleton, Line.call.injEq]
      exact eq_comm

/-- The names that a function calls are those in its lines. -/
theorem CompiledFunction.mem_callees_lines {f : CompiledFunction} {lines : List (Line ι)}
    (h : f.body = lines.map Line.symbolic) {name : String} :
    name ∈ f.callees ↔ Line.call name ∈ lines := by
  rw [mem_callees, h]
  constructor
  · rintro ⟨i, hi, hname⟩
    obtain ⟨l, hl, rfl⟩ := List.mem_map.mp hi
    obtain rfl := Line.mem_symbols.mp hname
    exact hl
  · intro hmem
    exact ⟨_, List.mem_map_of_mem hmem, Line.mem_symbols.mpr rfl⟩

end

/-! ## Calls in the source -/

namespace Source

mutual

/-- The names that an expression calls, as they are written. -/
def Expr.calls : Expr → List String
  | .number _ | .boolean _ | .identifier _ => []
  | .unary _ operand => operand.calls
  | .binary _ left right => left.calls ++ right.calls
  | .call f args => f :: Expr.callsAll args
  | .paren inner => inner.calls

/-- The names that expressions call. -/
def Expr.callsAll : List Expr → List String
  | [] => []
  | e :: es => e.calls ++ Expr.callsAll es

end

mutual

/-- The names that a statement calls. -/
def Stmt.calls : Stmt → List String
  | .var _ value | .assign _ value | .return value => value.calls
  | .if cond onTrue none => cond.calls ++ Stmt.callsAll onTrue
  | .if cond onTrue (some onFalse) =>
    cond.calls ++ (Stmt.callsAll onTrue ++ Stmt.callsAll onFalse)
  | .while cond body => cond.calls ++ Stmt.callsAll body

/-- The names that statements call. -/
def Stmt.callsAll : List Stmt → List String
  | [] => []
  | s :: ss => s.calls ++ Stmt.callsAll ss

end

/-- The names that a body calls. -/
def Body.calls : Body → List String
  | .block ss => Stmt.callsAll ss
  | .expression value => value.calls

end Source

open Source

@[simp] theorem Line.call_notMem_ofCode {ι : Type} (name : String) (code : List ι) :
    Line.call name ∉ Line.ofCode code := by
  simp [Line.ofCode]

namespace Pieces

variable {ι : Type} [InstructionSet ι]

/-- The code of an expression calls what is written in it. -/
def CallsAsWritten (C : Pieces ι) : Prop :=
  ∀ scope vars e name,
    Line.call name ∈ C.expr scope vars e ↔ ∃ f ∈ Expr.calls e, Scope.qualify scope f = name

variable {C : Pieces ι} {scope : Scope} {name : String}

mutual

theorem mem_statement_iff (hC : C.CallsAsWritten) : ∀ (s : Stmt) (vars : List String),
    Line.call name ∈ C.statement scope vars s ↔ ∃ f ∈ s.calls, scope.qualify f = name
  | .var x value, vars => by simp [statement, Stmt.calls, hC scope vars value name]
  | .assign x value, vars => by simp [statement, Stmt.calls, hC scope vars value name]
  | .return value, vars => by simp [statement, Stmt.calls, hC scope vars value name]
  | .if cond onTrue none, vars => by
      simp [statement, conditional, Stmt.calls, hC scope vars cond name,
        mem_statements_iff hC onTrue vars, or_and_right, exists_or]
  | .if cond onTrue (some onFalse), vars => by
      simp [statement, conditional, Stmt.calls, hC scope vars cond name,
        mem_statements_iff hC onTrue vars, mem_statements_iff hC onFalse vars, or_and_right,
        exists_or, or_comm]
  | .while cond body, vars => by
      simp [statement, loop, round, Stmt.calls, hC scope vars cond name,
        mem_statements_iff hC body vars, or_and_right, exists_or]

theorem mem_statements_iff (hC : C.CallsAsWritten) : ∀ (ss : List Stmt) (vars : List String),
    Line.call name ∈ C.statements scope vars ss ↔ ∃ f ∈ Stmt.callsAll ss, scope.qualify f = name
  | [], vars => by simp [statements, Stmt.callsAll]
  | s :: ss, vars => by
      simp [statements, Stmt.callsAll, mem_statement_iff hC s vars, mem_statements_iff hC ss,
        or_and_right, exists_or]

end

/-- The code of a body calls what is written in it. -/
theorem mem_body_iff (hC : C.CallsAsWritten) (vars : List String) (body : Body) :
    Line.call name ∈ C.body scope vars body ↔ ∃ f ∈ body.calls, scope.qualify f = name := by
  cases body with
  | block ss => simp [Pieces.body, Body.calls, mem_statements_iff hC ss vars]
  | expression value => simp [Pieces.body, Body.calls, hC scope vars value name]

end Pieces

namespace RegisterCode

variable {file : File} {scope : Scope} {vars : List String} {name : String}

mutual

theorem mem_exprCode_iff : ∀ (e : Expr) (t : Nat),
    Line.call name ∈ exprCode file scope vars e t ↔ ∃ f ∈ e.calls, scope.qualify f = name
  | .number n, t => by simp [exprCode, Expr.calls]
  | .boolean b, t => by simp [exprCode, Expr.calls]
  | .identifier x, t => by simp [exprCode, Expr.calls]
  | .paren inner, t => by simp [exprCode, Expr.calls, mem_exprCode_iff inner t]
  | .unary op operand, t => by simp [exprCode, Expr.calls, mem_exprCode_iff operand t]
  | .binary op left right, t => by
      simp [exprCode, Expr.calls, mem_exprCode_iff left t, mem_exprCode_iff right (t + 1),
        or_and_right, exists_or]
  | .call f args, t => by
      simp [exprCode, Expr.calls, mem_exprsCode_iff args t, eq_comm, or_comm]

theorem mem_exprsCode_iff : ∀ (es : List Expr) (t : Nat),
    Line.call name ∈ exprsCode file scope vars es t ↔
      ∃ f ∈ Expr.callsAll es, scope.qualify f = name
  | [], t => by simp [exprsCode, Expr.callsAll]
  | e :: es, t => by
      simp [exprsCode, Expr.callsAll, mem_exprCode_iff e t, mem_exprsCode_iff es (t + 1),
        or_and_right, exists_or]

end

theorem callsAsWritten (file : File) : (pieces file).CallsAsWritten :=
  fun _ _ e _ => mem_exprCode_iff e 0

end RegisterCode

namespace StackCode

variable {scope : Scope} {vars : List String} {name : String}

mutual

theorem mem_exprCode_iff : ∀ e : Expr,
    Line.call name ∈ exprCode scope vars e ↔ ∃ f ∈ e.calls, scope.qualify f = name
  | .number n => by simp [exprCode, Expr.calls]
  | .boolean b => by simp [exprCode, Expr.calls]
  | .identifier x => by simp [exprCode, Expr.calls]
  | .paren inner => by simp [exprCode, Expr.calls, mem_exprCode_iff inner]
  | .unary op operand => by simp [exprCode, Expr.calls, mem_exprCode_iff operand]
  | .binary op left right => by
      simp [exprCode, Expr.calls, mem_exprCode_iff left, mem_exprCode_iff right,
        or_and_right, exists_or, or_comm]
  | .call f args => by
      simp [exprCode, Expr.calls, mem_exprsCode_iff args, eq_comm, or_comm]

theorem mem_exprsCode_iff : ∀ es : List Expr,
    Line.call name ∈ exprsCode scope vars es ↔ ∃ f ∈ Expr.callsAll es, scope.qualify f = name
  | [] => by simp [exprsCode, Expr.callsAll]
  | e :: es => by
      simp [exprsCode, Expr.callsAll, mem_exprCode_iff e, mem_exprsCode_iff es,
        or_and_right, exists_or]

end

theorem callsAsWritten : pieces.CallsAsWritten := fun _ _ e _ => mem_exprCode_iff e

end StackCode

namespace Link

/-! ## Reached functions -/

/-- Calls lead from one of the names to the function. -/
inductive Reached (functions : List CompiledFunction) (roots : List String) :
    CompiledFunction → Prop where
  | root {f : CompiledFunction} (hf : f ∈ functions) (hname : f.name ∈ roots) :
      Reached functions roots f
  | call {f g : CompiledFunction} (hf : Reached functions roots f) (hg : g ∈ functions)
      (hname : g.name ∈ f.callees) : Reached functions roots g

variable {functions kept : List CompiledFunction} {roots : List String} {f g : CompiledFunction}
  {name entry : String}

theorem Reached.mem (h : Reached functions roots f) : f ∈ functions := by
  cases h with
  | root hf hname => exact hf
  | call hf hg hname => exact hg

/-- Taking out a function that is called and following its own calls instead. -/
theorem reached_iff_erase (hf : f ∈ functions) (hname : f.name ∈ roots) :
    Reached functions roots g ↔
      g = f ∨ Reached (functions.erase f) (f.callees ++ roots) g := by
  constructor
  · intro h
    induction h with
    | @root g hg hroot =>
        by_cases heq : g = f
        · exact .inl heq
        · exact .inr (.root ((List.mem_erase_of_ne heq).mpr hg) (List.mem_append_right _ hroot))
    | @call g₁ g hg₁ hg hcall ih =>
        by_cases heq : g = f
        · exact .inl heq
        · have hmem : g ∈ functions.erase f := (List.mem_erase_of_ne heq).mpr hg
          rcases ih with rfl | hreached
          · exact .inr (.root hmem (List.mem_append_left _ hcall))
          · exact .inr (.call hreached hmem hcall)
  · rintro (rfl | h)
    · exact .root hf hname
    · induction h with
      | root hg hroot =>
          rcases List.mem_append.mp hroot with hcall | hroot
          · exact .call (.root hf hname) (List.mem_of_mem_erase hg) hcall
          · exact .root (List.mem_of_mem_erase hg) hroot
      | call _ hg hcall ih => exact .call ih (List.mem_of_mem_erase hg) hcall

/-- The search finds the names of the reached functions. -/
theorem mem_reach_iff :
    name ∈ reach functions roots ↔ ∃ f, Reached functions roots f ∧ f.name = name := by
  induction functions, roots using reach.induct with
  | case1 functions roots hfind =>
      rw [reach, hfind]
      constructor
      · intro h
        cases h
      · -- nothing is called, so nothing is reached
        rintro ⟨f, hreached, -⟩
        induction hreached with
        | root hf hroot =>
            have hnone := List.find?_eq_none.mp hfind _ hf
            exact absurd (List.contains_iff_mem.mpr hroot) hnone
        | call _ _ _ ih => exact ih
  | case2 functions roots f hfind ih =>
      rw [reach, hfind]
      have hf := List.mem_of_find?_eq_some hfind
      have hfound := List.find?_some hfind
      have hroot : f.name ∈ roots := List.contains_iff_mem.mp hfound
      simp only [List.mem_cons, ih, reached_iff_erase hf hroot]
      constructor
      · rintro (rfl | ⟨g, hg, rfl⟩)
        · exact ⟨f, .inl rfl, rfl⟩
        · exact ⟨g, .inr hg, rfl⟩
      · rintro ⟨g, rfl | hg, rfl⟩
        · exact .inl rfl
        · exact .inr ⟨g, hg, rfl⟩

/-- Where names differ, the reached functions are those with the names that are found. -/
theorem reached_iff (hnodup : (functions.map (·.name)).Nodup) :
    Reached functions roots g ↔ g ∈ functions ∧ g.name ∈ reach functions roots := by
  rw [mem_reach_iff]
  constructor
  · intro h
    exact ⟨h.mem, g, h, rfl⟩
  · rintro ⟨hg, f, hf, hname⟩
    exact List.inj_on_of_nodup_map hnodup hf.mem hg hname ▸ hf

/-- A program keeps the functions that calls lead to from its entry point. -/
theorem mem_reachable_iff (hnodup : (functions.map (·.name)).Nodup)
    (h : reachable functions entry = .ok kept) :
    g ∈ kept ↔ Reached functions [entry] g := by
  rw [reachable] at h
  cases hfind : functions.find? (·.name == entry) with
  | none => rw [hfind] at h; cases h
  | some f =>
      rw [hfind] at h
      obtain rfl := Except.ok.inj h
      have hf := List.mem_of_find?_eq_some hfind
      have hfound := List.find?_some hfind
      have hentry : f.name = entry := eq_of_beq hfound
      simp only [List.mem_cons, List.mem_filter, Bool.and_eq_true, bne_iff_ne, ne_eq,
        List.contains_iff_mem]
      constructor
      · rintro (rfl | ⟨hg, -, hreach⟩)
        · exact .root hf (by simp [hentry])
        · exact (reached_iff hnodup).mpr ⟨hg, hreach⟩
      · intro hreached
        obtain ⟨hg, hreach⟩ := (reached_iff hnodup).mp hreached
        by_cases hname : g.name = entry
        · exact .inl (List.inj_on_of_nodup_map hnodup hg hf (hname.trans hentry.symm))
        · exact .inr ⟨hg, hname, hreach⟩

/-! ## Functions that call alike -/

section

variable {α : Type} {f g : α → CompiledFunction} {us : List α}

theorem Reached.transfer (hname : ∀ u ∈ us, (g u).name = (f u).name)
    (hcallees : ∀ u ∈ us, ∀ name ∈ (f u).callees, name ∈ (g u).callees)
    {c : CompiledFunction} (h : Reached (us.map f) roots c) :
    ∃ u ∈ us, f u = c ∧ Reached (us.map g) roots (g u) := by
  induction h with
  | root hc hroot =>
      obtain ⟨u, hu, rfl⟩ := List.mem_map.mp hc
      exact ⟨u, hu, rfl, .root (List.mem_map_of_mem hu) (by rwa [hname u hu])⟩
  | call _ hc hcall ih =>
      obtain ⟨u, hu, rfl, hreached⟩ := ih
      obtain ⟨v, hv, rfl⟩ := List.mem_map.mp hc
      refine ⟨v, hv, rfl, .call hreached (List.mem_map_of_mem hv) ?_⟩
      rw [hname v hv]
      exact hcallees u hu _ hcall

/-- Functions with the same names and calls are kept at the same positions. -/
theorem reachable_alike (hname : ∀ u ∈ us, (g u).name = (f u).name)
    (hcallees : ∀ u ∈ us, ∀ name, name ∈ (g u).callees ↔ name ∈ (f u).callees)
    (h : reachable (us.map f) entry = .ok kept) :
    ∃ vs : List α, (∀ v ∈ vs, v ∈ us) ∧ kept = vs.map f ∧
      reachable (us.map g) entry = .ok (vs.map g) := by
  have hreach : ∀ name, name ∈ reach (us.map g) [entry] ↔ name ∈ reach (us.map f) [entry] := by
    intro name
    rw [mem_reach_iff, mem_reach_iff]
    constructor
    · rintro ⟨c, hc, rfl⟩
      obtain ⟨u, hu, rfl, hreached⟩ := hc.transfer (fun u hu => (hname u hu).symm)
        fun u hu name => (hcallees u hu name).mp
      exact ⟨f u, hreached, (hname u hu).symm⟩
    · rintro ⟨c, hc, rfl⟩
      obtain ⟨u, hu, rfl, hreached⟩ := hc.transfer hname fun u hu name => (hcallees u hu name).mpr
      exact ⟨g u, hreached, hname u hu⟩
  -- so both searches choose by the same test
  have hchosen : ∀ u ∈ us, ((g u).name != entry && (reach (us.map g) [entry]).contains (g u).name)
      = ((f u).name != entry && (reach (us.map f) [entry]).contains (f u).name) := by
    intro u hu
    rw [hname u hu, Bool.eq_iff_iff]
    simp [hreach]
  have hfirst : us.find? ((·.name == entry) ∘ g) = us.find? ((·.name == entry) ∘ f) :=
    List.find?_congr fun u hu => by simp [hname u hu]
  rw [reachable, List.find?_map] at h ⊢
  rw [hfirst]
  cases hfind : us.find? ((·.name == entry) ∘ f) with
  | none => rw [hfind] at h; cases h
  | some u =>
      rw [hfind] at h
      obtain rfl := Except.ok.inj h
      refine ⟨u :: us.filter fun v => (f v).name != entry &&
        (reach (us.map f) [entry]).contains (f v).name, ?_, ?_, ?_⟩
      · intro v hv
        rcases List.mem_cons.mp hv with rfl | hv
        · exact List.mem_of_find?_eq_some hfind
        · exact (List.mem_filter.mp hv).1
      · rw [List.map_cons, List.filter_map]
        rfl
      · rw [List.map_cons, ← List.filter_congr hchosen]
        simp only [Option.map_some, List.filter_map]
        rfl

end

end Link

end DualMachine
