import DualMachine.Proofs.Acceptance
import DualMachine.Proofs.Frames

/-!
# Libraries

A package holds definitions of its own and, below them, those of the packages that it
includes. A `Site` says where a definition stands: along which path of includes and at which
position there. `Package.Has` reads a site off the tree of includes, one step for each name of
the path.

A session registers one function for each site, in the order `Site.Before`, under the dotted
path of its libraries (`Registry`). The names that a package registers along a path are the
names that its scope knows, each after that path (`Package.mem_namesOf_iff`). A call in the
code of a definition is the call that is written at the same place of the source, so it
goes to the package's own definition of the name if there is one
(`library_calls_resolve`).
-/

namespace DualMachine

namespace Source

/-! ## Sites -/

/-- Where a definition stands in a package: the names of the libraries on the way to it, and
its position in the last of them. -/
structure Site where
  libraries : List String
  index : Nat
  deriving DecidableEq

/-- The path of nested libraries, a dot after each name. -/
def dotted : List String → String
  | [] => ""
  | name :: libraries => name ++ "." ++ dotted libraries

/-- The site as it is found from a package that includes this one under a name. -/
def Site.under (name : String) (site : Site) : Site := ⟨name :: site.libraries, site.index⟩

/-- What is included comes before a package's own definitions, libraries come in the order of
their names, and the definitions of one package in the order in which they are written. -/
inductive Site.Before : Site → Site → Prop where
  | index {libraries : List String} {i j : Nat} (h : i < j) :
      Before ⟨libraries, i⟩ ⟨libraries, j⟩
  | nested {libraries : List String} {name : String} {below : List String} {i j : Nat} :
      Before ⟨libraries ++ name :: below, i⟩ ⟨libraries, j⟩
  | name {libraries : List String} {name other : String} {below below' : List String} {i j : Nat}
      (h : name < other) : Before ⟨libraries ++ name :: below, i⟩ ⟨libraries ++ other :: below', j⟩

namespace Package

/-- The path of includes leads from the first package to the second. -/
def Leads : Package → List String → Package → Prop
  | p, [], q => q = p
  | p, name :: libraries, q => ∃ r, (name, r) ∈ p.includes ∧ r.Leads libraries q

/-- The definition `d` of the package `q` stands at a site of `p`. -/
def Has (p : Package) (site : Site) (q : Package) (d : Definition) : Prop :=
  p.Leads site.libraries q ∧ q.functions[site.index]? = some d

/-- The site has the name that is written `name` inside the package. -/
def Defines (p : Package) (site : Site) (name : String) : Prop :=
  ∃ q d, p.Has site q d ∧ name = dotted site.libraries ++ d.name

/-- Included packages are in ascending order of their names, at every depth. -/
inductive Ordered : Package → Prop where
  | mk {includes : List (String × Package)} {functions : List Definition}
      (names : (includes.map Prod.fst).Pairwise (· < ·))
      (included : ∀ u ∈ includes, u.2.Ordered) : Ordered (.mk includes functions)

mutual

/-- The definitions of a package with their sites, in the order in which they are compiled. -/
def sited : Package → List (Site × Package × Definition)
  | .mk includes functions =>
    sitedIn includes
      ++ functions.zipIdx.map fun u => (⟨[], u.2⟩, .mk includes functions, u.1)

/-- The definitions of included packages. -/
def sitedIn : List (String × Package) → List (Site × Package × Definition)
  | [] => []
  | (name, p) :: rest => p.sited.map (fun u => (u.1.under name, u.2)) ++ sitedIn rest

end

end Package

theorem dotted_append (above below : List String) :
    dotted (above ++ below) = dotted above ++ dotted below := by
  induction above with
  | nil => simp [dotted]
  | cons name above ih => simp [dotted, ih, String.append_assoc]

namespace Site.Before

variable {site other : Site}

theorem under (h : site.Before other) (name : String) :
    (site.under name).Before (other.under name) := by
  cases h with
  | index h => exact .index h
  | nested => exact @nested (name :: _) _ _ _ _
  | name h => exact @Before.name (name :: _) _ _ _ _ _ _ h

theorem ne (h : site.Before other) : site ≠ other := by
  intro heq
  cases h with
  | index h => exact absurd (Site.mk.inj heq).2 h.ne
  | nested => simp at heq
  | name h =>
      have hnames := List.append_cancel_left (Site.mk.inj heq).1
      exact absurd (List.cons.inj hnames).1 h.ne

end Site.Before

namespace Package

variable {p q r : Package} {site : Site} {d : Definition} {name : String}

theorem leads_append_iff {above below : List String} :
    p.Leads (above ++ below) r ↔ ∃ q, p.Leads above q ∧ q.Leads below r := by
  induction above generalizing p with
  | nil => simp [Leads]
  | cons name above ih =>
      simp only [List.cons_append, Leads, ih]
      constructor
      · rintro ⟨q', hmem, q, hleads, hbelow⟩
        exact ⟨q, ⟨q', hmem, hleads⟩, hbelow⟩
      · rintro ⟨q, ⟨q', hmem, hleads⟩, hbelow⟩
        exact ⟨q', hmem, q, hleads, hbelow⟩

/-- Names of includes differ, so a path leads to one package only. -/
theorem Leads.unique (hp : p.Ordered) {libraries : List String} (hq : p.Leads libraries q)
    (hr : p.Leads libraries r) : q = r := by
  induction libraries generalizing p with
  | nil => exact hq.trans hr.symm
  | cons name libraries ih =>
      obtain ⟨q', hmem, hq⟩ := hq
      obtain ⟨r', hmem', hr⟩ := hr
      cases hp with
      | mk names included =>
          have hnodup := names.imp (fun h => ne_of_lt h)
          have heq := List.inj_on_of_nodup_map hnodup hmem hmem' rfl
          obtain rfl : q' = r' := (Prod.mk.inj heq).2
          exact ih (included _ hmem) hq hr

mutual

theorem mem_sited_iff : ∀ {p : Package} {site : Site} {q : Package} {d : Definition},
    (site, q, d) ∈ p.sited ↔ p.Has site q d
  | .mk includes functions, ⟨[], i⟩, q, d => by
      rw [sited, List.mem_append, mem_sitedIn_iff]
      constructor
      · rintro (⟨u, -, below, hsite, -⟩ | hmem)
        · cases hsite
        · obtain ⟨⟨d', i'⟩, hnumbered, heq⟩ := List.mem_map.mp hmem
          cases heq
          exact ⟨rfl, List.mk_mem_zipIdx_iff_getElem?.mp hnumbered⟩
      · rintro ⟨rfl, hget⟩
        exact .inr (List.mem_map.mpr ⟨(d, i), List.mk_mem_zipIdx_iff_getElem?.mpr hget, rfl⟩)
  | .mk includes functions, ⟨name :: libraries, i⟩, q, d => by
      rw [sited, List.mem_append, mem_sitedIn_iff]
      constructor
      · rintro (⟨⟨other, r⟩, hmem, ⟨below, j⟩, hsite, hleads, hget⟩ | hmem)
        · cases hsite
          exact ⟨⟨r, hmem, hleads⟩, hget⟩
        · obtain ⟨u, -, heq⟩ := List.mem_map.mp hmem
          cases heq
      · rintro ⟨⟨r, hmem, hleads⟩, hget⟩
        exact .inl ⟨(name, r), hmem, ⟨libraries, i⟩, rfl, hleads, hget⟩

theorem mem_sitedIn_iff : ∀ {includes : List (String × Package)} {site : Site} {q : Package}
    {d : Definition}, (site, q, d) ∈ sitedIn includes ↔
      ∃ u ∈ includes, ∃ below, site = below.under u.1 ∧ u.2.Has below q d
  | [], site, q, d => by simp [sitedIn]
  | (name, p) :: rest, site, q, d => by
      rw [sitedIn, List.mem_append, mem_sitedIn_iff, List.exists_mem_cons_iff]
      refine or_congr_left ?_
      constructor
      · intro hmem
        obtain ⟨⟨below, q', d'⟩, hsited, heq⟩ := List.mem_map.mp hmem
        cases heq
        exact ⟨below, rfl, mem_sited_iff.mp hsited⟩
      · rintro ⟨below, rfl, hhas⟩
        exact List.mem_map.mpr ⟨(below, q, d), mem_sited_iff.mpr hhas, rfl⟩

end

/-! ## Order -/

mutual

theorem sited_pairwise : ∀ {p : Package}, p.Ordered →
    (p.sited.map Prod.fst).Pairwise Site.Before
  | .mk includes functions, .mk names included => by
      have hown : (functions.zipIdx.map (Site.mk [] ·.2)).Pairwise Site.Before := by
        have hindices : (functions.zipIdx.map Prod.snd).Pairwise (· < ·) := by
          rw [List.zipIdx_map_snd]
          exact List.pairwise_lt_range'
        rw [List.pairwise_map] at hindices ⊢
        exact hindices.imp .index
      rw [sited, List.map_append, List.map_map, List.pairwise_append]
      refine ⟨sitedIn_pairwise names included, hown, ?_⟩
      intro site hsite own hmem
      obtain ⟨⟨_, q, d⟩, hsited, rfl⟩ := List.mem_map.mp hsite
      obtain ⟨u, -, below, rfl, -⟩ := mem_sitedIn_iff.mp hsited
      obtain ⟨v, -, rfl⟩ := List.mem_map.mp hmem
      exact @Site.Before.nested [] _ _ _ _

theorem sitedIn_pairwise : ∀ {includes : List (String × Package)},
    (includes.map Prod.fst).Pairwise (· < ·) → (∀ u ∈ includes, u.2.Ordered) →
    ((sitedIn includes).map Prod.fst).Pairwise Site.Before
  | [], _, _ => by
      rw [sitedIn]
      exact .nil
  | (name, p) :: rest, names, included => by
      rw [List.map_cons, List.pairwise_cons] at names
      rw [List.forall_mem_cons] at included
      have hfirst := sited_pairwise included.1
      rw [sitedIn, List.map_append, List.map_map, List.pairwise_append]
      refine ⟨?_, sitedIn_pairwise names.2 included.2, ?_⟩
      · rw [List.pairwise_map] at hfirst ⊢
        exact hfirst.imp (·.under name)
      · intro site hsite other hother
        obtain ⟨u, -, rfl⟩ := List.mem_map.mp hsite
        obtain ⟨⟨_, q, d⟩, hsited, rfl⟩ := List.mem_map.mp hother
        obtain ⟨v, hv, below, rfl, -⟩ := mem_sitedIn_iff.mp hsited
        exact @Site.Before.name [] _ _ _ _ _ _ (names.1 v.1 (List.mem_map_of_mem hv))

end

/-! ## Names -/

mutual

/-- The functions of a package are compiled in the order of their sites. -/
theorem registered_eq : ∀ (p : Package) (path : String),
    p.registered path
      = p.sited.map fun u => (Scope.ofPackage (path ++ dotted u.1.libraries) u.2.1, u.2.2)
  | .mk includes functions, path => by
      have hown : functions.map (fun d => (Scope.ofPackage path (.mk includes functions), d))
          = (functions.zipIdx.map Prod.fst).map
            fun d => (Scope.ofPackage path (.mk includes functions), d) := by
        rw [List.zipIdx_map_fst]
      rw [registered, sited, List.map_append, registeredIn_eq includes path, hown, List.map_map,
        List.map_map]
      simp [dotted, Function.comp_def]

theorem registeredIn_eq : ∀ (includes : List (String × Package)) (path : String),
    registeredIn path includes
      = (sitedIn includes).map
        fun u => (Scope.ofPackage (path ++ dotted u.1.libraries) u.2.1, u.2.2)
  | [], path => by rw [registeredIn, sitedIn, List.map_nil]
  | (name, p) :: rest, path => by
      rw [registeredIn, sitedIn, List.map_append, registered_eq p, registeredIn_eq rest path,
        List.map_map]
      simp [dotted, Site.under, Function.comp_def, String.append_assoc]

end

mutual

/-- A scope knows the names of all sites. -/
theorem mem_namesOf_iff : ∀ {p : Package} {path name : String},
    name ∈ Scope.namesOf path p ↔ ∃ site own, p.Defines site own ∧ name = path ++ own
  | .mk includes functions, path, name => by
      rw [Scope.namesOf, List.mem_append, mem_namesOfIncludes_iff]
      constructor
      · rintro (hmem | ⟨u, hu, site, own, ⟨q, d, ⟨hleads, hget⟩, rfl⟩, rfl⟩)
        · obtain ⟨d, hd, rfl⟩ := List.mem_map.mp hmem
          obtain ⟨i, hget⟩ := List.mem_iff_getElem?.mp hd
          exact ⟨⟨[], i⟩, d.name, ⟨_, d, ⟨rfl, hget⟩, by simp [dotted]⟩, rfl⟩
        · exact ⟨site.under u.1, _, ⟨q, d, ⟨⟨u.2, hu, hleads⟩, hget⟩, rfl⟩,
            by simp [dotted, Site.under, String.append_assoc]⟩
      · rintro ⟨⟨libraries, i⟩, own, ⟨q, d, ⟨hleads, hget⟩, rfl⟩, rfl⟩
        cases libraries with
        | nil =>
            obtain rfl : q = _ := hleads
            exact .inl (List.mem_map.mpr ⟨d, List.mem_of_getElem? hget, by simp [dotted]⟩)
        | cons library libraries =>
            obtain ⟨r, hmem, hleads⟩ := hleads
            exact .inr ⟨(library, r), hmem, ⟨libraries, i⟩, _, ⟨q, d, ⟨hleads, hget⟩, rfl⟩,
              by simp [dotted, String.append_assoc]⟩

theorem mem_namesOfIncludes_iff : ∀ {includes : List (String × Package)} {path name : String},
    name ∈ Scope.namesOfIncludes path includes ↔
      ∃ u ∈ includes, ∃ site own, u.2.Defines site own ∧ name = path ++ u.1 ++ "." ++ own
  | [], path, name => by simp [Scope.namesOfIncludes]
  | (library, p) :: rest, path, name => by
      rw [Scope.namesOfIncludes, List.mem_append, mem_namesOf_iff, mem_namesOfIncludes_iff,
        List.exists_mem_cons_iff]

end

/-- What a package includes defines its names after the path to it. -/
theorem Defines.above {above : List String} (hq : p.Leads above q) (h : q.Defines site name) :
    p.Defines ⟨above ++ site.libraries, site.index⟩ (dotted above ++ name) := by
  obtain ⟨r, d, ⟨hleads, hget⟩, rfl⟩ := h
  refine ⟨r, d, ⟨leads_append_iff.mpr ⟨q, hq, hleads⟩, hget⟩, ?_⟩
  rw [dotted_append, String.append_assoc]

end Package

namespace Package

variable {includes : List (String × Package)} {functions : List Definition} {name : String}
  {p : Package}

theorem mem_insert {u : String × Package} (h : u ∈ insert name p includes) :
    u = (name, p) ∨ u ∈ includes := by
  induction includes with
  | nil => exact .inl (List.mem_singleton.mp h)
  | cons first rest ih =>
      rw [insert] at h
      split at h
      · exact List.mem_cons.mp h
      · split at h
        · exact (List.mem_cons.mp h).imp_right (List.mem_cons_of_mem _)
        · rcases List.mem_cons.mp h with rfl | h
          · exact .inr (List.mem_cons_self ..)
          · exact (ih h).imp_right (List.mem_cons_of_mem _)

theorem insert_pairwise (h : (includes.map Prod.fst).Pairwise (· < ·)) :
    ((insert name p includes).map Prod.fst).Pairwise (· < ·) := by
  induction includes with
  | nil => exact List.pairwise_singleton _ _
  | cons first rest ih =>
      rw [List.map_cons, List.pairwise_cons] at h
      rw [insert]
      split
      · rename_i hlt
        refine List.pairwise_cons.mpr ⟨fun other hother => ?_, List.pairwise_cons.mpr h⟩
        rcases List.mem_cons.mp hother with rfl | hother
        · exact hlt
        · exact hlt.trans (h.1 other hother)
      · rename_i hlt
        split
        · rename_i heq
          exact List.pairwise_cons.mpr ⟨heq ▸ h.1, h.2⟩
        · rename_i hne
          refine List.pairwise_cons.mpr ⟨fun other hother => ?_, ih h.2⟩
          obtain ⟨u, hu, rfl⟩ := List.mem_map.mp hother
          rcases mem_insert hu with rfl | hu
          · exact lt_of_le_of_ne (not_lt.mp hlt) (Ne.symm hne)
          · exact h.1 _ (List.mem_map_of_mem hu)

/-- A package put together from includes has them in order. -/
theorem ordered_ofIncludes (h : ∀ u ∈ includes, u.2.Ordered) :
    (ofIncludes includes functions).Ordered := by
  suffices hfold : ∀ (rest sorted : List (String × Package)), (∀ u ∈ rest, u.2.Ordered) →
      (mk sorted functions).Ordered →
      (mk (rest.foldl (fun sorted u => insert u.1 u.2 sorted) sorted) functions).Ordered from
    hfold includes [] h (.mk .nil fun u hu => by cases hu)
  intro rest
  induction rest with
  | nil => exact fun sorted _ hsorted => hsorted
  | cons first rest ih =>
      intro sorted hrest hsorted
      rw [List.forall_mem_cons] at hrest
      cases hsorted with
      | mk names included =>
          refine ih _ hrest.2 (.mk (insert_pairwise names) fun u hu => ?_)
          rcases mem_insert hu with rfl | hu
          · exact hrest.1
          · exact included u hu

end Package

end Source

/-! ## Calls in order -/

open Source

namespace Line

variable {ι : Type}

/-- The function that a line calls. -/
def callee? : Line ι → Option String
  | .plain _ => none
  | .call name => some name

/-- The functions that lines call, one after the other. -/
def callees (lines : List (Line ι)) : List String := lines.filterMap callee?

@[simp] theorem callees_append (a b : List (Line ι)) : callees (a ++ b) = callees a ++ callees b :=
  List.filterMap_append

@[simp] theorem callees_nil : callees ([] : List (Line ι)) = [] := rfl

@[simp] theorem callees_call (name : String) (lines : List (Line ι)) :
    callees (.call name :: lines) = name :: callees lines := rfl

@[simp] theorem callees_ofCode (code : List ι) : callees (ofCode code) = [] := by
  rw [callees, List.filterMap_eq_nil_iff]
  intro l hl
  obtain ⟨i, -, rfl⟩ := List.mem_map.mp hl
  rfl

/-- The names in emitted code are those of the calls. -/
theorem symbols_symbolic [InstructionSet ι] [InstructionSet.Nameless ι] (lines : List (Line ι)) :
    (lines.map symbolic).flatMap Instruction.symbols = callees lines := by
  induction lines with
  | nil => rfl
  | cons l lines ih =>
      rw [List.map_cons, List.flatMap_cons, ih]
      cases l with
      | plain i =>
          rw [symbolic, InstructionSet.Nameless.symbols_symbolic]
          rfl
      | call name => rfl

end Line

namespace Source

mutual

/-- The names that an expression calls, in the order in which they are called. Arguments and
operands come before the operation; of two operands the left one comes first, or the right
one if `rightFirst`. -/
def Expr.callOrder (rightFirst : Bool) : Expr → List String
  | .number _ | .boolean _ | .identifier _ => []
  | .unary _ operand => operand.callOrder rightFirst
  | .binary _ left right =>
    if rightFirst then right.callOrder rightFirst ++ left.callOrder rightFirst
    else left.callOrder rightFirst ++ right.callOrder rightFirst
  | .call f args => Expr.callOrderAll rightFirst args ++ [f]
  | .paren inner => inner.callOrder rightFirst

/-- The names that expressions call. -/
def Expr.callOrderAll (rightFirst : Bool) : List Expr → List String
  | [] => []
  | e :: es => e.callOrder rightFirst ++ Expr.callOrderAll rightFirst es

end

mutual

/-- The names in the code of a statement, in which the branch for zero stands before the other
one. -/
def Stmt.callOrder (rightFirst : Bool) : Stmt → List String
  | .var _ value | .assign _ value | .return value => value.callOrder rightFirst
  | .if cond onTrue none => cond.callOrder rightFirst ++ Stmt.callOrderAll rightFirst onTrue
  | .if cond onTrue (some onFalse) =>
    cond.callOrder rightFirst
      ++ (Stmt.callOrderAll rightFirst onFalse ++ Stmt.callOrderAll rightFirst onTrue)
  | .while cond body => cond.callOrder rightFirst ++ Stmt.callOrderAll rightFirst body

/-- The names in the code of statements. -/
def Stmt.callOrderAll (rightFirst : Bool) : List Stmt → List String
  | [] => []
  | s :: ss => s.callOrder rightFirst ++ Stmt.callOrderAll rightFirst ss

end

/-- The names in the code of a body. -/
def Body.callOrder (rightFirst : Bool) : Body → List String
  | .block ss => Stmt.callOrderAll rightFirst ss
  | .expression value => value.callOrder rightFirst

end Source

namespace Pieces

variable {ι : Type} [InstructionSet ι]

/-- The code of an expression calls what is written in it, in order. -/
def CallsInOrder (C : Pieces ι) (rightFirst : Bool) : Prop :=
  ∀ scope vars e, Line.callees (C.expr scope vars e)
    = (Expr.callOrder rightFirst e).map (Scope.qualify scope)

variable {C : Pieces ι} {scope : Scope} {rightFirst : Bool}

mutual

theorem callees_statement (hC : C.CallsInOrder rightFirst) : ∀ (s : Stmt) (vars : List String),
    Line.callees (C.statement scope vars s) = (s.callOrder rightFirst).map scope.qualify
  | .var x value, vars => by simp [statement, Stmt.callOrder, hC scope vars value]
  | .assign x value, vars => by simp [statement, Stmt.callOrder, hC scope vars value]
  | .return value, vars => by simp [statement, Stmt.callOrder, hC scope vars value]
  | .if cond onTrue none, vars => by
      simp [statement, conditional, Stmt.callOrder, hC scope vars cond,
        callees_statements hC onTrue vars]
  | .if cond onTrue (some onFalse), vars => by
      simp [statement, conditional, Stmt.callOrder, hC scope vars cond,
        callees_statements hC onTrue vars, callees_statements hC onFalse vars]
  | .while cond body, vars => by
      simp [statement, loop, round, Stmt.callOrder, hC scope vars cond,
        callees_statements hC body vars]

theorem callees_statements (hC : C.CallsInOrder rightFirst) :
    ∀ (ss : List Stmt) (vars : List String),
      Line.callees (C.statements scope vars ss)
        = (Stmt.callOrderAll rightFirst ss).map scope.qualify
  | [], vars => by simp [statements, Stmt.callOrderAll]
  | s :: ss, vars => by
      simp [statements, Stmt.callOrderAll, callees_statement hC s vars, callees_statements hC ss]

end

/-- The code of a body calls what is written in it, in order. -/
theorem callees_body (hC : C.CallsInOrder rightFirst) (vars : List String) (body : Body) :
    Line.callees (C.body scope vars body) = (body.callOrder rightFirst).map scope.qualify := by
  cases body with
  | block ss => simp [Pieces.body, Body.callOrder, callees_statements hC ss vars]
  | expression value => simp [Pieces.body, Body.callOrder, hC scope vars value]

end Pieces

namespace RegisterCode

variable {file : File} {scope : Scope} {vars : List String}

mutual

theorem callees_exprCode : ∀ (e : Expr) (t : Nat),
    Line.callees (exprCode file scope vars e t) = (e.callOrder false).map scope.qualify
  | .number n, t => by simp [exprCode, Expr.callOrder]
  | .boolean b, t => by simp [exprCode, Expr.callOrder]
  | .identifier x, t => by simp [exprCode, Expr.callOrder]
  | .paren inner, t => by simp [exprCode, Expr.callOrder, callees_exprCode inner t]
  | .unary op operand, t => by simp [exprCode, Expr.callOrder, callees_exprCode operand t]
  | .binary op left right, t => by
      simp [exprCode, Expr.callOrder, callees_exprCode left t, callees_exprCode right (t + 1)]
  | .call f args, t => by simp [exprCode, Expr.callOrder, callees_exprsCode args t]

theorem callees_exprsCode : ∀ (es : List Expr) (t : Nat),
    Line.callees (exprsCode file scope vars es t)
      = (Expr.callOrderAll false es).map scope.qualify
  | [], t => by simp [exprsCode, Expr.callOrderAll]
  | e :: es, t => by
      simp [exprsCode, Expr.callOrderAll, callees_exprCode e t, callees_exprsCode es (t + 1)]

end

theorem callsInOrder (file : File) : (pieces file).CallsInOrder false :=
  fun _ _ e => callees_exprCode e 0

end RegisterCode

namespace StackCode

variable {scope : Scope} {vars : List String}

mutual

theorem callees_exprCode : ∀ e : Expr,
    Line.callees (exprCode scope vars e) = (e.callOrder true).map scope.qualify
  | .number n => by simp [exprCode, Expr.callOrder]
  | .boolean b => by simp [exprCode, Expr.callOrder]
  | .identifier x => by simp [exprCode, Expr.callOrder]
  | .paren inner => by simp [exprCode, Expr.callOrder, callees_exprCode inner]
  | .unary op operand => by simp [exprCode, Expr.callOrder, callees_exprCode operand]
  | .binary op left right => by
      simp [exprCode, Expr.callOrder, callees_exprCode left, callees_exprCode right]
  | .call f args => by simp [exprCode, Expr.callOrder, callees_exprsCode args]

theorem callees_exprsCode : ∀ es : List Expr,
    Line.callees (exprsCode scope vars es) = (Expr.callOrderAll true es).map scope.qualify
  | [] => by simp [exprsCode, Expr.callOrderAll]
  | e :: es => by
      simp [exprsCode, Expr.callOrderAll, callees_exprCode e, callees_exprsCode es]

end

theorem callsInOrder : pieces.CallsInOrder true := fun _ _ e => callees_exprCode e

end StackCode

/-! ## Registered functions -/

namespace Scope

variable {q : Package} {path name : String}

/-- A name that the package defines means its own definition. -/
theorem qualify_of_defines {site : Site} (h : q.Defines site name) :
    (ofPackage path q).qualify name = path ++ name := by
  have hmem : name ∈ namesOf "" q := Package.mem_namesOf_iff.mpr ⟨site, name, h, by simp⟩
  by_cases hpath : path = ""
  · simp [qualify, ofPackage, hpath]
  · simp [qualify, ofPackage, hpath, hmem]

/-- Every other name is taken as it is written. -/
theorem qualify_of_not_defines (h : ∀ site, ¬q.Defines site name) :
    (ofPackage path q).qualify name = name := by
  have hmem : name ∉ namesOf "" q := by
    intro hmem
    obtain ⟨site, own, hdefines, rfl⟩ := Package.mem_namesOf_iff.mp hmem
    exact h site (by simpa using hdefines)
  simp [qualify, ofPackage, hmem]

end Scope

/-- The functions of a session with the sites of their definitions. -/
abbrev Directory := List (Site × CompiledFunction)

/-- A call of `name` that is written in the package `q`, at the end of a path of libraries, goes
to `target`: to the function of the definition that the package has for the name, or else
to the name as it is written. -/
structure Directory.Resolves (functions : Directory) (libraries : List String) (q : Package)
    (name target : String) : Prop where
  own : ∀ site, q.Defines site name → target = dotted libraries ++ name ∧
    ∃ f, (⟨libraries ++ site.libraries, site.index⟩, f) ∈ functions ∧ f.name = target
  other : (∀ site, ¬q.Defines site name) → target = name

/-- The functions are those of the package: one for each definition in the tree of includes,
under different names. -/
structure Directory.Registers (functions : Directory) (backend : Backend) (p : Package) :
    Prop where
  ordered : (functions.map Prod.fst).Pairwise Site.Before
  distinct : (functions.map Prod.fst).Nodup
  names : (functions.map (·.2.name)).Nodup
  defined : ∀ u ∈ functions, ∃ q d, p.Has u.1 q d
  /-- A definition is compiled in the scope of its package, under the path of its libraries, and
  each call in its code is the resolution of the call at the same place of the source. -/
  registered : ∀ site q d, p.Has site q d → ∃ f, (site, f) ∈ functions ∧
    f.name = dotted site.libraries ++ d.name ∧
    backend.compileFunction (Scope.ofPackage (dotted site.libraries) q) d = .ok f ∧
    List.Forall₂ (functions.Resolves site.libraries q)
      (d.body.callOrder (backend.target == .stack)) (f.body.flatMap Instruction.symbols)
  /-- The names of an included package are those that are gathered for it, after its path. -/
  included : ∀ libraries q, p.Leads libraries q → ∀ name,
    (∃ u ∈ functions, libraries <+: u.1.libraries ∧ u.2.name = name) ↔
      ∃ own ∈ Scope.namesOf "" q, name = dotted libraries ++ own

section

variable {ι : Type} [InstructionSet ι]

/-- The functions of a package as they are compiled, with their sites. -/
def Target.directory (T : Target ι) (p : Package) : Directory :=
  p.sited.map fun u =>
    (u.1, T.function (Scope.ofPackage (dotted u.1.libraries) u.2.1, u.2.2))

namespace Target

variable {T : Target ι} {p q : Package} {site : Site} {d : Definition}

theorem mem_directory_iff {f : CompiledFunction} : (site, f) ∈ T.directory p ↔
    ∃ q d, p.Has site q d ∧ f = T.function (Scope.ofPackage (dotted site.libraries) q, d) := by
  rw [directory, List.mem_map]
  constructor
  · rintro ⟨⟨site', q, d⟩, hmem, heq⟩
    cases heq
    exact ⟨q, d, Package.mem_sited_iff.mp hmem, rfl⟩
  · rintro ⟨q, d, hhas, rfl⟩
    exact ⟨(site, q, d), Package.mem_sited_iff.mpr hhas, rfl⟩

theorem map_directory : (T.directory p).map Prod.snd = (p.registered "").map T.function := by
  rw [Package.registered_eq, directory, List.map_map, List.map_map]
  simp [Function.comp_def]

/-- A name of an included package leads to its function. -/
theorem exists_mem_directory {libraries : List String} (hq : p.Leads libraries q) {name : String}
    (h : q.Defines site name) :
    ∃ f, (⟨libraries ++ site.libraries, site.index⟩, f) ∈ T.directory p ∧
      f.name = dotted libraries ++ name := by
  obtain ⟨r, d, hhas, hname⟩ := h.above hq
  exact ⟨_, mem_directory_iff.mpr ⟨r, d, hhas, rfl⟩, hname.symm⟩

theorem directory_resolves {libraries : List String} (hq : p.Leads libraries q) (name : String) :
    (T.directory p).Resolves libraries q name
      ((Scope.ofPackage (dotted libraries) q).qualify name) where
  own site h := by
    rw [Scope.qualify_of_defines h]
    exact ⟨rfl, exists_mem_directory hq h⟩
  other h := Scope.qualify_of_not_defines h

theorem directory_included (hp : p.Ordered) {libraries : List String} (hq : p.Leads libraries q)
    (name : String) :
    (∃ u ∈ T.directory p, libraries <+: u.1.libraries ∧ u.2.name = name) ↔
      ∃ own ∈ Scope.namesOf "" q, name = dotted libraries ++ own := by
  constructor
  · rintro ⟨⟨⟨_, i⟩, f⟩, hmem, ⟨below, rfl⟩, rfl⟩
    obtain ⟨r, d, ⟨hleads, hget⟩, rfl⟩ := mem_directory_iff.mp hmem
    obtain ⟨q', hq', hbelow⟩ := Package.leads_append_iff.mp hleads
    obtain rfl := hq'.unique hp hq
    refine ⟨dotted below ++ d.name, Package.mem_namesOf_iff.mpr ⟨⟨below, i⟩, _,
      ⟨r, d, ⟨hbelow, hget⟩, rfl⟩, by simp⟩, ?_⟩
    show dotted (libraries ++ below) ++ d.name = _
    rw [dotted_append, String.append_assoc]
  · rintro ⟨own, hown, rfl⟩
    obtain ⟨site, name, hdefines, rfl⟩ := Package.mem_namesOf_iff.mp hown
    obtain ⟨f, hf, hname⟩ := exists_mem_directory (T := T) hq hdefines
    exact ⟨_, hf, List.prefix_append .., by simpa using hname⟩

/-- What a session has compiled of a package is its directory. -/
theorem directory_registers {backend : Backend} (C : T.Compiler backend)
    [InstructionSet.Nameless ι] (hcalls : T.toPieces.CallsInOrder (backend.target == .stack))
    (hp : p.Ordered) (hfits : ∀ u ∈ p.registered "", T.FunctionFits u.2)
    (hnames : p.names.Nodup) : (T.directory p).Registers backend p where
  ordered := by
    rw [directory, List.map_map]
    exact Package.sited_pairwise hp
  distinct := by
    rw [directory, List.map_map]
    exact (Package.sited_pairwise hp).imp Site.Before.ne
  names := by
    have hmap : (T.directory p).map (·.2.name) = ((T.directory p).map Prod.snd).map (·.name) := by
      rw [List.map_map]
      rfl
    rw [hmap, map_directory, List.map_map]
    exact hnames
  defined := by
    rintro ⟨site, f⟩ hmem
    obtain ⟨q, d, hhas, -⟩ := mem_directory_iff.mp hmem
    exact ⟨q, d, hhas⟩
  registered site q d hhas := by
    refine ⟨_, mem_directory_iff.mpr ⟨q, d, hhas, rfl⟩, rfl, ?_, ?_⟩
    · have hmem : (Scope.ofPackage (dotted site.libraries) q, d) ∈ p.registered "" := by
        rw [Package.registered_eq]
        exact List.mem_map.mpr ⟨(site, q, d), Package.mem_sited_iff.mpr hhas, by simp⟩
      exact (C.generator.compileFunction_ok C.compileBody_eq).mpr ⟨hfits _ hmem, rfl⟩
    · have hsymbols : (T.function (Scope.ofPackage (dotted site.libraries) q, d)).body.flatMap
            Instruction.symbols
          = (d.body.callOrder (backend.target == .stack)).map
            (Scope.ofPackage (dotted site.libraries) q).qualify := by
        rw [Target.function, Line.symbols_symbolic, Pieces.callees_body hcalls]
      rw [hsymbols, List.forall₂_map_right_iff, List.forall₂_same]
      exact fun name _ => directory_resolves hhas.1 name
  included libraries q hq := directory_included hp hq

end Target

end

/-- A package that a fresh session compiles is registered as a whole: the libraries in the
order of their names before the package's own functions, each definition under its dotted path.
A call inside a library goes to the library's own definition of the name, whatever other
packages define. -/
theorem library_calls_resolve {backend : Backend} (hbackend : backend.Provided) {entry : String}
    {p : Package} (hp : p.Ordered) {s : Session}
    (h : ({ backend, entry } : Session).compile p = (none, s)) :
    ∃ functions : Directory, s.functions = functions.map Prod.snd ∧
      functions.Registers backend p := by
  cases hbackend with
  | register file =>
      obtain ⟨⟨hfits, hnames⟩, rfl⟩ :=
        (Session.compile_ok_iff (RegisterCode.compiler file)).mp h
      exact ⟨(RegisterCode.target file).directory p, Target.map_directory.symm,
        Target.directory_registers (RegisterCode.compiler file) (RegisterCode.callsInOrder file)
          hp hfits hnames⟩
  | stack =>
      obtain ⟨⟨hfits, hnames⟩, rfl⟩ := (Session.compile_ok_iff StackCode.compiler).mp h
      exact ⟨StackCode.target.directory p, Target.map_directory.symm,
        Target.directory_registers StackCode.compiler StackCode.callsInOrder hp hfits hnames⟩

/-- A library with functions `f` and `g` and a nested library that has an `f` too. -/
def shadowing : Package :=
  .ofIncludes [("in", .ofIncludes [] [⟨"f", [], .expression (.number 1)⟩])]
    [⟨"f", [], .expression (.call "in.f" [])⟩,
     ⟨"g", [], .expression (.binary .add (.call "f" []) (.call "h" []))⟩]

/-- A package with an `f` of its own and two libraries that have one. -/
def shadowed : Package :=
  .ofIncludes [("b", shadowing), ("a", .ofIncludes [] [⟨"f", [], .expression (.number 2)⟩])]
    [⟨"f", [], .expression (.number 3)⟩, ⟨"h", [], .expression (.number 4)⟩,
     ⟨"main", [], .expression (.call "b.g" [])⟩]

/-- The session that has compiled it for the stack machine. -/
def shadowedSession : Session :=
  (({ backend := StackCode.backend, entry := "main" } : Session).compile shadowed).2

theorem Source.Package.ordered_shadowed : shadowed.Ordered := by
  refine ordered_ofIncludes ?_
  have hempty : ∀ functions, (ofIncludes [] functions).Ordered := fun functions =>
    ordered_ofIncludes (by simp)
  simp [shadowing, hempty, ordered_ofIncludes]

/-- In the library `b`, a call of `f` goes to `b.f`, and one of `h` to the `h` of the package that
includes it. -/
theorem library_calls_resolve_shadowed :
    ∃ functions : Directory, functions.Registers StackCode.backend shadowed ∧
      functions.map (·.2.name) = ["a.f", "b.in.f", "b.f", "b.g", "f", "h", "main"] ∧
      ∃ f, (⟨["b"], 1⟩, f) ∈ functions ∧ f.body.flatMap Instruction.symbols = ["h", "b.f"] := by
  have hnames : shadowedSession.functions.map (·.name)
      = ["a.f", "b.in.f", "b.f", "b.g", "f", "h", "main"] := by decide +kernel
  have hcompile : ({ backend := StackCode.backend, entry := "main" } : Session).compile shadowed
      = (none, shadowedSession) := Prod.ext (by decide +kernel) rfl
  obtain ⟨functions, hfunctions, hregisters⟩ :=
    library_calls_resolve .stack Package.ordered_shadowed hcompile
  refine ⟨functions, hregisters, ?_, ?_⟩
  · rw [hfunctions, List.map_map] at hnames
    exact hnames
  · have hmem : ("b", shadowing) ∈ shadowed.includes := by decide +kernel
    obtain ⟨f, hf, -, -, hcalls⟩ := hregisters.registered ⟨["b"], 1⟩ shadowing _
      ⟨⟨_, hmem, rfl⟩, rfl⟩
    obtain ⟨h', rest, hh, hrest, hsymbols⟩ := List.forall₂_cons_left_iff.mp hcalls
    obtain ⟨f', rest', hf', hrest', rfl⟩ := List.forall₂_cons_left_iff.mp hrest
    obtain rfl := List.forall₂_nil_left_iff.mp hrest'
    have hmissing : ∀ site, ¬shadowing.Defines site "h" := by
      intro site hdefines
      have hmem : "h" ∈ Scope.namesOf "" shadowing :=
        Package.mem_namesOf_iff.mpr ⟨site, "h", hdefines, rfl⟩
      exact absurd hmem (by decide +kernel)
    have hdefined : shadowing.Defines ⟨[], 0⟩ "f" := ⟨shadowing, _, ⟨rfl, rfl⟩, rfl⟩
    refine ⟨f, hf, ?_⟩
    rw [hsymbols, hh.other hmissing, (hf'.own _ hdefined).1]
    rfl

end DualMachine
