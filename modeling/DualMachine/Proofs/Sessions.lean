import DualMachine.Session
import DualMachine.Proofs.Emission
import DualMachine.Proofs.Evaluation

/-!
# Sessions

A session changes in one way only: a function that was compiled is added under a name that
the index does not have (`Session.Adds`). All that packages do to a session are such steps, one
after the other, also where a package fails midway (`Session.compile_cases`,
`Session.compileAll_grows`). So what one step keeps, sessions keep: the index stays in step
with the functions (`Session.Grows.indexed`), and the functions that are there stay where they
are (`Session.Grows.functions_kept`).
-/

namespace DualMachine

open Source

namespace Session

/-- Adds functions one after the other. -/
def registerAll (s : Session) (fs : List CompiledFunction) : Session :=
  { s with
    functions := s.functions ++ fs
    index := ((fs.zipIdx s.functions.length).map fun u => (u.1.name, u.2)).reverse ++ s.index }

@[simp] theorem registerAll_functions (s : Session) (fs : List CompiledFunction) :
    (s.registerAll fs).functions = s.functions ++ fs := rfl

@[simp] theorem registerAll_nil (s : Session) : s.registerAll [] = s := by
  simp [registerAll]

theorem registerAll_register (s : Session) (f : CompiledFunction) (fs : List CompiledFunction) :
    (s.register f).registerAll fs = s.registerAll (f :: fs) := by
  simp [registerAll, register, List.zipIdx_cons]

theorem registerAll_registerAll (s : Session) (fs gs : List CompiledFunction) :
    (s.registerAll fs).registerAll gs = s.registerAll (fs ++ gs) := by
  simp [registerAll, List.zipIdx_append, Nat.add_comm]

/-- The session after several packages, whether they could be compiled or not. -/
def compileAll (s : Session) (ps : List Package) : Session :=
  ps.foldl (fun s p => (s.compile p).2) s

/-! ## The index -/

/-- Names are different, and the index has the position of every function. -/
structure Indexed (s : Session) : Prop where
  nodup : (s.functions.map (·.name)).Nodup
  lookup_iff : ∀ name i,
    s.index.lookup name = some i ↔ ∃ f, s.functions[i]? = some f ∧ f.name = name

namespace Indexed

variable {s : Session} {f : CompiledFunction}

theorem nil {backend : Backend} {entry : String} : ({ backend, entry } : Session).Indexed where
  nodup := .nil
  lookup_iff name i := by simp

theorem lookup_eq_none_iff (hs : s.Indexed) {name : String} :
    s.index.lookup name = none ↔ name ∉ s.functions.map (·.name) := by
  rw [Option.eq_none_iff_forall_ne_some, List.mem_map]
  constructor
  · rintro hnone ⟨f, hf, hname⟩
    obtain ⟨i, hi⟩ := List.mem_iff_getElem?.mp hf
    exact hnone i ((hs.lookup_iff name i).mpr ⟨f, hi, hname⟩)
  · intro hnew i hi
    obtain ⟨f, hf, hname⟩ := (hs.lookup_iff name i).mp hi
    exact hnew ⟨f, List.mem_of_getElem? hf, hname⟩

/-- List and index stay in step when a function with a new name is added. -/
theorem register (hs : s.Indexed) (hnew : s.index.lookup f.name = none) :
    (s.register f).Indexed := by
  have hfresh := hs.lookup_eq_none_iff.mp hnew
  refine ⟨?_, fun name i => ?_⟩
  · rw [Session.register, List.map_append, List.nodup_append]
    refine ⟨hs.nodup, by simp, fun a ha b hb => ?_⟩
    rw [List.map_singleton, List.mem_singleton] at hb
    rintro rfl
    exact hfresh (hb ▸ ha)
  · -- a position is an old one or the last
    have hposition : ∀ g, (s.functions ++ [f])[i]? = some g ↔
        s.functions[i]? = some g ∨ i = s.functions.length ∧ f = g := by
      intro g
      rcases Nat.lt_trichotomy i s.functions.length with hlt | rfl | hgt
      · simp [List.getElem?_append_left hlt, hlt.ne]
      · simp
      · simp [List.getElem?_eq_none, hgt.ne', Nat.le_of_lt hgt, Nat.succ_le_of_lt hgt]
    show ((f.name, s.functions.length) :: s.index).lookup name = some i ↔
      ∃ g, (s.functions ++ [f])[i]? = some g ∧ g.name = name
    simp only [hposition, or_and_right, exists_or, ← hs.lookup_iff]
    rw [List.lookup_cons]
    by_cases hname : name = f.name
    · subst hname
      simp [hnew, eq_comm]
    · rw [beq_false_of_ne hname]
      simp [Ne.symm hname]

end Indexed

/-! ## Steps of a session -/

/-- A function that the backend has compiled is added under a new name. -/
def Adds (s s' : Session) : Prop :=
  ∃ scope d f, s.backend.compileFunction scope d = .ok f ∧ s.index.lookup f.name = none ∧
    s' = s.register f

/-- Functions are added one after the other. -/
abbrev Grows : Session → Session → Prop := Relation.ReflTransGen Adds

variable {s s' : Session}

theorem Grows.indexed (h : s.Grows s') (hs : s.Indexed) : s'.Indexed := by
  induction h with
  | refl => exact hs
  | tail _ hadds ih =>
      obtain ⟨scope, d, f, -, hnew, rfl⟩ := hadds
      exact ih.register hnew

theorem Grows.functions_kept (h : s.Grows s') : s.functions <+: s'.functions := by
  induction h with
  | refl => exact List.prefix_rfl
  | tail _ hadds ih =>
      obtain ⟨scope, d, f, -, -, rfl⟩ := hadds
      exact ih.trans (List.prefix_append _ [f])

theorem Grows.backend_eq (h : s.Grows s') : s'.backend = s.backend := by
  induction h with
  | refl => rfl
  | tail _ hadds ih =>
      obtain ⟨scope, d, f, -, -, rfl⟩ := hadds
      exact ih

end Session

/-! ## Packages -/

namespace SessionM

mutual

/-- A package is compiled one function after the other. -/
theorem addPackage_eq : ∀ (path : String) (p : Package),
    addPackage path p = forM (p.registered path) fun u => addFunction u.1 u.2
  | path, .mk includes functions => by
      rw [addPackage, Package.registered, List.forM_append, List.forM_map,
        addIncludes_eq path includes]
      rfl

theorem addIncludes_eq : ∀ (path : String) (includes : List (String × Package)),
    addIncludes path includes
      = forM (Package.registeredIn path includes) fun u => addFunction u.1 u.2
  | path, [] => by
      rw [addIncludes, Package.registeredIn, List.forM_nil]
  | path, (name, p) :: rest => by
      rw [addIncludes, Package.registeredIn, List.forM_append, addPackage_eq,
        addIncludes_eq path rest]

end

theorem get_bind {α : Type} (f : Session → SessionM α) (s : Session) :
    ((get : SessionM Session) >>= f) s = f s s := rfl

section

variable {α β : Type} {x : SessionM α} {f : α → SessionM β} {a : α} {e : CompileError}
  {s s' : Session}

theorem bind_ok (h : x s = .ok a s') : (x >>= f) s = f a s' := by
  show EStateM.bind x f s = f a s'
  rw [EStateM.bind, h]

theorem bind_error (h : x s = .error e s') : (x >>= f) s = .error e s' := by
  show EStateM.bind x f s = .error e s'
  rw [EStateM.bind, h]

end

/-- A function cannot be compiled, or its name is taken, or it is added. -/
theorem addFunction_cases (scope : Scope) (d : Definition) (s : Session) :
    (∃ e, s.backend.compileFunction scope d = .error e ∧ addFunction scope d s = .error e s) ∨
    ∃ f, s.backend.compileFunction scope d = .ok f ∧
      ((∃ i, s.index.lookup f.name = some i) ∧
          addFunction scope d s = .error (.duplicateFunction f.name) s ∨
        s.index.lookup f.name = none ∧ addFunction scope d s = .ok () (s.register f)) := by
  rw [addFunction, get_bind]
  cases hcompile : s.backend.compileFunction scope d with
  | error e => exact .inl ⟨e, rfl, rfl⟩
  | ok f =>
      refine .inr ⟨f, rfl, ?_⟩
      cases hlookup : s.index.lookup f.name with
      | some i =>
          refine .inl ⟨⟨i, rfl⟩, ?_⟩
          dsimp only
          rw [hlookup, Option.isSome_some, if_pos rfl]
          rfl
      | none =>
          refine .inr ⟨rfl, ?_⟩
          dsimp only
          rw [hlookup, Option.isSome_none, if_neg Bool.false_ne_true]
          rfl

/-- Functions are added up to the first that cannot be. -/
theorem addAll_grows (us : List (Scope × Definition)) (s : Session) :
    (∃ s', (forM us fun u => addFunction u.1 u.2) s = .ok () s' ∧ s.Grows s') ∨
    ∃ e s', (forM us fun u => addFunction u.1 u.2) s = .error e s' ∧ s.Grows s' ∧
      ((∃ u ∈ us, s.backend.compileFunction u.1 u.2 = .error e) ∨
        ∃ name i, e = .duplicateFunction name ∧ s'.index.lookup name = some i) := by
  induction us generalizing s with
  | nil => exact .inl ⟨s, rfl, .refl⟩
  | cons u us ih =>
      rw [List.forM_cons]
      rcases addFunction_cases u.1 u.2 s with
        ⟨e, hcompile, hadd⟩ | ⟨f, hcompile, ⟨⟨i, htaken⟩, hadd⟩ | ⟨hnew, hadd⟩⟩
      · exact .inr ⟨e, s, bind_error hadd, .refl, .inl ⟨u, by simp, hcompile⟩⟩
      · exact .inr ⟨_, s, bind_error hadd, .refl, .inr ⟨f.name, i, rfl, htaken⟩⟩
      · -- the other functions are added to a session that has this one
        have hfirst : s.Adds (s.register f) := ⟨u.1, u.2, f, hcompile, hnew, rfl⟩
        rw [bind_ok hadd]
        rcases ih (s.register f) with ⟨s', hrest, hgrows⟩ | ⟨e, s', hrest, hgrows, hcause⟩
        · exact .inl ⟨s', hrest, .head hfirst hgrows⟩
        · refine .inr ⟨e, s', hrest, .head hfirst hgrows, hcause.imp_left ?_⟩
          rintro ⟨v, hv, herror⟩
          exact ⟨v, by simp [hv], herror⟩

end SessionM

namespace Session

/-- What compiling a package does to a session. -/
theorem compile_cases (s : Session) (p : Package) :
    s.Grows (s.compile p).2 ∧ ∀ e, (s.compile p).1 = some e →
      (∃ scope d, s.backend.compileFunction scope d = .error e) ∨
      ∃ name i, e = .duplicateFunction name ∧ (s.compile p).2.index.lookup name = some i := by
  rw [compile, SessionM.addPackage_eq]
  rcases SessionM.addAll_grows (p.registered "") s with
    ⟨s', hadd, hgrows⟩ | ⟨e, s', hadd, hgrows, hcause⟩
  · rw [hadd]
    refine ⟨hgrows, fun e he => ?_⟩
    cases he
  · rw [hadd]
    refine ⟨hgrows, fun e' he => ?_⟩
    obtain rfl := Option.some.inj he
    refine hcause.imp_left ?_
    rintro ⟨u, -, herror⟩
    exact ⟨u.1, u.2, herror⟩

theorem compileAll_grows (s : Session) (ps : List Package) : s.Grows (s.compileAll ps) := by
  induction ps generalizing s with
  | nil => exact .refl
  | cons p ps ih => exact (compile_cases s p).1.trans (ih (s.compile p).2)

end Session

end DualMachine
