import DualMachine.Proofs.Correctness
import DualMachine.Proofs.Reach
import DualMachine.Proofs.Room

/-!
# What sessions accept

A session compiles a package exactly when all of its functions fit and have different names
(`Session.compile_ok_iff`), and it can be finished exactly when the entry point is there and
every function that is called by a kept one is kept (`Link.Closed`). Names and calls
are those of the source, on both machines. So the sessions of the two machines differ in what
fits only: they keep the same functions in the same order, and where the register machine
alone refuses a package, it lacks room (`backends_accept_alike`).
-/

namespace DualMachine

open Source

/-- A session with one package fails, in compiling it or in the end. -/
def Refuses (backend : Backend) (entry : String) (p : Package) (e : CompileError) : Prop :=
  (∃ s, ({ backend, entry } : Session).compile p = (some e, s)) ∨
  ∃ s, ({ backend, entry } : Session).compile p = (none, s) ∧ s.finish = .error e

/-- The names that a package registers, in the order of compilation. -/
def Source.Package.names (p : Package) : List String :=
  (p.registered "").map fun u => u.1.define u.2.name

section

variable {ι : Type} [InstructionSet ι] {T : Target ι} {backend : Backend}

/-! ## Compiling a package -/

namespace SessionM

theorem addFunction_of_fits (C : T.Compiler backend) {s : Session} {scope : Scope}
    {d : Definition} (hbackend : s.backend = backend) (hs : s.Indexed) (hfits : T.FunctionFits d)
    (hnew : scope.define d.name ∉ s.functions.map (·.name)) :
    addFunction scope d s = .ok () (s.register (T.function (scope, d))) ∧
      (s.register (T.function (scope, d))).Indexed := by
  have hcompile : s.backend.compileFunction scope d = .ok (T.function (scope, d)) := by
    rw [hbackend]
    exact (C.generator.compileFunction_ok C.compileBody_eq).mpr ⟨hfits, rfl⟩
  have hlookup : s.index.lookup (T.function (scope, d)).name = none :=
    hs.lookup_eq_none_iff.mpr hnew
  refine ⟨?_, hs.register hlookup⟩
  rcases addFunction_cases scope d s with
    ⟨e, herror, -⟩ | ⟨f, hok, ⟨⟨i, htaken⟩, -⟩ | ⟨-, hadd⟩⟩
  · cases hcompile.symm.trans herror
  · obtain rfl := Except.ok.inj (hcompile.symm.trans hok)
    cases hlookup.symm.trans htaken
  · obtain rfl := Except.ok.inj (hcompile.symm.trans hok)
    exact hadd

/-- Functions that fit and have new names are all added. -/
theorem addAll_of_fits (C : T.Compiler backend) {us : List (Scope × Definition)} {s : Session}
    (hbackend : s.backend = backend) (hs : s.Indexed) (hfits : ∀ u ∈ us, T.FunctionFits u.2)
    (hnodup : (s.functions.map (·.name) ++ us.map fun u => u.1.define u.2.name).Nodup) :
    (forM us fun u => addFunction u.1 u.2) s = .ok () (s.registerAll (us.map T.function)) := by
  induction us generalizing s with
  | nil =>
      rw [List.map_nil, Session.registerAll_nil]
      rfl
  | cons u us ih =>
      have hnew : u.1.define u.2.name ∉ s.functions.map (·.name) := by
        intro hmem
        exact (List.nodup_append.mp hnodup).2.2 _ hmem _ (by simp) rfl
      obtain ⟨hfirst, hs₁⟩ := addFunction_of_fits C hbackend hs (hfits u (by simp)) hnew
      have hrest := ih (s := s.register (T.function u)) hbackend hs₁
        (fun v hv => hfits v (by simp [hv]))
        (by simpa [Session.register, Target.function] using hnodup)
      rw [Session.registerAll_register, ← List.map_cons] at hrest
      rw [List.forM_cons]
      exact bind_ok_iff.mpr ⟨(), _, hfirst, hrest⟩

/-- Where names differ, a function is refused by the code generator. -/
theorem addAll_error_of_nodup (C : T.Compiler backend) {us : List (Scope × Definition)}
    {s s' : Session} {e : CompileError} (hbackend : s.backend = backend) (hs : s.Indexed)
    (hnodup : (s.functions.map (·.name) ++ us.map fun u => u.1.define u.2.name).Nodup)
    (h : (forM us fun u => addFunction u.1 u.2) s = .error e s') :
    ∃ u ∈ us, backend.compileFunction u.1 u.2 = .error e := by
  induction us generalizing s with
  | nil => cases h
  | cons u us ih =>
      have hnew : u.1.define u.2.name ∉ s.functions.map (·.name) := by
        intro hmem
        exact (List.nodup_append.mp hnodup).2.2 _ hmem _ (by simp) rfl
      rw [List.forM_cons] at h
      rcases addFunction_cases u.1 u.2 s with
        ⟨e₁, hcompile, hadd⟩ | ⟨f, hcompile, ⟨⟨i, htaken⟩, -⟩ | ⟨hlookup, hadd⟩⟩
      · rw [bind_error hadd] at h
        rw [hbackend, (EStateM.Result.error.inj h).1] at hcompile
        exact ⟨u, by simp, hcompile⟩
      · rw [hbackend] at hcompile
        obtain ⟨-, rfl⟩ := (C.generator.compileFunction_ok C.compileBody_eq).mp hcompile
        cases (hs.lookup_eq_none_iff.mpr hnew).symm.trans htaken
      · rw [bind_ok hadd] at h
        rw [hbackend] at hcompile
        obtain ⟨-, rfl⟩ := (C.generator.compileFunction_ok C.compileBody_eq).mp hcompile
        obtain ⟨v, hv, herror⟩ := ih (s := s.register _) hbackend (hs.register hlookup)
          (by simpa [Session.register] using hnodup) h
        exact ⟨v, by simp [hv], herror⟩

end SessionM

namespace Session

/-- A package is compiled exactly when its functions fit and have different names. -/
theorem compile_ok_iff (C : T.Compiler backend) {entry : String} {p : Package} {s : Session} :
    ({ backend, entry } : Session).compile p = (none, s) ↔
      ((∀ u ∈ p.registered "", T.FunctionFits u.2) ∧ p.names.Nodup) ∧
        s = ({ backend, entry } : Session).registerAll ((p.registered "").map T.function) := by
  constructor
  · intro h
    have hindexed : s.Indexed := by
      have hgrows := (compile_cases { backend, entry } p).1
      rw [h] at hgrows
      exact hgrows.indexed .nil
    rw [compile, SessionM.addPackage_eq] at h
    cases hadd : (forM (p.registered "") fun u => SessionM.addFunction u.1 u.2 : SessionM Unit)
        { backend, entry } with
    | error e s' => rw [hadd] at h; cases h
    | ok _ s' =>
        rw [hadd] at h
        obtain ⟨hfits, rfl⟩ := SessionM.addAll_ok C rfl hadd
        obtain rfl := (Prod.mk.inj h).2
        have hnames := hindexed.nodup
        rw [registerAll_functions, List.nil_append, List.map_map] at hnames
        exact ⟨⟨hfits, hnames⟩, rfl⟩
  · rintro ⟨⟨hfits, hnodup⟩, rfl⟩
    rw [compile, SessionM.addPackage_eq,
      SessionM.addAll_of_fits (s := { backend, entry }) C rfl .nil hfits hnodup]

/-- Where names differ, a package is refused for one of its functions. -/
theorem compile_error (C : T.Compiler backend) {entry : String} {p : Package} {s : Session}
    {e : CompileError} (hnames : p.names.Nodup)
    (h : ({ backend, entry } : Session).compile p = (some e, s)) :
    ∃ u ∈ p.registered "", backend.compileFunction u.1 u.2 = .error e := by
  rw [compile, SessionM.addPackage_eq] at h
  cases hadd : (forM (p.registered "") fun u => SessionM.addFunction u.1 u.2 : SessionM Unit)
      { backend, entry } with
  | ok _ s' => rw [hadd] at h; cases h
  | error e₁ s' =>
      rw [hadd] at h
      obtain rfl := Option.some.inj (Prod.mk.inj h).1
      exact SessionM.addAll_error_of_nodup (s := { backend, entry }) C rfl .nil hnames hadd

end Session

/-! ## Finishing a session -/

namespace Link

/-- Lines are resolved and encoded when their names have addresses. -/
theorem encode_of_named {symbols : List (String × Nat)} {lines : List (Line ι)}
    (h : ∀ name, Line.call name ∈ lines → ∃ address, symbols.lookup name = some address) :
    ∃ resolved bytes, (lines.map Line.symbolic).mapM (resolveCalls symbols) = .ok resolved ∧
      Instruction.encodeAll resolved = .ok bytes := by
  induction lines with
  | nil => exact ⟨[], [], rfl, rfl⟩
  | cons l lines ih =>
      obtain ⟨resolved, bytes, hresolved, hbytes⟩ := ih fun name hname => h name (by simp [hname])
      obtain ⟨i, hi⟩ : ∃ i, resolveCalls symbols l.symbolic = .ok i := by
        cases l with
        | plain i =>
            refine ⟨InstructionSet.symbolic i, ?_⟩
            rw [resolveCalls, Line.symbolic, InstructionSet.resolve_symbolic]
        | call name =>
            obtain ⟨address, hlookup⟩ := h name (by simp)
            have hfound : address? symbols name = some (address : Int) := by
              rw [address?, hlookup]
              rfl
            obtain ⟨i, hresolve, -⟩ := InstructionSet.resolve_call (ι := ι) _ name _ hfound
            refine ⟨i, ?_⟩
            rw [resolveCalls, Line.symbolic, hresolve]
      refine ⟨i :: resolved, InstructionSet.bytes (l.link (target symbols)) ++ bytes, ?_, ?_⟩
      · rw [List.map_cons, List.mapM_cons, hi, hresolved]
        rfl
      · rw [Instruction.encodeAll, (resolveCalls_ok hi).1, hbytes]
        rfl

/-- Every name that is called is that of one of the functions. -/
def Closed (functions : List CompiledFunction) : Prop :=
  ∀ f ∈ functions, ∀ name ∈ f.callees, name ∈ functions.map (·.name)

@[simp] theorem map_fst_place (offset : Nat) (fs : List CompiledFunction) :
    (place offset fs).map Prod.fst = fs.map (·.name) := by
  induction fs generalizing offset with
  | nil => rfl
  | cons f fs ih => rw [place, List.map_cons, ih, List.map_cons]

theorem lookup_place {offset : Nat} {fs : List CompiledFunction} {name : String} :
    (∃ address, (place offset fs).lookup name = some address) ↔ name ∈ fs.map (·.name) := by
  rw [← map_fst_place offset fs, ← Option.isSome_iff_exists, List.lookup_isSome_iff,
    List.mem_map]
  exact exists_congr fun entry => and_congr_right fun _ => beq_iff_eq.trans eq_comm

theorem le_of_mem_place {offset : Nat} {fs : List CompiledFunction} {entry : String × Nat}
    (h : entry ∈ place offset fs) : offset ≤ entry.2 := by
  induction fs generalizing offset with
  | nil => cases h
  | cons f fs ih =>
      rw [place] at h
      rcases List.mem_cons.mp h with rfl | h
      · exact Nat.le_refl _
      · exact Nat.le_trans (Nat.le_add_right ..) (ih h)

/-- Functions with code have ascending offsets. -/
theorem place_ascending {offset : Nat} {fs : List CompiledFunction}
    (h : ∀ f ∈ fs, 0 < f.length) : (place offset fs).Pairwise (·.2 < ·.2) := by
  induction fs generalizing offset with
  | nil => exact .nil
  | cons f fs ih =>
      refine .cons (fun entry hentry => ?_) (ih fun g hg => h g (by simp [hg]))
      have hpos := h f (by simp)
      have hle := le_of_mem_place hentry
      dsimp only
      omega

end Link

namespace Session

variable {entry : String} {us : List (Scope × Definition)} {kept : List CompiledFunction}
  {program : Program}

/-- Where a session can be finished, the functions that the kept ones call are kept. -/
theorem finish_closed (C : T.Compiler backend) [InstructionSet.Nameless ι]
    (h : (({ backend, entry } : Session).registerAll (us.map T.function)).finish = .ok program) :
    ∃ kept, Link.reachable (us.map T.function) entry = .ok kept ∧ Link.Closed kept ∧
      program.symbols
        = Link.place (Instruction.totalLength (backend.preamble entry)) kept := by
  obtain ⟨kept, hkept, hcollapse⟩ := collapse_of_registered h
  obtain ⟨u, vs, rfl, rfl, -⟩ := Link.reachable_ok hkept
  obtain ⟨hsymbols, resolved, hresolved, hbytes⟩ := Link.collapse_ok hcollapse
  rw [C.code_eq] at hresolved
  obtain ⟨-, hnames⟩ := Link.encodeAll_resolved hresolved hbytes
  refine ⟨(u :: vs).map T.function, hkept, fun f hf name hname => ?_, hsymbols⟩
  obtain ⟨v, hv, rfl⟩ := List.mem_map.mp hf
  rw [CompiledFunction.mem_callees_lines rfl] at hname
  rw [hsymbols] at hnames
  refine Link.lookup_place.mp (hnames name (List.mem_append_right _ ?_))
  exact List.mem_flatMap.mpr ⟨v, hv, hname⟩

/-- A session can be finished if the functions that the kept ones call are kept. -/
theorem finish_of_closed (C : T.Compiler backend) [InstructionSet.Nameless ι]
    (hkept : Link.reachable (us.map T.function) entry = .ok kept) (hclosed : Link.Closed kept) :
    ∃ program, (({ backend, entry } : Session).registerAll (us.map T.function)).finish
        = .ok program ∧
      program.symbols
        = Link.place (Instruction.totalLength (backend.preamble entry)) kept := by
  obtain ⟨u, vs, rfl, rfl, -⟩ := Link.reachable_ok hkept
  have hnamed : ∀ name, Line.call name ∈ T.programLines (T.function u).name (u :: vs) →
      ∃ address, (Link.place (Instruction.totalLength (backend.preamble (T.function u).name))
        ((u :: vs).map T.function)).lookup name = some address := by
    intro name hname
    refine Link.lookup_place.mpr ?_
    rcases List.mem_append.mp hname with hname | hname
    · -- the preamble calls the entry point, which is kept first
      obtain rfl : name = (T.function u).name := by simpa using hname
      simp
    · obtain ⟨v, hv, hname⟩ := List.mem_flatMap.mp hname
      exact hclosed _ (List.mem_map_of_mem hv) name
        ((CompiledFunction.mem_callees_lines rfl).mpr hname)
  obtain ⟨resolved, bytes, hresolved, hbytes⟩ := Link.encode_of_named hnamed
  rw [← C.code_eq] at hresolved
  refine ⟨⟨backend.target, bytes, _⟩, ?_, rfl⟩
  refine bind_eq_ok_iff.mpr ⟨_, hkept, bind_eq_ok_iff.mpr ⟨(bytes, _), ?_, rfl⟩⟩
  refine bind_eq_ok_iff.mpr ⟨resolved, hresolved, ?_⟩
  rw [hbytes]
  rfl

/-- Sessions of two machines with the same functions keep the same ones in the same order. -/
theorem finish_alike {κ : Type} [InstructionSet κ] [InstructionSet.Nameless ι]
    [InstructionSet.Nameless κ] {U : Target κ} {backend' : Backend} (C : T.Compiler backend)
    (D : U.Compiler backend') (hT : T.CallsAsWritten) (hU : U.CallsAsWritten)
    (h : (({ backend, entry } : Session).registerAll (us.map T.function)).finish = .ok program) :
    ∃ program', (({ backend := backend', entry } : Session).registerAll (us.map U.function)).finish
        = .ok program' ∧
      program'.symbols.map Prod.fst = program.symbols.map Prod.fst := by
  have hcallees : ∀ (u : Scope × Definition) (name : String),
      name ∈ (U.function u).callees ↔ name ∈ (T.function u).callees := by
    intro u name
    rw [CompiledFunction.mem_callees_lines rfl, CompiledFunction.mem_callees_lines rfl,
      Pieces.mem_body_iff hT, Pieces.mem_body_iff hU]
  obtain ⟨kept, hkept, hclosed, hsymbols⟩ := finish_closed C h
  obtain ⟨vs, -, rfl, hkept'⟩ := Link.reachable_alike (f := T.function) (g := U.function)
    (fun _ _ => rfl) (fun u _ => hcallees u) hkept
  have hnames : (vs.map U.function).map (·.name) = (vs.map T.function).map (·.name) := by
    rw [List.map_map, List.map_map]
    rfl
  obtain ⟨program', hfinish, hsymbols'⟩ := finish_of_closed D hkept' (by
    intro f hf name hname
    obtain ⟨v, hv, rfl⟩ := List.mem_map.mp hf
    rw [hnames]
    exact hclosed _ (List.mem_map_of_mem hv) name ((hcallees v name).mp hname))
  refine ⟨program', hfinish, ?_⟩
  rw [hsymbols, hsymbols', Link.map_fst_place, Link.map_fst_place, hnames]

/-- The functions of a program are listed by ascending offsets. -/
theorem finish_ascending (C : T.Compiler backend) [InstructionSet.Nameless ι] (hret : T.ret ≠ [])
    (h : (({ backend, entry } : Session).registerAll (us.map T.function)).finish = .ok program) :
    program.symbols.Pairwise (·.2 < ·.2) := by
  obtain ⟨kept, hkept, -, hsymbols⟩ := finish_closed C h
  obtain ⟨u, vs, rfl, -, -⟩ := Link.reachable_ok hkept
  rw [hsymbols]
  refine Link.place_ascending fun f hf => ?_
  obtain ⟨v, -, rfl⟩ := List.mem_map.mp hf
  -- every body ends with a return
  obtain ⟨lines, hbody⟩ : ∃ lines, T.body v.1 v.2.args v.2.body = lines ++ Line.ofCode T.ret := by
    cases v.2.body with
    | block ss => exact ⟨_, rfl⟩
    | expression value => exact ⟨_, rfl⟩
  rw [CompiledFunction.length, Target.function, Line.totalLength_symbolic, hbody,
    Line.length_append, Line.length_ofCode]
  obtain ⟨i, code, hcode⟩ := List.exists_cons_of_ne_nil hret
  have hpos := width_pos i
  rw [hcode, codeLength_cons]
  omega

end Session

end

/-! ## The two machines -/

/-- What the register machine's compiler makes a program of, the stack machine's does too, and
the programs have the same functions in the same order. Where only the register machine's
compiler fails, it is for lack of registers or frame slots. -/
theorem backends_accept_alike (file : RegisterCode.File) (entry : String) (p : Package) :
    (∀ program, Compiles (RegisterCode.backend file) entry p program →
      ∃ program', Compiles StackCode.backend entry p program' ∧
        program'.symbols.map Prod.fst = program.symbols.map Prod.fst ∧
        program.symbols.Pairwise (·.2 < ·.2) ∧ program'.symbols.Pairwise (·.2 < ·.2)) ∧
    (∀ program e, Compiles StackCode.backend entry p program →
      Refuses (RegisterCode.backend file) entry p e →
      (∃ function needed available, e = .registerPressure function needed available) ∨
        ∃ function slots, e = .frameOverflow function slots) := by
  have hregister := RegisterCode.callsAsWritten file
  have hstack := StackCode.callsAsWritten
  constructor
  · rintro program ⟨s, hcompile, hfinish⟩
    obtain ⟨⟨hfits, hnames⟩, rfl⟩ :=
      (Session.compile_ok_iff (RegisterCode.compiler file)).mp hcompile
    obtain ⟨program', hfinish', hsymbols⟩ :=
      Session.finish_alike (RegisterCode.compiler file) StackCode.compiler hregister hstack hfinish
    refine ⟨program', ⟨_, (Session.compile_ok_iff StackCode.compiler).mpr ⟨⟨?_, hnames⟩, rfl⟩,
      hfinish'⟩, hsymbols, ?_, ?_⟩
    · exact fun u hu => RegisterCode.functionFits_stack (hfits u hu)
    · exact Session.finish_ascending (RegisterCode.compiler file) (by simp [RegisterCode.target,
        RegisterCode.pieces]) hfinish
    · exact Session.finish_ascending StackCode.compiler (by simp [StackCode.target,
        StackCode.pieces]) hfinish'
  · rintro program e ⟨s, hcompile, hfinish⟩ hrefuses
    obtain ⟨⟨hfits, hnames⟩, rfl⟩ := (Session.compile_ok_iff StackCode.compiler).mp hcompile
    have hroom : e.ofRoom = true := by
      rcases hrefuses with ⟨s, hfail⟩ | ⟨s, hcompile', hfail⟩
      · obtain ⟨u, hu, herror⟩ := Session.compile_error (RegisterCode.compiler file) hnames hfail
        exact RegisterCode.compileFunction_error (hfits u hu) herror
      · -- the register machine has compiled all functions, so it can finish as well
        obtain ⟨-, rfl⟩ := (Session.compile_ok_iff (RegisterCode.compiler file)).mp hcompile'
        obtain ⟨program', hfinish', -⟩ := Session.finish_alike StackCode.compiler
          (RegisterCode.compiler file) hstack hregister hfinish
        rw [hfail] at hfinish'
        cases hfinish'
    cases e with
    | registerPressure function needed available => exact .inl ⟨_, _, _, rfl⟩
    | frameOverflow function slots => exact .inr ⟨_, _, rfl⟩
    | _ => cases hroom

/-- The smallest register file, with one temporary. -/
def RegisterCode.File.least : File := ⟨3, by decide, by decide⟩

theorem backends_accept_alike_ratio :
    (∃ program', Compiles StackCode.backend "main" ratio program' ∧
      program'.symbols.map Prod.fst = ["main", "double"]) ∧
    ∃ e, Refuses (RegisterCode.backend .least) "main" ratio e ∧
      ((∃ function needed available, e = .registerPressure function needed available) ∨
        ∃ function slots, e = .frameOverflow function slots) := by
  have hnames : (ratioProgram .register).symbols.map Prod.fst = ["main", "double"] := by
    decide +kernel
  have hfailure : (({ backend := RegisterCode.backend .least, entry := "main" } : Session).compile
      ratio).1 = some (.registerPressure "double" 4 3) := by decide +kernel
  have hrefuses : Refuses (RegisterCode.backend .least) "main" ratio
      (.registerPressure "double" 4 3) := .inl ⟨_, Prod.ext hfailure rfl⟩
  obtain ⟨program', hcompiles, hsymbols, -⟩ :=
    (backends_accept_alike .standard "main" ratio).1 _ (ratio_compiles .register)
  exact ⟨⟨program', hcompiles, hsymbols.trans hnames⟩, _, hrefuses,
    (backends_accept_alike .least "main" ratio).2 _ _ (ratio_compiles .stack) hrefuses⟩

end DualMachine
