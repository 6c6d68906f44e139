import DualMachine.Proofs.Activation
import DualMachine.Proofs.Sessions

/-!
# Linked programs

From a session that compiles a package and is finished to a `World`. A session keeps
the code of every function of the package (`SessionM.addAll_ok`), under names that are all
different (`Session.Indexed`), so a name leads to the function that it is registered
for. Finishing keeps some of these functions, gives each the offset at which its code
begins (`Link.place_lookup`) and resolves every call
(`Link.encodeAll_resolved`). The bytes are thus the encoding of instructions in which
every address that a name has is the position of a function with this name
(`Session.finish_ok`), and for one package it is the function that the package has for it
(`exists_world`).
-/

namespace DualMachine

open Source

/-- What a backend has to be to generate the code of a target. -/
structure Target.Compiler {ι : Type} [InstructionSet ι] (T : Target ι) (backend : Backend) where
  generator : Generator T.toPieces
  compileBody_eq : backend.compileBody = generator.body
  preamble_eq : ∀ entry, backend.preamble entry
    = [Line.call entry, Line.plain (InstructionSet.halt : ι)].map Line.symbolic
  table_eq : backend.target.machine.table = InstructionSet.table ι

section

variable {ι : Type} [InstructionSet ι]

/-- A function of a package as it is compiled. -/
def Target.function (T : Target ι) (u : Scope × Definition) : CompiledFunction where
  name := u.1.define u.2.name
  arity := u.2.args.length
  body := (T.body u.1 u.2.args u.2.body).map Line.symbolic

theorem Line.totalLength_symbolic (lines : List (Line ι)) :
    Instruction.totalLength (lines.map Line.symbolic) = Line.length lines := by
  rw [Instruction.totalLength, List.map_map, Line.length]
  rfl

/-! ## Sessions -/

namespace SessionM

variable {T : Target ι} {backend : Backend}

theorem addFunction_ok (C : T.Compiler backend) {s s' : Session} {scope : Scope} {d : Definition}
    (hbackend : s.backend = backend) (h : addFunction scope d s = .ok () s') :
    T.FunctionFits d ∧ s' = s.register (T.function (scope, d)) := by
  rcases addFunction_cases scope d s with
    ⟨e, -, hadd⟩ | ⟨f, hcompile, ⟨-, hadd⟩ | ⟨-, hadd⟩⟩
  · cases hadd.symm.trans h
  · cases hadd.symm.trans h
  · rw [hbackend] at hcompile
    obtain ⟨hfits, rfl⟩ := (C.generator.compileFunction_ok C.compileBody_eq).mp hcompile
    obtain ⟨-, rfl⟩ := EStateM.Result.ok.inj (hadd.symm.trans h)
    exact ⟨hfits, rfl⟩

/-- A function that cannot be added leaves the session as it was. -/
theorem addFunction_error {s s' : Session} {scope : Scope} {d : Definition} {e : CompileError}
    (h : addFunction scope d s = .error e s') : s' = s := by
  rcases addFunction_cases scope d s with
    ⟨e, -, hadd⟩ | ⟨f, -, ⟨-, hadd⟩ | ⟨-, hadd⟩⟩
  · exact (EStateM.Result.error.inj (h.symm.trans hadd)).2
  · exact (EStateM.Result.error.inj (h.symm.trans hadd)).2
  · cases hadd.symm.trans h

/-- Functions that could all be added. -/
theorem addAll_ok (C : T.Compiler backend) {us : List (Scope × Definition)} {s s' : Session}
    (hbackend : s.backend = backend)
    (h : (forM us fun u => addFunction u.1 u.2) s = .ok () s') :
    (∀ u ∈ us, T.FunctionFits u.2) ∧ s' = s.registerAll (us.map T.function) := by
  induction us generalizing s with
  | nil =>
      obtain ⟨-, rfl⟩ := EStateM.Result.ok.inj h
      exact ⟨fun u hu => (nomatch hu), s.registerAll_nil.symm⟩
  | cons u us ih =>
      rw [List.forM_cons] at h
      obtain ⟨_, s₁, hfirst, hrest⟩ := bind_ok_iff.mp h
      obtain ⟨hfits, rfl⟩ := addFunction_ok C hbackend hfirst
      obtain ⟨hall, rfl⟩ := ih (s := s.register (T.function u)) hbackend hrest
      refine ⟨List.forall_mem_cons.mpr ⟨hfits, hall⟩, ?_⟩
      rw [List.map_cons, Session.registerAll_register]

/-- Functions that were added before one that could not be. -/
theorem addAll_error (C : T.Compiler backend) {us : List (Scope × Definition)} {s s' : Session}
    {e : CompileError} (hbackend : s.backend = backend)
    (h : (forM us fun u => addFunction u.1 u.2) s = .error e s') :
    ∃ vs : List (Scope × Definition), (∀ v ∈ vs, T.FunctionFits v.2) ∧
      s' = s.registerAll (vs.map T.function) := by
  induction us generalizing s with
  | nil => cases h
  | cons u us ih =>
      rw [List.forM_cons] at h
      rcases bind_error_cases h with hfirst | ⟨_, s₁, hfirst, hrest⟩
      · refine ⟨[], by simp, ?_⟩
        rw [addFunction_error hfirst, List.map_nil, Session.registerAll_nil]
      · obtain ⟨hfits, rfl⟩ := addFunction_ok C hbackend hfirst
        obtain ⟨vs, hvs, rfl⟩ := ih (s := s.register (T.function u)) hbackend hrest
        refine ⟨u :: vs, List.forall_mem_cons.mpr ⟨hfits, hvs⟩, ?_⟩
        rw [List.map_cons, Session.registerAll_register]

end SessionM

/-! ## Offsets and addresses -/

namespace Link

/-- A name's offset is that of the code of a function with this name. -/
theorem place_lookup {offset address : Nat} {fs : List CompiledFunction} {name : String}
    (h : (place offset fs).lookup name = some address) :
    ∃ before f after, fs = before ++ f :: after ∧ f.name = name ∧
      address = offset + (before.map (·.length)).sum := by
  induction fs generalizing offset with
  | nil => cases h
  | cons f fs ih =>
      rw [place, List.lookup_cons] at h
      cases hname : name == f.name with
      | true =>
          rw [hname] at h
          exact ⟨[], f, fs, rfl, (eq_of_beq hname).symm, (Option.some.inj h).symm⟩
      | false =>
          rw [hname] at h
          obtain ⟨before, g, after, rfl, hg, rfl⟩ := ih h
          refine ⟨f :: before, g, after, rfl, hg, ?_⟩
          rw [List.map_cons, List.sum_cons, Nat.add_assoc]

/-- The word that a call of a name goes to. -/
def target (symbols : List (String × Nat)) (name : String) : Word :=
  Int32.ofInt ((symbols.lookup name).getD 0 : Nat)

/-- A line is resolved to its instruction, and its name has an address. -/
theorem resolveCalls_ok {symbols : List (String × Nat)} {l : Line ι} {i : Instruction}
    (h : resolveCalls symbols l.symbolic = .ok i) :
    i.encode = .ok (InstructionSet.bytes (l.link (target symbols))) ∧
      ∀ name, l = .call name → ∃ address, symbols.lookup name = some address := by
  rw [resolveCalls] at h
  cases l with
  | plain i' =>
      rw [Line.symbolic, InstructionSet.resolve_symbolic] at h
      obtain rfl := Except.ok.inj h
      refine ⟨InstructionSet.encode_symbolic i', fun name hname => ?_⟩
      cases hname
  | call name =>
      rw [Line.symbolic] at h
      cases hlookup : symbols.lookup name with
      | none =>
          have hmissing : address? symbols name = none := by rw [address?, hlookup]; rfl
          have hresolve := InstructionSet.resolve_call_none (ι := ι) _ name hmissing
          rcases hpair : (Instruction.ofSymbol (InstructionSet.callDescriptor ι) name).resolve
            (address? symbols) with ⟨resolved, missing⟩
          rw [hpair] at h hresolve
          obtain rfl : missing = some name := hresolve
          cases h
      | some address =>
          have hfound : address? symbols name = some (address : Int) := by
            rw [address?, hlookup]
            rfl
          obtain ⟨resolved, hresolve, hencode⟩ :=
            InstructionSet.resolve_call (ι := ι) _ name _ hfound
          rw [hresolve] at h
          obtain rfl := Except.ok.inj h
          refine ⟨?_, fun name' hname => ?_⟩
          · rw [hencode, Line.link, target, hlookup]
            rfl
          · obtain rfl := Line.call.inj hname
            exact ⟨address, hlookup⟩

/-- The bytes of resolved lines are those of their instructions. -/
theorem encodeAll_resolved {symbols : List (String × Nat)} {lines : List (Line ι)}
    {resolved : List Instruction} {bytes : Bytes}
    (hresolved : (lines.map Line.symbolic).mapM (resolveCalls symbols) = .ok resolved)
    (hbytes : Instruction.encodeAll resolved = .ok bytes) :
    bytes = codeBytes (lines.map (Line.link (target symbols))) ∧
      ∀ name, Line.call name ∈ lines → ∃ address, symbols.lookup name = some address := by
  induction lines generalizing resolved bytes with
  | nil =>
      obtain rfl := Except.ok.inj hresolved
      obtain rfl := Except.ok.inj hbytes
      refine ⟨rfl, fun name hname => ?_⟩
      cases hname
  | cons l lines ih =>
      rw [List.map_cons, List.mapM_cons] at hresolved
      obtain ⟨i, hi, hrest⟩ := bind_eq_ok_iff.mp hresolved
      obtain ⟨is, his, hrest⟩ := bind_eq_ok_iff.mp hrest
      obtain rfl := Except.ok.inj hrest
      obtain ⟨hencode, hname⟩ := resolveCalls_ok hi
      rw [Instruction.encodeAll, hencode] at hbytes
      obtain ⟨_, hfirst, hbytes⟩ := bind_eq_ok_iff.mp hbytes
      obtain ⟨rest, hrest, hbytes⟩ := bind_eq_ok_iff.mp hbytes
      obtain rfl := Except.ok.inj hfirst
      obtain rfl := Except.ok.inj hbytes
      obtain ⟨rfl, hnames⟩ := ih his hrest
      refine ⟨?_, fun name hmem => ?_⟩
      · rw [List.map_cons, codeBytes_cons]
      · rcases List.mem_cons.mp hmem with heq | hmem
        · exact hname name heq.symm
        · exact hnames name hmem

theorem collapse_ok {preamble : List Instruction} {fs : List CompiledFunction} {bytes : Bytes}
    {symbols : List (String × Nat)} (h : collapse preamble fs = .ok (bytes, symbols)) :
    symbols = place (Instruction.totalLength preamble) fs ∧
      ∃ resolved, (preamble ++ fs.flatMap (·.body)).mapM (resolveCalls symbols) = .ok resolved ∧
        Instruction.encodeAll resolved = .ok bytes := by
  obtain ⟨resolved, hresolved, h⟩ := bind_eq_ok_iff.mp h
  cases hencode : Instruction.encodeAll resolved with
  | error cause => rw [hencode] at h; cases h
  | ok encoded =>
      rw [hencode] at h
      obtain ⟨rfl, rfl⟩ := Prod.mk.inj (Except.ok.inj h)
      exact ⟨rfl, resolved, hresolved, hencode⟩

/-- Functions that are kept were compiled; the entry point is the first. -/
theorem reachable_ok {α : Type} {f : α → CompiledFunction} {us : List α}
    {kept : List CompiledFunction} {entry : String} (h : reachable (us.map f) entry = .ok kept) :
    ∃ u vs, kept = (u :: vs).map f ∧ (f u).name = entry ∧ ∀ v ∈ u :: vs, v ∈ us := by
  rw [reachable, List.find?_map] at h
  cases hfind : us.find? ((·.name == entry) ∘ f) with
  | none => rw [hfind] at h; cases h
  | some u =>
      rw [hfind] at h
      obtain rfl := Except.ok.inj h
      have hname := List.find?_some hfind
      refine ⟨u, _, congrArg (f u :: ·) List.filter_map, eq_of_beq hname, fun v hv => ?_⟩
      rcases List.mem_cons.mp hv with rfl | hv
      · exact List.mem_of_find?_eq_some hfind
      · exact (List.mem_filter.mp hv).1

end Link

/-! ## Programs -/

/-- A session with one package makes a program. -/
def Compiles (backend : Backend) (entry : String) (p : Package) (program : Program) : Prop :=
  ∃ s, ({ backend, entry } : Session).compile p = (none, s) ∧ s.finish = .ok program

theorem compiles_of_compile {p : Package} {kind : Kind} {program : Program}
    (h : compile p kind = .ok program) : Compiles kind.backend "main" p program := by
  rw [compile] at h
  cases hcompile : ({ backend := kind.backend } : Session).compile p with
  | mk failure s =>
      rw [hcompile] at h
      cases failure with
      | none => exact ⟨s, hcompile, h⟩
      | some e => cases h

/-- Of elements with different keys each is found by its own. -/
theorem find?_of_nodup {α : Type} {key : α → String} {l : List α} (hnodup : (l.map key).Nodup)
    {a : α} (ha : a ∈ l) : l.find? (key · == key a) = some a := by
  induction l with
  | nil => cases ha
  | cons b l ih =>
      rw [List.map_cons, List.nodup_cons] at hnodup
      rcases List.mem_cons.mp ha with rfl | ha
      · exact List.find?_cons_of_pos (beq_self_eq_true (key a))
      · have hne : key b ≠ key a := fun h => hnodup.1 (h ▸ List.mem_map_of_mem ha)
        exact (List.find?_cons_of_neg (by simpa using hne)).trans (ih hnodup.2 ha)

variable {T : Target ι} {backend : Backend}

/-- What a compiled package consists of: functions that fit, each found by its name. -/
theorem Session.compile_ok (C : T.Compiler backend) {entry : String} {p : Package} {s : Session}
    (h : ({ backend, entry } : Session).compile p = (none, s)) :
    s = ({ backend, entry } : Session).registerAll ((p.registered "").map T.function) ∧
      ∀ u ∈ p.registered "", T.FunctionFits u.2 ∧
        p.find? (T.function u).name = some u := by
  have hindexed : s.Indexed := by
    have hgrows := (Session.compile_cases { backend, entry } p).1
    rw [h] at hgrows
    exact hgrows.indexed .nil
  rw [Session.compile] at h
  cases hadd : SessionM.addPackage "" p { backend, entry } with
  | error e s' => rw [hadd] at h; cases h
  | ok _ s' =>
      rw [hadd] at h
      obtain rfl : s' = s := (Prod.mk.inj h).2
      rw [SessionM.addPackage_eq] at hadd
      obtain ⟨hfits, rfl⟩ := SessionM.addAll_ok C rfl hadd
      refine ⟨rfl, fun u hu => ⟨hfits u hu, ?_⟩⟩
      have hnames := hindexed.nodup
      rw [Session.registerAll, List.nil_append, List.map_map] at hnames
      exact find?_of_nodup hnames hu

/-- A session makes a program of some packages. -/
def Emits (backend : Backend) (program : Program) : Prop :=
  ∃ entry ps, (({ backend, entry } : Session).compileAll ps).finish = .ok program

theorem Compiles.finish_eq {entry : String} {p : Package} {program : Program}
    (h : Compiles backend entry p program) :
    (({ backend, entry } : Session).compileAll [p]).finish = .ok program := by
  obtain ⟨s, hcompile, hfinish⟩ := h
  rw [Session.compileAll, List.foldl_cons, List.foldl_nil, hcompile]
  exact hfinish

theorem Compiles.emits {entry : String} {p : Package} {program : Program}
    (h : Compiles backend entry p program) : Emits backend program :=
  ⟨entry, [p], h.finish_eq⟩

/-- A package adds functions that fit, even if it fails. -/
theorem Session.compile_functions (C : T.Compiler backend) {s : Session}
    (hbackend : s.backend = backend) (p : Package) :
    ∃ us : List (Scope × Definition), (∀ u ∈ us, T.FunctionFits u.2) ∧
      (s.compile p).2 = s.registerAll (us.map T.function) := by
  rw [Session.compile]
  cases hadd : SessionM.addPackage "" p s with
  | error e s' =>
      rw [SessionM.addPackage_eq] at hadd
      exact SessionM.addAll_error C hbackend hadd
  | ok _ s' =>
      rw [SessionM.addPackage_eq] at hadd
      obtain ⟨hfits, hs'⟩ := SessionM.addAll_ok C hbackend hadd
      exact ⟨_, hfits, hs'⟩

theorem Session.compileAll_functions (C : T.Compiler backend) {s : Session}
    (hbackend : s.backend = backend) (ps : List Package) :
    ∃ us : List (Scope × Definition), (∀ u ∈ us, T.FunctionFits u.2) ∧
      s.compileAll ps = s.registerAll (us.map T.function) := by
  induction ps generalizing s with
  | nil => exact ⟨[], by simp, s.registerAll_nil.symm⟩
  | cons p ps ih =>
      obtain ⟨us, hus, hcompile⟩ := Session.compile_functions C hbackend p
      obtain ⟨vs, hvs, hrest⟩ := ih (s := (s.compile p).2) (by rw [hcompile]; exact hbackend)
      refine ⟨us ++ vs, List.forall_mem_append.mpr ⟨hus, hvs⟩, ?_⟩
      rw [Session.compileAll, List.foldl_cons, ← Session.compileAll, hrest, hcompile,
        List.map_append, Session.registerAll_registerAll]

/-- The code of a program before it is linked: the preamble, then its functions. -/
def Target.programLines (T : Target ι) (entry : String) (us : List (Scope × Definition)) :
    List (Line ι) :=
  [.call entry, .plain InstructionSet.halt] ++ us.flatMap fun u => T.body u.1 u.2.args u.2.body

theorem Target.Compiler.code_eq (C : T.Compiler backend) (entry : String)
    (us : List (Scope × Definition)) :
    backend.preamble entry ++ (us.map T.function).flatMap (·.body)
      = (T.programLines entry us).map Line.symbolic := by
  rw [C.preamble_eq, List.flatMap_map]
  simp only [Target.programLines, List.map_append, List.map_flatMap]
  rfl

/-- A part of resolved lines stands where the lines before it end. -/
theorem Placed.of_split {lines before part : List (Line ι)} {symbols : List (String × Nat)}
    (hnames : ∀ name, Line.call name ∈ lines → ∃ address, symbols.lookup name = some address)
    (after : List (Line ι)) (hsplit : lines = before ++ part ++ after) :
    Placed (lines.map (Line.link (Link.target symbols))) (symbols.lookup ·)
      (Line.length before) part where
  code := by
    refine ⟨before.map (Line.link (Link.target symbols)),
      after.map (Line.link (Link.target symbols)), ?_, Line.length_eq_codeLength _ before⟩
    rw [hsplit, List.map_append, List.map_append]
    rfl
  resolved name hname := by
    refine hnames name ?_
    rw [hsplit]
    exact List.mem_append_left after (List.mem_append_right before hname)

namespace Link

variable {α : Type} {g : α → CompiledFunction} {lines : α → List (Line ι)}

theorem length_bodies {us : List α} (h : ∀ u ∈ us, (g u).body = (lines u).map Line.symbolic) :
    ((us.map g).map (·.length)).sum = Line.length (us.flatMap lines) := by
  induction us with
  | nil => rfl
  | cons u us ih =>
      obtain ⟨hu, hus⟩ := List.forall_mem_cons.mp h
      rw [List.map_cons, List.map_cons, List.sum_cons, ih hus, List.flatMap_cons,
        Line.length_append, CompiledFunction.length, hu, Line.totalLength_symbolic]

/-- Functions are put one after the other: the bytes are those of code in which an address
that a name has is where the lines of a function with this name stand. -/
theorem collapse_placed {start : List (Line ι)} {us : List α} {bytes : Bytes}
    {symbols : List (String × Nat)}
    (hlines : ∀ u ∈ us, (g u).body = (lines u).map Line.symbolic)
    (h : collapse (start.map Line.symbolic) (us.map g) = .ok (bytes, symbols)) :
    ∃ code : List ι, bytes = codeBytes code ∧ Placed code (symbols.lookup ·) 0 start ∧
      ∀ name address, symbols.lookup name = some address → ∃ u ∈ us, (g u).name = name ∧
        Placed code (symbols.lookup ·) address (lines u) := by
  obtain ⟨hsymbols, resolved, hresolved, hbytes⟩ := collapse_ok h
  have hcode : start.map Line.symbolic ++ (us.map g).flatMap (·.body)
      = (start ++ us.flatMap lines).map Line.symbolic := by
    rw [List.flatMap_map, List.map_append, List.map_flatMap]
    exact congrArg _ (List.flatMap_congr hlines)
  rw [hcode] at hresolved
  obtain ⟨rfl, hnames⟩ := encodeAll_resolved hresolved hbytes
  have hstart : Placed ((start ++ us.flatMap lines).map (Line.link (target symbols)))
      (symbols.lookup ·) (Line.length []) start := .of_split hnames _ rfl
  refine ⟨_, rfl, hstart, fun name address hname => ?_⟩
  -- an address is the position of the first function with the name
  rw [hsymbols] at hname
  obtain ⟨before, f, after, hsplit, rfl, rfl⟩ := place_lookup hname
  obtain ⟨vs, ws, hus, rfl, hws⟩ := List.map_eq_append_iff.mp hsplit
  obtain ⟨v, ws, rfl, rfl, rfl⟩ := List.map_eq_cons_iff.mp hws
  refine ⟨v, by rw [hus]; simp, rfl, ?_⟩
  have hvs : ∀ u ∈ vs, (g u).body = (lines u).map Line.symbolic :=
    fun u hu => hlines u (hus ▸ List.mem_append_left _ hu)
  have haddress : Instruction.totalLength (start.map Line.symbolic)
      + ((vs.map g).map (·.length)).sum = Line.length (start ++ vs.flatMap lines) := by
    rw [Line.totalLength_symbolic, length_bodies hvs, Line.length_append]
  rw [haddress]
  refine .of_split hnames (ws.flatMap lines) ?_
  simp only [hus, List.flatMap_append, List.flatMap_cons, List.append_assoc]

end Link

theorem Session.collapse_of_finish {s : Session} {program : Program} (h : s.finish = .ok program) :
    ∃ kept, Link.reachable s.functions s.entry = .ok kept ∧
      Link.collapse (s.backend.preamble s.entry) kept
        = .ok (program.bytes, program.symbols) := by
  obtain ⟨kept, hkept, hfinish⟩ := bind_eq_ok_iff.mp h
  obtain ⟨⟨bytes, symbols⟩, hcollapse, hfinish⟩ := bind_eq_ok_iff.mp hfinish
  obtain rfl := Except.ok.inj hfinish
  exact ⟨kept, hkept, hcollapse⟩

theorem Session.collapse_of_registered {entry : String} {fs : List CompiledFunction}
    {program : Program}
    (h : (({ backend, entry } : Session).registerAll fs).finish = .ok program) :
    ∃ kept, Link.reachable fs entry = .ok kept ∧
      Link.collapse (backend.preamble entry) kept = .ok (program.bytes, program.symbols) :=
  Session.collapse_of_finish h

/-- A finished session's program begins with a call of the entry point and a halt, and an
address that a name has is where a function with this name stands. -/
theorem Session.finish_ok (C : T.Compiler backend) {entry : String}
    {us : List (Scope × Definition)} {program : Program}
    (h : (({ backend, entry } : Session).registerAll (us.map T.function)).finish = .ok program) :
    ∃ code : List ι, program.bytes = codeBytes code ∧
      Placed code (program.symbols.lookup ·) 0 [.call entry, .plain InstructionSet.halt] ∧
      ∀ name address, program.symbols.lookup name = some address →
        ∃ u ∈ us, (T.function u).name = name ∧
          Placed code (program.symbols.lookup ·) address (T.body u.1 u.2.args u.2.body) := by
  obtain ⟨kept, hkept, hcollapse⟩ := Session.collapse_of_registered h
  obtain ⟨u, vs, rfl, rfl, hmem⟩ := Link.reachable_ok hkept
  rw [C.preamble_eq] at hcollapse
  obtain ⟨code, hbytes, hstart, hfunctions⟩ := Link.collapse_placed (fun _ _ => rfl) hcollapse
  refine ⟨code, hbytes, hstart, fun name address hname => ?_⟩
  obtain ⟨v, hv, hname, hplaced⟩ := hfunctions name address hname
  exact ⟨v, hmem v hv, hname, hplaced⟩

/-- What a session makes of a package is a linked program, which begins with a call
of the entry point and a halt. -/
theorem exists_world (C : T.Compiler backend) {entry : String} {p : Package} {program : Program}
    (h : Compiles backend entry p program) (hsize : program.bytes.length < 2 ^ 31)
    (strict : Bool) :
    ∃ W : World T, W.package = p ∧ W.strict = strict ∧ program.bytes = codeBytes W.code ∧
      W.Placed 0 [.call entry, .plain InstructionSet.halt] := by
  obtain ⟨s, hcompile, hfinish⟩ := h
  obtain ⟨rfl, hfunctions⟩ := Session.compile_ok C hcompile
  obtain ⟨code, hbytes, hstart, hsymbols⟩ := Session.finish_ok C hfinish
  refine ⟨
    { package := p, code, symbols := (program.symbols.lookup ·), strict
      small := by rwa [← length_codeBytes, ← hbytes]
      function := fun name address hname => ?_ }, rfl, rfl, hbytes, hstart⟩
  -- names differ, so the function with the name is the one that the package has for it
  obtain ⟨u, hu, rfl, hplaced⟩ := hsymbols name address hname
  obtain ⟨hfits, hfind⟩ := hfunctions u hu
  exact ⟨u.1, u.2, hfind, hfits, hplaced⟩

end

end DualMachine
