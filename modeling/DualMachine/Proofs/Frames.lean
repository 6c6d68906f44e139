import DualMachine.Proofs.Correctness
import DualMachine.Proofs.Register.Checking
import DualMachine.Proofs.Stack.Checking
import DualMachine.Proofs.Tracking

/-!
# Frames of compiled code

A machine lets code reach every word of memory: addresses from 16 on lie in the frame of a
callee, negative ones in that of a caller. Programs that a backend emits keep to
their frames all the same.

* A call leaves the frames below it, the pending calls and the operands of the caller as
  they are; on the stack machine it adds one value (`activations_isolated`).
* A load gives what its own activation has stored, or an argument that the caller stored
  right before the call, never what an activation has left behind or what memory
  was filled with (`loads_initialised`).

The first holds whatever the number of arguments, and of programs that are made from
packages some of which could not be compiled. Both follow from the points of the
check that a history goes through (`Linked.Starts.known`).
-/

namespace DualMachine

open Source

/-- The backends there are. -/
inductive Backend.Provided : Backend → Prop where
  | register (file : RegisterCode.File) : Provided (RegisterCode.backend file)
  | stack : Provided StackCode.backend

/-! ## Linked programs -/

section

variable {ι : Type} [InstructionSet ι]

open InstructionSet

variable {T : Target ι} {backend : Backend} {program : Program}

theorem Target.programLines_append (T : Target ι) (entry : String)
    (us vs : List (Scope × Definition)) : T.programLines entry (us ++ vs)
      = T.programLines entry us ++ vs.flatMap fun v => T.body v.1 v.2.args v.2.body := by
  rw [programLines, programLines, List.flatMap_append, List.append_assoc]

/-- The code of a program is that of some functions after the preamble. -/
structure Target.Layout (T : Target ι) (entry : String) (functions : List CompiledFunction)
    (program : Program) (L : Linked T.toPieces) (us : List (Scope × Definition)) : Prop where
  incomplete : ¬L.complete
  symbols_eq : L.symbols = (program.symbols.lookup ·)
  bytes_eq : program.bytes = codeBytes L.code
  placed : L.Placed 0 (T.programLines entry us)
  length_eq : codeLength L.code = Line.length (T.programLines entry us)
  function_mem : ∀ u ∈ us, T.function u ∈ functions
  /-- An address that a name has is where the code before a function with this name ends. -/
  address : ∀ name address, L.symbols name = some address → ∃ vs u ws, us = vs ++ u :: ws ∧
    (T.function u).name = name ∧ address = Line.length (T.programLines entry vs)
  names : (functions.map (·.name)).Nodup

/-- A function stands where the program has its name, since names differ. -/
theorem Target.Layout.function_placed {entry : String} {functions : List CompiledFunction}
    {L : Linked T.toPieces} {us : List (Scope × Definition)}
    (h : T.Layout entry functions program L us) {f : CompiledFunction} (hf : f ∈ functions)
    {address : Nat} (hname : program.symbols.lookup f.name = some address) :
    ∃ lines, f.body = lines.map Line.symbolic ∧ L.Placed address lines := by
  have hplaced := h.placed
  obtain ⟨vs, u, ws, rfl, hsame, rfl⟩ := h.address f.name address (h.symbols_eq ▸ hname)
  obtain rfl : T.function u = f :=
    List.inj_on_of_nodup_map h.names (h.function_mem u (by simp)) hf hsame
  rw [T.programLines_append, List.flatMap_cons] at hplaced
  refine ⟨T.body u.1 u.2.args u.2.body, rfl, ?_⟩
  simpa only [Nat.zero_add] using hplaced.right.left

/-- The program of a session, with nothing known of the arguments that calls pass. -/
theorem Session.layout (C : T.Compiler backend) {entry : String} {ps : List Package}
    (hfinish : (({ backend, entry } : Session).compileAll ps).finish = .ok program)
    (hsize : program.bytes.length < 2 ^ 31) :
    ∃ L us, T.Layout entry (({ backend, entry } : Session).compileAll ps).functions program L us := by
  have hdiffer := ((Session.compileAll_grows { backend, entry } ps).indexed .nil).nodup
  obtain ⟨us, hfits, hsession⟩ := Session.compileAll_functions C (s := { backend, entry }) rfl ps
  rw [hsession] at hfinish hdiffer ⊢
  obtain ⟨kept, hkept, hcollapse⟩ := Session.collapse_of_registered hfinish
  obtain ⟨u, vs, rfl, -, hmem⟩ := Link.reachable_ok hkept
  obtain ⟨hsymbols, resolved, hresolved, hbytes⟩ := Link.collapse_ok hcollapse
  rw [C.code_eq] at hresolved
  obtain ⟨hbytes, hnames⟩ := Link.encodeAll_resolved hresolved hbytes
  have haddress : ∀ name address, program.symbols.lookup name = some address →
      ∃ before v after, u :: vs = before ++ v :: after ∧ (T.function v).name = name ∧
        address = Line.length (T.programLines entry before) := by
    intro name address hname
    rw [hsymbols] at hname
    obtain ⟨before, f, after, hsplit, rfl, rfl⟩ := Link.place_lookup hname
    obtain ⟨before, rest, hkept, rfl, hrest⟩ := List.map_eq_append_iff.mp hsplit
    obtain ⟨v, after, rfl, rfl, rfl⟩ := List.map_eq_cons_iff.mp hrest
    refine ⟨before, v, after, hkept, rfl, ?_⟩
    rw [C.preamble_eq, Line.totalLength_symbolic, Target.programLines, Line.length_append,
      Link.length_bodies fun _ _ => rfl]
  have hplaced : ∀ {before part : List (Line ι)} (after : List (Line ι)),
      T.programLines entry (u :: vs) = before ++ part ++ after →
      Placed ((T.programLines entry (u :: vs)).map (Line.link (Link.target program.symbols)))
        (program.symbols.lookup ·) (Line.length before) part := .of_split hnames
  refine ⟨
    { code := (T.programLines entry (u :: vs)).map (Line.link (Link.target program.symbols))
      symbols := (program.symbols.lookup ·)
      small := by rwa [← length_codeBytes, ← hbytes]
      complete := False
      arity := fun _ => 0
      function := fun name address hname => ?_ }, u :: vs,
    { incomplete := id
      symbols_eq := rfl
      bytes_eq := hbytes
      placed := by
        show Placed _ _ (Line.length ([] : List (Line ι))) _
        exact hplaced [] (by simp)
      length_eq := (Line.length_eq_codeLength _ _).symm
      function_mem := fun v hv => List.mem_map_of_mem (hmem v hv)
      address := haddress
      names := hdiffer }⟩
  obtain ⟨before, v, after, hsplit, -, rfl⟩ := haddress name address hname
  refine ⟨v.1, v.2, hfits v (hmem v (by simp [hsplit])), ?_, False.elim⟩
  refine hplaced (after.flatMap fun v => T.body v.1 v.2.args v.2.body) ?_
  rw [hsplit, T.programLines_append, List.flatMap_cons, List.append_assoc]

/-- The program of a session begins with its preamble, and a function that the session has stands
where the program has its name. -/
theorem Session.linked (C : T.Compiler backend) {entry : String} {ps : List Package}
    (hfinish : (({ backend, entry } : Session).compileAll ps).finish = .ok program)
    (hsize : program.bytes.length < 2 ^ 31) :
    ∃ L : Linked T.toPieces, ¬L.complete ∧ program.bytes = codeBytes L.code ∧
      L.Placed 0 [.call entry, .plain halt] ∧
      ∀ f ∈ (({ backend, entry } : Session).compileAll ps).functions, ∀ address,
        program.symbols.lookup f.name = some address →
          ∃ lines, f.body = lines.map Line.symbolic ∧ L.Placed address lines := by
  obtain ⟨L, us, hlayout⟩ := Session.layout C hfinish hsize
  exact ⟨L, hlayout.incomplete, hlayout.bytes_eq, hlayout.placed.left,
    fun f hf address hname => hlayout.function_placed hf hname⟩

theorem Emits.linked (C : T.Compiler backend) (h : Emits backend program)
    (hsize : program.bytes.length < 2 ^ 31) :
    ∃ (L : Linked T.toPieces) (entry : String), ¬L.complete ∧ program.bytes = codeBytes L.code ∧
      L.Placed 0 [.call entry, .plain halt] := by
  obtain ⟨entry, ps, hfinish⟩ := h
  obtain ⟨L, hincomplete, hbytes, hstart, -⟩ := Session.linked C hfinish hsize
  exact ⟨L, entry, hincomplete, hbytes, hstart⟩

/-- The program of a package whose calls pass enough arguments. -/
theorem Compiles.linked (C : T.Compiler backend) {entry : String} {p : Package}
    (h : Compiles backend entry p program) (hsize : program.bytes.length < 2 ^ 31)
    (hp : p.saturated = true) :
    ∃ L : Linked T.toPieces, L.complete ∧ L.arity = p.arity ∧ program.bytes = codeBytes L.code ∧
      L.Placed 0 [.call entry, .plain halt] := by
  obtain ⟨W, rfl, -, hbytes, hstart⟩ := exists_world C h hsize false
  refine ⟨
    { code := W.code
      symbols := W.symbols
      small := W.small
      complete := True
      arity := W.package.arity
      function := fun name address hname => ?_ }, trivial, rfl, hbytes, hstart⟩
  obtain ⟨scope, d, hfind, hfits, hplaced⟩ := W.function name address hname
  refine ⟨scope, d, hfits, hplaced, fun _ => ⟨?_, Package.saturated_find hp hfind⟩⟩
  exact (Package.arity_of_find hfind).symm

/-! ## Calls and loads in a history -/

namespace Linked

variable {C : Pieces ι} {L : Linked C} {A : Analysis ι} {σ : Nat → State} {n : Nat}
  (hS : A.Sound) (hC : A.Accepts C) (h : (table ι).History n σ) (hstarts : L.Starts A (σ 0))

include hS hC h hstarts in
/-- The frames below a call stay as they are until it has returned. -/
theorem Starts.memory_eq {c r : Nat} (hr : r < n) (hm : (table ι).Matches σ c r) {k : Nat}
    (hck : c ≤ k) (hkr : k ≤ r + 1) {a : Fin memorySize} (ha : a < (σ c).depth * frameSize) :
    (σ k).memory.get a = (σ c).memory.get a := by
  refine h.memory_eq hck (by omega) fun m hcm hmk w hw => ?_
  rcases Nat.lt_or_eq_of_le hcm with hcm | rfl
  · have hdepth := hm.1.depth_lt h (Nat.le_of_lt hr) hcm (by omega)
    have := (hstarts.known hS hC h m (by omega)).base_le_of_writes hS h
      (fun k _ => hstarts.depth_le k) (by omega) hw hdepth
    omega
  · cases hm.1.1.symm.trans hw.role_eq

include hS hC h hstarts in
/-- The operands with which an activation returns. -/
theorem Starts.describes_of_matches {c r : Nat} (hr : r < n) (hm : (table ι).Matches σ c r) :
    ∃ instr ops, A.Does instr ops .ret ∧ A.Describes ops (σ c).holder (σ (r + 1)).holder := by
  obtain ⟨P, instr, e, o, hP, hstep, ho⟩ :=
    (hstarts.known hS hC h r hr).performs hS h (fun k _ => hstarts.depth_le k) hr
  have hrole := hstep.role.symm.trans hm.2
  cases e with
  | ret =>
      obtain ⟨back, rest, -, hended⟩ := hstep.holds o ho
      refine ⟨instr, P.operands, hstep.does, ?_⟩
      rw [hended]
      exact hP.operands c (.inl hm.1)
  | _ => cases hrole

include hS hC h hstarts in
theorem Starts.initialised_of_reads (hcomplete : L.complete) {i : Nat} (hi : i < n)
    {a : Fin memorySize} (hr : (table ι).Reads (σ i) a) : (table ι).Initialised σ i a := by
  obtain ⟨P, instr, e, o, hP, hstep, ho⟩ :=
    (hstarts.known hS hC h i hi).performs hS h (fun k _ => hstarts.depth_le k) hi
  obtain ⟨slot, hown, hslot, hat⟩ := hstep.reads hP ho hr
  obtain ⟨b, hat', hb⟩ := hP.own hcomplete slot hown hslot
  rwa [show a = b from Fin.ext (hat.2.trans hat'.2.symm)]

end Linked

end

/-! ## Programs at their start -/

theorem RegisterCode.starts {file : File} {L : Linked (pieces file)} {entry : String}
    (hplaced : L.Placed 0 [.call entry, .plain InstructionSet.halt])
    (hentry : L.complete → L.arity entry = 0) (config : Config) :
    L.Starts analysis (Kind.register.machine.start config (codeBytes L.code)) := by
  refine .of_initial (analysis_accepts file) hplaced hentry ⟨_, rfl, ?_⟩
  rintro r w v ⟨⟩

theorem StackCode.starts {L : Linked pieces} {entry : String}
    (hplaced : L.Placed 0 [.call entry, .plain InstructionSet.halt])
    (hentry : L.complete → L.arity entry = 0) (config : Config) :
    L.Starts analysis (Kind.stack.machine.start config (codeBytes L.code)) :=
  .of_initial analysis_accepts hplaced hentry ⟨[], [], rfl, rfl, .nil⟩

/-! ## Isolation -/

/-- While a call is carried out the frames below it do not change, and after it the pending
calls are those before it. On the stack machine it has put one value on the operands. -/
theorem activations_isolated {backend : Backend} (hbackend : backend.Provided)
    {program : Program} (hemits : Emits backend program)
    (hsize : program.bytes.length < 2 ^ 31) {config : Config} {n : Nat} {σ : Nat → State}
    (hstart : σ 0 = backend.target.machine.start config program.bytes)
    (h : backend.target.machine.table.History n σ) {c r : Nat} (hr : r < n)
    (hm : backend.target.machine.table.Matches σ c r) :
    (∀ k, c ≤ k → k ≤ r + 1 → ∀ a : Fin memorySize, a < (σ c).depth * frameSize →
      (σ k).memory.get a = (σ c).memory.get a) ∧
    (σ (r + 1)).calls = (σ c).calls ∧
    (backend.target = .stack →
      ∃ values w, (σ c).stack? = some values ∧ (σ (r + 1)).stack? = some (w :: values)) := by
  cases hbackend with
  | register file =>
      obtain ⟨L, entry, hincomplete, hbytes, hplaced⟩ :=
        hemits.linked (RegisterCode.compiler file) hsize
      have hS := RegisterCode.analysis_sound
      have hC := RegisterCode.analysis_accepts file
      have hstarts : L.Starts RegisterCode.analysis (σ 0) := by
        rw [hstart, hbytes]
        exact RegisterCode.starts hplaced (absurd · hincomplete) config
      refine ⟨fun k hck hkr a ha => ?_, hm.calls_eq h hr, ?_⟩
      · exact hstarts.memory_eq hS hC h hr hm hck hkr ha
      · rintro ⟨⟩
  | stack =>
      obtain ⟨L, entry, hincomplete, hbytes, hplaced⟩ := hemits.linked StackCode.compiler hsize
      have hS := StackCode.analysis_sound
      have hC := StackCode.analysis_accepts
      have hstarts : L.Starts StackCode.analysis (σ 0) := by
        rw [hstart, hbytes]
        exact StackCode.starts hplaced (absurd · hincomplete) config
      refine ⟨fun k hck hkr a ha => ?_, hm.calls_eq h hr, fun _ => ?_⟩
      · exact hstarts.memory_eq hS hC h hr hm hck hkr ha
      · -- code returns with one value, above what there was at the call
        obtain ⟨instr, ops, hdoes, values, below, hbefore, hnow, hknows⟩ :=
          hstarts.describes_of_matches hS hC h hr hm
        cases hdoes
        cases hknows with
        | cons _ hnil =>
            cases hnil
            exact ⟨below, _, by rw [State.stack?, hbefore], by rw [State.stack?, hnow]; rfl⟩

/-- A package in which a function calls itself without its second argument, and is called
with one too many. -/
def descent : Package :=
  .mk [] [⟨"down", ["n", "rest"], .block [
      .if (.identifier "n")
        [.return (.call "down" [.binary .sub (.identifier "n") (.number 1)])] none,
      .return (.identifier "rest")]⟩,
    ⟨"main", [], .expression (.binary .sub
      (.call "down" [.number 1, .number 5, .number 6]) (.number 24))⟩]

/-- Its program for the stack machine. -/
def descentProgram : Program :=
  match compile descent .stack with
  | .ok program => program
  | .error _ => default

/-- The states of the stack machine that runs it. -/
def descentStates : Nat → State :=
  Stack.table.states (Kind.stack.machine.start {} descentProgram.bytes)

theorem descent_compiles : Compiles Kind.stack.backend "main" descent descentProgram := by
  have hok : (compile descent .stack).isOk = true := by decide +kernel
  have hcompile : compile descent .stack = .ok descentProgram := by
    rw [descentProgram]
    cases hcompile : compile descent .stack with
    | ok program => rfl
    | error e => rw [hcompile] at hok; cases hok
  exact compiles_of_compile hcompile

/-- The outer call of `down`, with 24 below it and the inner call within it. -/
theorem activations_isolated_descent :
    (descentStates 14).stack? = some [24] ∧ (descentStates 28).depth = 2 ∧
    (∀ k, 14 ≤ k → k ≤ 41 → ∀ a : Fin memorySize, a < (descentStates 14).depth * frameSize →
      (descentStates k).memory.get a = (descentStates 14).memory.get a) ∧
    ∃ w, (descentStates 41).stack? = some [w, 24] := by
  have hhistory : Stack.table.History 41 descentStates :=
    Stack.table.history_states (by decide +kernel)
  have hends : Stack.table.role? (descentStates 14) = some .call ∧
      Stack.table.role? (descentStates 40) = some .ret ∧
      (descentStates 14).stack? = some [24] ∧ (descentStates 28).depth = 2 ∧
      (descentStates 15).depth = (descentStates 40).depth ∧
      ∀ k ≤ 40, 15 ≤ k → (descentStates 15).depth ≤ (descentStates k).depth := by decide +kernel
  obtain ⟨hcall, hret, hbefore, hinner, hsame, hdepth⟩ := hends
  have hm : Stack.table.Matches descentStates 14 40 :=
    ⟨⟨hcall, by decide, hsame, fun k hlow hhigh => hdepth k hhigh hlow⟩, hret⟩
  have hsize : descentProgram.bytes.length < 2 ^ 31 := by decide +kernel
  have hstart : descentStates 0 = Kind.stack.machine.start {} descentProgram.bytes := rfl
  obtain ⟨hmemory, -, hstack⟩ := activations_isolated .stack descent_compiles.emits hsize hstart
    hhistory (by decide) hm
  obtain ⟨values, w, hvalues, hafter⟩ := hstack rfl
  obtain rfl := Option.some.inj (hbefore.symm.trans hvalues)
  exact ⟨hbefore, hinner, hmemory, w, hafter⟩

/-! ## Initialisation -/

/-- A load gives the word that was last stored at its address, and it was stored by the same
activation or by the caller right before the call. The activation that stored it
has not returned. -/
theorem loads_initialised {backend : Backend} (hbackend : backend.Provided) {entry : String}
    {p : Package} {program : Program} (hcompiles : Compiles backend entry p program)
    (hsize : program.bytes.length < 2 ^ 31) (hp : p.saturated = true)
    (hentry : p.arity entry = 0) {config : Config} {n : Nat} {σ : Nat → State}
    (hstart : σ 0 = backend.target.machine.start config program.bytes)
    (h : backend.target.machine.table.History n σ) {i : Nat} (hi : i < n) {a : Fin memorySize}
    (hr : backend.target.machine.table.Reads (σ i) a) :
    ∃ j w, backend.target.machine.table.LastWrite σ j i a ∧
      backend.target.machine.table.Writes (σ j) a w ∧
      (SameActivation σ j i ∨ ∃ c, backend.target.machine.table.Creates σ c i ∧ j < c ∧
        SameActivation σ j c ∧ backend.target.machine.table.Storing σ j c) ∧
      (∀ k, j ≤ k → k ≤ i → (σ j).depth ≤ (σ k).depth) ∧
      backend.target.machine.table.loaded? (σ i) (σ (i + 1)) = some w := by
  have hinit : backend.target.machine.table.Initialised σ i a := by
    cases hbackend with
    | register file =>
        obtain ⟨L, hcomplete, harity, hbytes, hplaced⟩ :=
          hcompiles.linked (RegisterCode.compiler file) hsize hp
        have hstarts : L.Starts RegisterCode.analysis (σ 0) := by
          rw [hstart, hbytes]
          exact RegisterCode.starts hplaced (fun _ => harity ▸ hentry) config
        exact hstarts.initialised_of_reads RegisterCode.analysis_sound
          (RegisterCode.analysis_accepts file) h hcomplete hi hr
    | stack =>
        obtain ⟨L, hcomplete, harity, hbytes, hplaced⟩ :=
          hcompiles.linked StackCode.compiler hsize hp
        have hstarts : L.Starts StackCode.analysis (σ 0) := by
          rw [hstart, hbytes]
          exact StackCode.starts hplaced (fun _ => harity ▸ hentry) config
        exact hstarts.initialised_of_reads StackCode.analysis_sound
          StackCode.analysis_accepts h hcomplete hi hr
  obtain ⟨j, w, hlast, hw, hwriter, hdepth, hmemory⟩ := hinit.writer h (Nat.le_of_lt hi)
  exact ⟨j, w, hlast, hw, hwriter, hdepth, (hr.loaded_eq (h i hi)).trans (congrArg some hmemory)⟩

/-- The states of the register machine that runs the program of `ratio`. -/
def ratioStates : Nat → State :=
  Register.table.states (Kind.register.machine.start {} (ratioProgram .register).bytes)

/-- The dividend is stored while the divisor is computed by a call, and loaded after it. -/
theorem loads_initialised_ratio :
    Register.table.role? (ratioStates 9) = some .call ∧
    ∃ (a : Fin memorySize) (j : Nat) (w : Word), Register.table.Reads (ratioStates 21) a ∧
      Register.table.LastWrite ratioStates j 21 a ∧ Register.table.Writes (ratioStates j) a w ∧
      Register.table.loaded? (ratioStates 21) (ratioStates 22) = some w := by
  have hhistory : Register.table.History 22 ratioStates :=
    Register.table.history_states (by decide +kernel)
  have hends : Register.table.role? (ratioStates 9) = some .call ∧
      Register.table.access? (ratioStates 21) = some (.read 0 false) := by decide +kernel
  obtain ⟨hcall, haccess⟩ := hends
  obtain ⟨a, ha, -⟩ := Table.step_read (hhistory 21 (by decide)) haccess
  have hreads : Register.table.Reads (ratioStates 21) a := ⟨0, false, haccess, ha⟩
  have hstart : ratioStates 0
      = Kind.register.machine.start {} (ratioProgram .register).bytes := rfl
  obtain ⟨j, w, hlast, hw, -, -, hloaded⟩ := loads_initialised (.register .standard)
    (ratio_compiles .register) (ratioProgram_length_lt .register) (by decide) (by decide) hstart
    hhistory (by decide) hreads
  exact ⟨hcall, a, j, w, hreads, hlast, hw, hloaded⟩

end DualMachine
