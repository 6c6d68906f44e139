import DualMachine.Proofs.Correctness

/-!
# Compiled programs are safe

Whatever arguments its calls pass, what a session makes of a package is decoded to
the last byte, and a run of it is at every step at the first byte of a decoded
instruction or at the end. It faults only by a division by zero, or by an
access beyond memory when 64 calls or more are pending, and it ends with none pending.

All of this follows from `World.program_runs`, where missing arguments can be any
words: a run with `k` steps is part of what is said there of an evaluation with fuel
`k + 1`, and that leaves only four kinds of states (`World.trace_cases`).
-/

namespace DualMachine

open Source

/-! ## Reachable states -/

/-- States that successful steps lead to. -/
inductive Table.Reaches (t : Table) (s : State) : State → Prop where
  | refl : t.Reaches s s
  | step {s' s'' : State} (h : t.Reaches s s') (hstep : t.step s' = .ok () s'') :
      t.Reaches s s''

namespace Table

variable {t : Table} {s s' : State}

theorem Reaches.head {s'' : State} (hstep : t.step s = .ok () s') (h : t.Reaches s' s'') :
    t.Reaches s s'' := by
  induction h with
  | refl => exact .step .refl hstep
  | step _ hlast ih => exact .step ih hlast

/-- A run that ends normally has come by successful steps to a state that does not run. -/
theorem Ends.reaches (h : t.Ends s .finished s') : t.Reaches s s' ∧ s'.running = false := by
  obtain ⟨limit, executed, hrun⟩ := h
  rw [Table.run] at hrun
  generalize 0 = before at hrun
  induction limit generalizing before s with
  | zero =>
      rw [Table.runFrom] at hrun
      obtain ⟨hending, -, rfl⟩ := Run.mk.inj hrun
      cases hrunning : s.running with
      | true => rw [hrunning] at hending; cases hending
      | false => exact ⟨.refl, rfl⟩
  | succ limit ih =>
      rw [Table.runFrom] at hrun
      cases hrunning : s.running with
      | false =>
          rw [hrunning] at hrun
          obtain ⟨-, -, rfl⟩ := Run.mk.inj hrun
          exact ⟨.refl, hrunning⟩
      | true =>
          rw [hrunning, if_pos rfl] at hrun
          cases hstep : t.step s with
          | error fault s₁ => rw [hstep] at hrun; cases hrun
          | ok u s₁ =>
              rw [hstep] at hrun
              exact (ih _ hrun).imp_left (.head hstep)

end Table

section

variable {ι : Type} [InstructionSet ι]

open InstructionSet

/-! ## Decoding -/

theorem CodeAt.cons_cases {i j : ι} {code : List ι} {pc : Nat} (h : CodeAt (j :: code) pc [i]) :
    pc = 0 ∨ ∃ rest, pc = width j + rest ∧ CodeAt code rest [i] := by
  obtain ⟨before, after, hcode, rfl⟩ := h
  cases before with
  | nil => exact .inl rfl
  | cons first before =>
      obtain ⟨rfl, rfl⟩ := List.cons.inj hcode
      exact .inr ⟨codeLength before, codeLength_cons j before, before, after, rfl, rfl⟩

theorem CodeAt.cons {code part : List ι} {pc : Nat} (h : CodeAt code pc part) (j : ι) :
    CodeAt (j :: code) (width j + pc) part := by
  obtain ⟨before, after, rfl, rfl⟩ := h
  exact ⟨j :: before, after, rfl, codeLength_cons j before⟩

/-- The bytes of instructions are decoded, and every instruction is listed at its offset. -/
theorem decodeFrom_codeBytes (code : List ι) (offset : Nat) :
    ∃ listing, (table ι).decodeFrom offset (codeBytes code) = .ok listing ∧
      (∀ {pc i}, CodeAt code pc [i] → offset + pc ∈ listing.map Prod.fst) ∧
      ∀ entry ∈ listing, ∃ pc i, CodeAt code pc [i] ∧ entry.1 = offset + pc ∧
        entry.2.descriptor = descriptor i := by
  induction code generalizing offset with
  | nil =>
      refine ⟨[], by rw [codeBytes, List.flatMap_nil, Table.decodeFrom], ?_, by simp⟩
      rintro pc i ⟨before, after, hcode, -⟩
      cases before <;> cases hcode
  | cons j code ih =>
      obtain ⟨immediates, hbytes, hlength⟩ := bytes_eq j
      obtain ⟨listing, hlisting, hoffsets, hlisted⟩ := ih (offset + (descriptor j).length)
      refine ⟨(offset, ⟨descriptor j, Table.decodeImmediates (descriptor j).sizes immediates⟩)
        :: listing, ?_, ?_, ?_⟩
      · rw [codeBytes_cons, hbytes, List.cons_append, Table.decodeFrom, get_opcode]
        -- the immediates are cut off exactly, and the rest is decoded as before
        simp only [← hlength, List.take_left, List.drop_left, Nat.lt_irrefl, if_false, hlisting]
        rfl
      · rintro pc i hat
        rw [List.map_cons]
        rcases hat.cons_cases with rfl | ⟨rest, rfl, hrest⟩
        · exact List.mem_cons_self ..
        · rw [width_eq, ← Nat.add_assoc]
          exact List.mem_cons_of_mem _ (hoffsets hrest)
      · intro entry hentry
        rcases List.mem_cons.mp hentry with rfl | hentry
        · exact ⟨0, j, ⟨[], code, rfl, rfl⟩, rfl, rfl⟩
        · obtain ⟨pc, i, hat, hoffset, hdescriptor⟩ := hlisted entry hentry
          refine ⟨width j + pc, i, hat.cons j, ?_, hdescriptor⟩
          rw [hoffset, width_eq, Nat.add_assoc]

/-! ## Runs -/

theorem Faults.step_eq {code : List ι} {fault : Fault} {s : State} (h : Faults code fault s) :
    ∃ s', (table ι).step s = .error fault s' := by
  obtain ⟨i, s', hat, hexec⟩ := h
  exact ⟨s', hat.step_eq.trans hexec⟩

theorem Trace.step_eq {code : List ι} {s s' : State} (h : Trace code 1 s s') :
    (table ι).step s = .ok () s' := by
  cases h with
  | step hat hexec rest =>
      cases rest
      exact hat.step_eq.trans hexec

/-- A state that a trace does not end in. -/
theorem Trace.next {code : List ι} {k : Nat} {s s' : State} (h : Trace code k s s')
    (hk : 0 < k) : ∃ s₁, Trace code 1 s s₁ := by
  cases h with
  | refl => omega
  | step hat hexec _ => exact ⟨_, .one hat hexec⟩

namespace World

variable {T : Target ι} {W : World T} {entry : String} {kept : T.Kept} {holder : Holder}
  {s : State}

/-- The states in which a run stops. -/
def Stops (W : World T) (kept : T.Kept) (s : State) : Prop :=
  (∃ w, W.Halted kept w s) ∨ Faults W.code .divisionByZero s ∨ FrameFault W.code s

theorem Stops.step_ne (h : W.Stops kept s) (s' : State) : (table ι).step s ≠ .ok () s' := by
  intro hstep
  obtain ⟨fault, s'', hfault⟩ : ∃ fault s'', (table ι).step s = .error fault s'' := by
    rcases h with ⟨w, hhalted⟩ | hdiv | ⟨-, address, hframe⟩
    · obtain ⟨fault, hstuck⟩ := Table.step_of_not_running hhalted.running
      exact ⟨fault, s, hstuck⟩
    · exact ⟨_, hdiv.step_eq⟩
    · exact ⟨_, hframe.step_eq⟩
  cases hstep.symm.trans hfault

section

variable (hT : T.Sound) (hplaced : W.Placed 0 [.call entry, .plain halt])
  (hidle : T.idle kept holder) (hstrict : W.strict = false)

include hT hplaced hidle hstrict

/-- A run either stops or has gone on for as long as one likes. -/
theorem stops_or_long (n : Nat) :
    ∃ k s, Trace W.code k (.initial holder (codeBytes W.code)) s ∧
      (W.Stops kept s ∨ n ≤ k) := by
  obtain ⟨scope, d, -, k, s, htrace, hend⟩ := program_runs hT hplaced hidle n
  refine ⟨k, s, htrace, ?_⟩
  rcases hend with ⟨-, -, hframe⟩ | ⟨r, -, hanswer⟩
  · exact .inl (.inr (.inr hframe))
  · cases r with
    | ok w => exact .inl (.inl ⟨w, hanswer⟩)
    | error reason =>
        cases reason with
        | divisionByZero => exact .inl (.inr (.inl hanswer))
        | refused =>
            refine .inl (.inr (.inr (hanswer.resolve_left fun htrue => ?_)))
            exact Bool.false_ne_true (hstrict.symm.trans htrue)
        | undefined => exact hanswer.elim
        | unfinished => exact .inr hanswer

/-- A state on the way stops there or goes on. -/
theorem trace_cases {k : Nat} (htrace : Trace W.code k (.initial holder (codeBytes W.code)) s) :
    W.Stops kept s ∨ ∃ s', Trace W.code 1 s s' := by
  obtain ⟨j, t, htrace', hend⟩ := stops_or_long hT hplaced hidle hstrict (k + 1)
  -- compare with a trace that stops or is longer than this one
  rcases Nat.lt_trichotomy k j with hlt | rfl | hlt
  · exact .inr ((htrace.split htrace' (Nat.le_of_lt hlt)).next (by omega))
  · have hsame := htrace.split htrace' (Nat.le_refl k)
    rw [Nat.sub_self] at hsame
    cases hsame
    exact .inl (hend.resolve_right (by omega))
  · -- a stop that the trace had come to before would have ended it
    obtain ⟨t', hnext⟩ := (htrace'.split htrace (Nat.le_of_lt hlt)).next (by omega)
    exact absurd hnext.step_eq ((hend.resolve_right (by omega)).step_ne t')

theorem trace_of_reaches
    (h : (table ι).Reaches (.initial holder (codeBytes W.code)) s) :
    ∃ k, Trace W.code k (.initial holder (codeBytes W.code)) s := by
  induction h with
  | refl => exact ⟨0, .refl _⟩
  | @step s' s'' _ hstep ih =>
      obtain ⟨k, htrace⟩ := ih
      rcases trace_cases hT hplaced hidle hstrict htrace with hstops | ⟨t, hnext⟩
      · exact absurd hstep (hstops.step_ne s'')
      · obtain ⟨-, rfl⟩ := EStateM.Result.ok.inj (hnext.step_eq.symm.trans hstep)
        exact ⟨k + 1, htrace.trans hnext⟩

/-- A reachable state has halted or is at an instruction. -/
theorem halted_or_at (h : (table ι).Reaches (.initial holder (codeBytes W.code)) s) :
    (∃ w, W.Halted kept w s) ∨ ∃ i, At W.code i s := by
  obtain ⟨k, htrace⟩ := trace_of_reaches hT hplaced hidle hstrict h
  rcases trace_cases hT hplaced hidle hstrict htrace with
    (hhalted | ⟨i, _, hat, _⟩ | ⟨-, _, i, _, hat, _⟩) | ⟨_, hnext⟩
  · exact .inl hhalted
  · exact .inr ⟨i, hat⟩
  · exact .inr ⟨i, hat⟩
  · cases hnext with
    | step hat => exact .inr ⟨_, hat⟩

/-- What a step from a reachable state can fault with. -/
theorem fault_cases (h : (table ι).Reaches (.initial holder (codeBytes W.code)) s)
    (hrunning : s.running = true) {fault : Fault} {s' : State}
    (hstep : (table ι).step s = .error fault s') :
    fault = .divisionByZero ∨
      ∃ address, fault = .addressOutOfRange address ∧ frameCount ≤ s.depth := by
  obtain ⟨k, htrace⟩ := trace_of_reaches hT hplaced hidle hstrict h
  rcases trace_cases hT hplaced hidle hstrict htrace with
    (⟨w, hhalted⟩ | hdiv | ⟨hdepth, address, hframe⟩) | ⟨t, hnext⟩
  · exact absurd (hhalted.running.symm.trans hrunning) Bool.false_ne_true
  · obtain ⟨_, heq⟩ := hdiv.step_eq
    obtain ⟨rfl, -⟩ := EStateM.Result.error.inj (heq.symm.trans hstep)
    exact .inl rfl
  · obtain ⟨_, heq⟩ := hframe.step_eq
    obtain ⟨rfl, -⟩ := EStateM.Result.error.inj (heq.symm.trans hstep)
    exact .inr ⟨address, rfl, hdepth⟩
  · cases hnext.step_eq.symm.trans hstep

theorem program_safe :
    ∃ listing, (table ι).disassembleWithOffsets (codeBytes W.code) = .ok listing ∧
      (∀ s, (table ι).Reaches (.initial holder (codeBytes W.code)) s →
        (s.pc ∈ listing.map Prod.fst ∨ s.pc = (codeBytes W.code).length) ∧
        (s.running = true → ∀ fault s', (table ι).step s = .error fault s' →
          fault = .divisionByZero ∨
          ∃ address, fault = .addressOutOfRange address ∧ frameCount ≤ s.depth)) ∧
      ∀ s, (table ι).Ends (.initial holder (codeBytes W.code)) .finished s → s.calls = [] := by
  obtain ⟨listing, hlisting, hoffsets, -⟩ := decodeFrom_codeBytes W.code 0
  refine ⟨listing, hlisting, fun s hreaches => ⟨?_, fun hrunning fault s' hstep => ?_⟩,
    fun s hends => ?_⟩
  · rcases halted_or_at hT hplaced hidle hstrict hreaches with ⟨w, hhalted⟩ | ⟨i, hat⟩
    · rw [length_codeBytes]
      exact .inr hhalted.pc
    · have hmem := hoffsets hat.code
      rw [Nat.zero_add] at hmem
      exact .inl hmem
  · exact fault_cases hT hplaced hidle hstrict hreaches hrunning hstep
  · obtain ⟨hreaches, hstop⟩ := hends.reaches
    rcases halted_or_at hT hplaced hidle hstrict hreaches with ⟨w, hhalted⟩ | ⟨i, hat⟩
    · exact hhalted.calls
    · exact absurd (hstop.symm.trans hat.running) Bool.false_ne_true

end

end World

end

/-! ## Programs of both machines -/

/-- A machine that a backend generates code for: a register machine with as many
registers as the code counts on, or a stack machine. -/
inductive Hosts : Backend → Config → Prop where
  | register {file : RegisterCode.File} {config : Config} (h : file.count ≤ config.registers) :
      Hosts (RegisterCode.backend file) config
  | stack (config : Config) : Hosts StackCode.backend config

/-- Compiled programs are decoded to the last byte, keep to decoded instructions, fault
only by a division by zero or beyond memory at a depth of 64 calls, and end with
no call pending. -/
theorem compiled_program_safe {backend : Backend} {config : Config} {p : Package}
    {entry : String} {program : Program} (hhosts : Hosts backend config)
    (hcompiles : Compiles backend entry p program) (hsize : program.bytes.length < 2 ^ 31) :
    ∃ listing,
      backend.target.machine.table.disassembleWithOffsets program.bytes = .ok listing ∧
      (∀ s, backend.target.machine.table.Reaches
          (backend.target.machine.start config program.bytes) s →
        (s.pc ∈ listing.map Prod.fst ∨ s.pc = program.bytes.length) ∧
        (s.running = true → ∀ fault s',
          backend.target.machine.table.step s = .error fault s' →
          fault = .divisionByZero ∨
          ∃ address, fault = .addressOutOfRange address ∧ 64 ≤ s.depth)) ∧
      ∀ s, backend.target.Ends config program.bytes .finished s → s.calls = [] := by
  cases hhosts with
  | @register file _ hcount =>
      obtain ⟨W, -, hstrict, hbytes, hplaced⟩ :=
        exists_world (RegisterCode.compiler file) hcompiles hsize false
      rw [hbytes]
      exact World.program_safe (RegisterCode.target_sound file) hplaced
        (RegisterCode.idle_fresh hcount) hstrict
  | stack =>
      obtain ⟨W, -, hstrict, hbytes, hplaced⟩ :=
        exists_world StackCode.compiler hcompiles hsize false
      have hidle : StackCode.target.idle [] (Storage.stack.fresh config.registers) := rfl
      rw [hbytes]
      exact World.program_safe StackCode.target_sound hplaced hidle hstrict

theorem compiled_program_safe_ratio : ∃ listing,
    Register.table.disassembleWithOffsets (ratioProgram .register).bytes = .ok listing ∧
    ∀ s, Register.table.Reaches
        (Kind.register.machine.start {} (ratioProgram .register).bytes) s →
      s.pc ∈ listing.map Prod.fst ∨ s.pc = (ratioProgram .register).bytes.length := by
  have hhosts : Hosts (RegisterCode.backend .standard) {} := .register (by decide)
  obtain ⟨listing, hlisting, hsafe, -⟩ := compiled_program_safe hhosts
    (ratio_compiles .register) (ratioProgram_length_lt .register)
  exact ⟨listing, hlisting, fun s hs => (hsafe s hs).1⟩

end DualMachine
