import DualMachine.Proofs.Linking

/-!
# Runs of linked programs

A run of a linked program from its first byte calls the entry point and, when that
returns, halts. `World.program_runs` says so for the evaluation with any
fuel; the rest of the module turns statements about traces into statements about
runs that end (`Table.Ends`), in both directions.

A run that ends cannot be longer than its limit (`Table.Ends.bounds`), so an
evaluation with more fuel than that is finished. Hence a run that ends has an
evaluation that ends, and not only the other way round.
-/

namespace DualMachine

open Source

/-- A run, given enough steps, comes to an ending and leaves a state. -/
def Table.Ends (t : Table) (s : State) (ending : Ending) (s' : State) : Prop :=
  ∃ limit executed, t.run limit s = ⟨ending, executed, s'⟩

theorem Table.ends_run {t : Table} {limit : Nat} {s : State} {e : Ending}
    (h : (t.run limit s).ending = e) : t.Ends s e (t.run limit s).state :=
  ⟨limit, (t.run limit s).executed, by rw [← h]⟩

theorem Table.runFrom_of_stopped (t : Table) {s : State} (h : s.running = false)
    (limit executed : Nat) : t.runFrom limit executed s = ⟨.finished, executed, s⟩ := by
  cases limit with
  | zero => rw [Table.runFrom, h]; rfl
  | succ limit => rw [Table.runFrom, h]; rfl

/-- More steps change nothing for a run that has come to its end. -/
theorem Table.runFrom_add (t : Table) (more : Nat) {limit executed : Nat} {s : State}
    (h : (t.runFrom limit executed s).ending ≠ .unfinished) :
    t.runFrom (limit + more) executed s = t.runFrom limit executed s := by
  induction limit generalizing executed s with
  | zero =>
      rw [Table.runFrom] at h ⊢
      cases hrunning : s.running with
      | true => rw [hrunning] at h; exact absurd rfl h
      | false =>
          rw [t.runFrom_of_stopped hrunning]
          rfl
  | succ limit ih =>
      rw [Nat.add_right_comm, Table.runFrom, Table.runFrom]
      rw [Table.runFrom] at h
      cases hrunning : s.running with
      | false => rfl
      | true =>
          rw [hrunning] at h
          cases hstep : t.step s with
          | error fault s' => rfl
          | ok u s' =>
              rw [if_pos rfl, hstep] at h
              exact ih h

/-- A run has one ending. -/
theorem Table.Ends.unique {t : Table} {s s₁ s₂ : State} {e₁ e₂ : Ending}
    (h₁ : t.Ends s e₁ s₁) (h₂ : t.Ends s e₂ s₂) (hne₁ : e₁ ≠ .unfinished)
    (hne₂ : e₂ ≠ .unfinished) : e₁ = e₂ ∧ s₁ = s₂ := by
  obtain ⟨limit₁, n₁, hrun₁⟩ := h₁
  obtain ⟨limit₂, n₂, hrun₂⟩ := h₂
  have hmore : ∀ {limit n : Nat} {e : Ending} {s' : State}, t.run limit s = ⟨e, n, s'⟩ →
      e ≠ .unfinished → ∀ more, t.run (limit + more) s = ⟨e, n, s'⟩ := by
    intro limit n e s' hrun hne more
    refine (t.runFrom_add more ?_).trans hrun
    show (t.run limit s).ending ≠ .unfinished
    rw [hrun]
    exact hne
  have hsame := (hmore hrun₁ hne₁ limit₂).symm.trans
    (Nat.add_comm limit₂ limit₁ ▸ hmore hrun₂ hne₂ limit₁)
  obtain ⟨rfl, -, rfl⟩ := Run.mk.inj hsame
  exact ⟨rfl, rfl⟩

section

variable {ι : Type} [InstructionSet ι]

open InstructionSet

namespace Trace

variable {code : List ι} {k : Nat} {s s' : State}

theorem ends_finished (h : Trace code k s s') (hstop : s'.running = false) :
    (table ι).Ends s .finished s' := by
  refine ⟨k, k, (h.runFrom 0 0).trans ?_⟩
  rw [Table.runFrom_of_stopped _ hstop, Nat.zero_add]

theorem ends_faulted {fault : Fault} (h : Trace code k s s') (hfault : Faults code fault s') :
    ∃ s'', (table ι).Ends s (.faulted fault) s'' := by
  obtain ⟨i, s'', hat, hexec⟩ := hfault
  refine ⟨s'', k + 1, 0 + k, (h.runFrom 1 0).trans ?_⟩
  rw [Table.runFrom, if_pos hat.running, hat.step_eq, hexec]

/-- A run with a limit below the length of a trace does not come to an end. -/
theorem run_unfinished (h : Trace code k s s') {limit : Nat} (hlt : limit < k) (executed : Nat) :
    ((table ι).runFrom limit executed s).ending = .unfinished := by
  induction h generalizing limit executed with
  | refl s => omega
  | @step n i s t s' hat hexec rest ih =>
      cases limit with
      | zero => rw [Table.runFrom, hat.running]; rfl
      | succ limit =>
          rw [Table.runFrom, if_pos hat.running, hat.step_eq, hexec]
          exact ih (by omega) (executed + 1)

end Trace

/-- The length of a trace from the start of a run that ends is bounded. -/
theorem Table.Ends.bounds {s s' : State} {e : Ending} (h : (table ι).Ends s e s')
    (code : List ι) (he : e ≠ .unfinished) :
    ∃ limit, ∀ {k t}, Trace code k s t → k ≤ limit := by
  obtain ⟨limit, executed, hrun⟩ := h
  refine ⟨limit, fun {k t} htrace => Nat.le_of_not_lt fun hlt => he ?_⟩
  rw [← htrace.run_unfinished hlt 0]
  exact (congrArg Run.ending hrun).symm

/-! ## The program as a whole -/

namespace World

variable {T : Target ι} {W : World T} {entry : String} {kept : T.Kept} {holder : Holder}
  {n : Nat}

/-- The state in which the entry point has returned `w` and the program has halted. -/
structure Halted (W : World T) (kept : T.Kept) (w : Word) (s : State) : Prop where
  program : s.program = (codeBytes W.code).toArray
  pc : s.pc = codeLength W.code
  calls : s.calls = []
  holder : T.value kept w s.holder

theorem Halted.running {w : Word} {s : State} (h : W.Halted kept w s) : s.running = false := by
  rw [State.running, h.program, h.pc, List.size_toArray, length_codeBytes]
  exact decide_eq_false (Nat.lt_irrefl _)

theorem halt_step {s : State} (hreads : Reads W.code s [halt]) :
    Trace W.code 1 s { s with pc := codeLength W.code } := by
  refine hreads.step ?_
  rw [exec_halt, ← hreads.size_eq]
  rfl

/-- A program calls its entry point with zeros and halts. -/
theorem program_runs (hT : T.Sound) (hplaced : W.Placed 0 [.call entry, .plain halt])
    (hidle : T.idle kept holder) (n : Nat) :
    ∃ scope d, W.package.find? entry = some (scope, d) ∧
      W.Runs n (.initial holder (codeBytes W.code))
        (W.activate n 1 entry (List.replicate d.args.length 0)) (W.Halted kept) := by
  obtain ⟨address, haddress⟩ := hplaced.resolved entry (List.mem_cons_self ..)
  obtain ⟨scope, d, hfind, -, -⟩ := W.function entry address haddress
  refine ⟨scope, d, hfind, ?_⟩
  have hcode := hplaced.code
  rw [List.map_cons, List.map_singleton, Line.link, Line.link, haddress] at hcode
  have hzeros : HoldsWords (Vector.replicate memorySize 0) 0
      (List.replicate d.args.length 0) := by
    intro i w hi hlt
    obtain ⟨-, rfl⟩ := List.getElem?_eq_some_iff.mp hi
    rw [Vector.getElem?_eq_getElem hlt, Vector.getElem_replicate, List.getElem_replicate]
  have hcall := calls_run hT W n (s := .initial holder (codeBytes W.code)) haddress
    ⟨rfl, hcode.head⟩ hidle (fun _ => (by decide : 0 < frameCount)) (by
      show HoldsWords _ (0 * frameSize) _
      rw [Nat.zero_mul]
      exact hzeros)
  refine hcall.andThen fun w s hcalled => ⟨1, _, halt_step ⟨hcalled.program, ?_⟩, ?_⟩
  · rw [hcalled.pc, ← descriptor_call (Int32.ofInt address), ← width_eq]
    exact hcode.tail
  · exact ⟨hcalled.program, rfl, hcalled.calls, hcalled.holder⟩

/-- A program that keeps operands in memory finds no frame for them. -/
structure Overflows (W : World T) (holder : Holder) : Prop where
  spills : T.spills = true
  not_strict : W.strict = false
  ends : ∃ address s, (table ι).Ends (.initial holder (codeBytes W.code))
    (.faulted (.addressOutOfRange address)) s

theorem overflows_of_trace {k : Nat} {s : State}
    (htrace : Trace W.code k (.initial holder (codeBytes W.code)) s)
    (h : W.escapes.overflow s) : W.Overflows holder := by
  obtain ⟨hspills, hstrict, -, address, hfault⟩ := h
  exact ⟨hspills, hstrict, address, htrace.ends_faulted hfault⟩

section

variable (hT : T.Sound) (hp : W.package.saturated = true)
  (hplaced : W.Placed 0 [.call entry, .plain halt]) (hidle : T.idle kept holder)

include hT hp hplaced hidle

/-- Where no call lacks an argument, the run does what the evaluation says. -/
theorem program_answers (n : Nat) :
    ∃ k s, Trace W.code k (.initial holder (codeBytes W.code)) s ∧
      (W.escapes.overflow s ∨ Answers W.code W.escapes n (W.Halted kept)
        (W.package.evaluate W.rules n entry) k s) := by
  obtain ⟨scope, d, hfind, k, s, htrace, hend⟩ := program_runs hT hplaced hidle n
  refine ⟨k, s, htrace, hend.imp_right ?_⟩
  rintro ⟨r, hr, hanswer⟩
  rwa [← May.eq_evaluate hp hfind hr]

/-- An evaluation with a value is followed to the end, or a register has no place. -/
theorem ends_of_value {w : Word} (h : W.package.evaluate W.rules n entry = .ok w) :
    (∃ s, (table ι).Ends (.initial holder (codeBytes W.code)) .finished s ∧ W.Halted kept w s) ∨
    W.Overflows holder := by
  obtain ⟨k, s, htrace, hover | hanswer⟩ := program_answers hT hp hplaced hidle n
  · exact .inr (overflows_of_trace htrace hover)
  · rw [h] at hanswer
    have hhalted : W.Halted kept w s := hanswer
    exact .inl ⟨s, htrace.ends_finished hhalted.running, hhalted⟩

/-- So is an evaluation that divides by zero. -/
theorem ends_of_division
    (h : W.package.evaluate W.rules n entry = .error .divisionByZero) :
    (∃ s, (table ι).Ends (.initial holder (codeBytes W.code)) (.faulted .divisionByZero) s) ∨
    W.Overflows holder := by
  obtain ⟨k, s, htrace, hover | hanswer⟩ := program_answers hT hp hplaced hidle n
  · exact .inr (overflows_of_trace htrace hover)
  · rw [h] at hanswer
    exact .inl (htrace.ends_faulted hanswer)

/-- A run that ends, other than in a frame beyond memory, has an evaluation that ends
in the same way. -/
theorem evaluates_of_ends
    (hrefused : W.strict = true → ∀ n, W.package.evaluate W.rules n entry ≠ .error .refused)
    {e : Ending} {s : State} (h : (table ι).Ends (.initial holder (codeBytes W.code)) e s)
    (hunfinished : e ≠ .unfinished)
    (hmemory : ∀ address, e ≠ .faulted (.addressOutOfRange address)) :
    ∃ n, (∃ w, W.package.evaluate W.rules n entry = .ok w ∧ e = .finished ∧ W.Halted kept w s) ∨
      (W.package.evaluate W.rules n entry = .error .divisionByZero ∧
        e = .faulted .divisionByZero) := by
  obtain ⟨limit, hlimit⟩ := h.bounds W.code hunfinished
  have hframe : ∀ {k t}, Trace W.code k (.initial holder (codeBytes W.code)) t →
      ¬FrameFault W.code t := by
    rintro k t htrace ⟨-, address, hfault⟩
    obtain ⟨s', hends⟩ := htrace.ends_faulted hfault
    exact hmemory address (h.unique hends hunfinished (fun heq => nomatch heq)).1
  -- with more fuel than the run has steps, the evaluation cannot be unfinished
  obtain ⟨k, t, htrace, hover | hanswer⟩ := program_answers hT hp hplaced hidle (limit + 1)
  · exact absurd hover.2.2 (hframe htrace)
  · refine ⟨limit + 1, ?_⟩
    cases hr : W.package.evaluate W.rules (limit + 1) entry with
    | ok w =>
        rw [hr] at hanswer
        have hhalted : W.Halted kept w t := hanswer
        obtain ⟨rfl, rfl⟩ := h.unique (htrace.ends_finished hhalted.running) hunfinished
          (fun heq => nomatch heq)
        exact .inl ⟨w, rfl, rfl, hhalted⟩
    | error reason =>
        rw [hr] at hanswer
        cases reason with
        | divisionByZero =>
            obtain ⟨s', hends⟩ := htrace.ends_faulted hanswer
            exact .inr ⟨rfl, (h.unique hends hunfinished (fun heq => nomatch heq)).1⟩
        | refused =>
            rcases hanswer with hstrict | hfault
            · exact absurd hr (hrefused hstrict _)
            · exact absurd hfault (hframe htrace)
        | undefined => exact hanswer.elim
        | unfinished =>
            have hlong : limit + 1 ≤ k := hanswer
            have := hlimit htrace
            omega

end

end World

end

end DualMachine
