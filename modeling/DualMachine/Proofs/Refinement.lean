import DualMachine.Proofs.Coupling
import DualMachine.Proofs.Trace

/-!
# Machine runs that follow an evaluation

`Runs code escapes n s x Q` says that from state `s` the machine does what one of
the answers in `x` says: it comes to a state that `Q` relates to the value, it
faults where the evaluation divides by zero, and it takes at least `n` steps where
the evaluation is still unfinished. What a refusal is answered by, and where the
machine may stop on its own account, is left to `escapes`.

The predicate is closed under the operations that evaluation is written with
(`Runs.pure`, `Runs.bind`) and under steps of the machine alone (`Runs.after`,
`Runs.andThen`), so a simulation of generated code follows the syntax. The number
of steps is what makes it complete: since fuel is used up only where the
machine makes a step, a machine that stops after `k` steps has an evaluation that
ends with fuel `k + 1`.
-/

namespace DualMachine

open Source

/-- Where a machine can stop other than by an answer of the evaluation. -/
structure Escapes where
  /-- States that answer a refusal. -/
  refused : State → Prop
  /-- States in which the machine stops on its own account. -/
  overflow : State → Prop

section

variable {ι : Type} [InstructionSet ι] {α β : Type}

/-- A state, reached in `k` steps, that an answer asks for. -/
def Answers (code : List ι) (escapes : Escapes) (n : Nat) (Q : α → State → Prop) :
    Except Stop α → (k : Nat) → State → Prop
  | .ok a, _, s => Q a s
  | .error .divisionByZero, _, s => Faults code .divisionByZero s
  | .error .refused, _, s => escapes.refused s
  | .error .undefined, _, _ => False
  | .error .unfinished, k, _ => n ≤ k

/-- The machine does from `s` what one of the answers asks for. -/
def Runs (code : List ι) (escapes : Escapes) (n : Nat) (s : State) (x : May α)
    (Q : α → State → Prop) : Prop :=
  ∃ k s', Trace code k s s' ∧
    (escapes.overflow s' ∨ ∃ r, x r ∧ Answers code escapes n Q r k s')

namespace Runs

variable {code : List ι} {escapes : Escapes} {n m k : Nat} {s s' : State} {x : May α}
  {P Q : α → State → Prop}

/-! ## Answers on the spot -/

theorem value {a : α} (hx : x (.ok a)) (h : Q a s) : Runs code escapes n s x Q :=
  ⟨0, s, .refl s, .inr ⟨.ok a, hx, h⟩⟩

theorem pure {a : α} (h : Q a s) : Runs code escapes n s (pure a) Q :=
  value rfl h

theorem refused (h : escapes.refused s) : Runs code escapes n s (stop .refused) Q :=
  ⟨0, s, .refl s, .inr ⟨_, rfl, h⟩⟩

theorem divides (h : Faults code .divisionByZero s) :
    Runs code escapes n s (stop .divisionByZero) Q :=
  ⟨0, s, .refl s, .inr ⟨_, rfl, h⟩⟩

theorem unfinished : Runs code escapes 0 s (stop .unfinished) Q :=
  ⟨0, s, .refl s, .inr ⟨_, rfl, Nat.le_refl 0⟩⟩

theorem overflow (h : escapes.overflow s) : Runs code escapes n s x Q :=
  ⟨0, s, .refl s, .inl h⟩

/-! ## Sequences -/

theorem answers_error {Q : α → State → Prop} {Q' : β → State → Prop} {reason : Stop}
    (h : Answers code escapes n Q (.error reason) k s) (j : Nat) (hn : m ≤ n + j) :
    Answers code escapes m Q' (.error reason) (k + j) s := by
  cases reason with
  | divisionByZero | refused | undefined => exact h
  | unfinished =>
      have : n ≤ k := h
      show m ≤ k + j
      omega

/-- Steps of the machine come before what an evaluation does. -/
theorem after (htrace : Trace code k s s') (h : Runs code escapes m s' x Q)
    (hn : n ≤ m + k) : Runs code escapes n s x Q := by
  obtain ⟨j, s'', hrest, hend⟩ := h
  refine ⟨j + k, s'', Nat.add_comm k j ▸ htrace.trans hrest, ?_⟩
  rcases hend with hover | ⟨r, hr, hanswer⟩
  · exact .inl hover
  · refine .inr ⟨r, hr, ?_⟩
    cases r with
    | ok a => exact hanswer
    -- the steps count toward the fuel of an evaluation that is not finished
    | error reason => exact answers_error hanswer k hn

theorem weaken (h : Runs code escapes m s x Q) (hn : n ≤ m) : Runs code escapes n s x Q :=
  after (.refl s) h (by omega)

theorem bind {f : α → May β} {Q : β → State → Prop} (h : Runs code escapes n s x P)
    (hf : ∀ a s', P a s' → Runs code escapes n s' (f a) Q) :
    Runs code escapes n s (x >>= f) Q := by
  obtain ⟨k, s', htrace, hend⟩ := h
  rcases hend with hover | ⟨r, hr, hanswer⟩
  · exact ⟨k, s', htrace, .inl hover⟩
  · cases r with
    | error reason =>
        exact ⟨k, s', htrace, .inr ⟨_, May.bind_error hr, answers_error hanswer 0
          (Nat.le_refl n)⟩⟩
    | ok a =>
        obtain ⟨j, s'', hrest, hend⟩ := after htrace (hf a s' hanswer) (Nat.le_add_right n k)
        refine ⟨j, s'', hrest, hend.imp id ?_⟩
        rintro ⟨r, hr', hanswer'⟩
        exact ⟨r, May.bind_ok hr hr', hanswer'⟩

theorem pure_bind {a : α} {f : α → May β} {Q : β → State → Prop}
    (h : Runs code escapes n s (f a) Q) : Runs code escapes n s (Pure.pure a >>= f) Q := by
  refine bind (P := fun b s' => b = a ∧ s' = s) (pure ⟨rfl, rfl⟩) ?_
  rintro _ _ ⟨rfl, rfl⟩
  exact h

theorem refused_bind {f : α → May β} {Q : β → State → Prop} (h : escapes.refused s) :
    Runs code escapes n s (stop .refused >>= f) Q :=
  bind (P := fun _ _ => False) (refused h) fun _ _ hfalse => hfalse.elim

/-- Steps of the machine come after what an evaluation does. -/
theorem andThen (h : Runs code escapes n s x P)
    (hstep : ∀ a s', P a s' → ∃ k s'', Trace code k s' s'' ∧ Q a s'') :
    Runs code escapes n s x Q := by
  obtain ⟨k, s', htrace, hend⟩ := h
  rcases hend with hover | ⟨r, hr, hanswer⟩
  · exact ⟨k, s', htrace, .inl hover⟩
  · cases r with
    | error reason =>
        exact ⟨k, s', htrace, .inr ⟨_, hr, answers_error hanswer 0 (Nat.le_refl n)⟩⟩
    | ok a =>
        obtain ⟨j, s'', hrest, hQ⟩ := hstep a s' hanswer
        exact ⟨k + j, s'', htrace.trans hrest, .inr ⟨_, hr, hQ⟩⟩

theorem mono (h : Runs code escapes n s x P) (himp : ∀ a s', P a s' → Q a s') :
    Runs code escapes n s x Q :=
  h.andThen fun a s' hP => ⟨0, s', .refl s', himp a s' hP⟩

end Runs

end

end DualMachine
