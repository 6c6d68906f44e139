import DualMachine.Proofs.Operation

/-!
# Histories

A history is the states that successful steps go through, by number. Statements about
what happened before, between or since are statements about its numbers: which
points lie in one activation (`SameActivation`), which call created the activation of
a point (`Table.Creates`) and which return ends it (`Table.Matches`), which store was
the last at an address (`Table.LastWrite`).

The pending calls of an activation stay below those of the calls it makes
(`History.calls_suffix`), so they are the same at all of its points, and every point
that is deeper than the first has a creator (`History.exists_creates`).
-/

namespace DualMachine

/-! ## Points of a history -/

/-- Two points in one activation: nothing in between has returned from it. -/
structure SameActivation (σ : Nat → State) (i j : Nat) : Prop where
  le : i ≤ j
  depth_eq : (σ i).depth = (σ j).depth
  depth_le : ∀ k, i ≤ k → k ≤ j → (σ i).depth ≤ (σ k).depth

namespace SameActivation

variable {σ : Nat → State} {i j k : Nat}

theorem refl (σ : Nat → State) (i : Nat) : SameActivation σ i i where
  le := Nat.le_refl i
  depth_eq := rfl
  depth_le k hik hki := by rw [Nat.le_antisymm hik hki]

theorem trans (h : SameActivation σ i j) (h' : SameActivation σ j k) :
    SameActivation σ i k where
  le := Nat.le_trans h.le h'.le
  depth_eq := h.depth_eq.trans h'.depth_eq
  depth_le m him hmk := by
    rcases Nat.le_total m j with hmj | hjm
    · exact h.depth_le m him hmj
    · rw [h.depth_eq]
      exact h'.depth_le m hjm hmk

/-- The next point, if the depth there is the same. -/
theorem next (h : SameActivation σ i j) (hdepth : (σ (j + 1)).depth = (σ j).depth) :
    SameActivation σ i (j + 1) := by
  refine h.trans ⟨Nat.le_succ j, hdepth.symm, fun k hjk hkj => ?_⟩
  rcases Nat.lt_or_ge j k with hlt | hge
  · rw [Nat.le_antisymm hkj hlt, hdepth]
  · rw [Nat.le_antisymm hge hjk]

end SameActivation

namespace Table

variable (t : Table)

/-- The states of `n` successful steps. -/
def History (n : Nat) (σ : Nat → State) : Prop := ∀ i < n, t.step (σ i) = .ok () (σ (i + 1))

/-- The states that steps lead to from a state, one after the other. -/
def states (s : State) : Nat → State
  | 0 => s
  | i + 1 => t.step.after (states s i)

/-- The call at point `c` has created the activation of point `i`. -/
def Creates (σ : Nat → State) (c i : Nat) : Prop :=
  t.role? (σ c) = some .call ∧ SameActivation σ (c + 1) i

/-- The return at point `r` is that of the activation which the call at `c` created. -/
def Matches (σ : Nat → State) (c r : Nat) : Prop :=
  t.Creates σ c r ∧ t.role? (σ r) = some .ret

/-- The word at a memory index was last written by the step at `j` before point `i`. -/
def LastWrite (σ : Nat → State) (j i : Nat) (a : Fin memorySize) : Prop :=
  j < i ∧ (∃ w, t.Writes (σ j) a w) ∧ ∀ k, j < k → k < i → ∀ w, ¬t.Writes (σ k) a w

/-- The steps from `j` up to point `i` are stores and constants for them. -/
def Storing (σ : Nat → State) (j i : Nat) : Prop :=
  ∀ k, j ≤ k → k < i → t.role? (σ k) = some .constant ∨ t.role? (σ k) = some .store

/-- The word at a memory index was last written in the stores that lead to point `i`. -/
def Passed (σ : Nat → State) (i : Nat) (a : Fin memorySize) : Prop :=
  ∃ j, t.LastWrite σ j i a ∧ SameActivation σ j i ∧ t.Storing σ j i

/-- The word at a memory index was last written by the activation of point `i`, or by its
caller in the stores that lead to the call. -/
def Initialised (σ : Nat → State) (i : Nat) (a : Fin memorySize) : Prop :=
  ∃ j, t.LastWrite σ j i a ∧ (SameActivation σ j i ∨
    ∃ c, t.Creates σ c i ∧ j < c ∧ SameActivation σ j c ∧ t.Storing σ j c)

/-- Whether the first `n` steps from a state all succeed. -/
def succeeds : Nat → State → Bool
  | 0, _ => true
  | n + 1, s =>
    match t.step s with
    | .ok _ s' => succeeds n s'
    | .error .. => false

theorem states_succ (s : State) (i : Nat) :
    t.states s (i + 1) = t.states (t.step.after s) i := by
  induction i with
  | zero => rfl
  | succ i ih => rw [states, ih]; rfl

theorem history_states {n : Nat} {s : State} (h : t.succeeds n s = true) :
    t.History n (t.states s) := by
  induction n generalizing s with
  | zero => intro i hi; omega
  | succ n ih =>
      rw [succeeds] at h
      cases hstep : t.step s with
      | error fault s' => rw [hstep] at h; cases h
      | ok _ s' =>
          rw [hstep] at h
          intro i hi
          cases i with
          | zero => rw [states_succ, Exec.after_of_ok hstep]; exact hstep
          | succ i =>
              rw [states_succ, states_succ, Exec.after_of_ok hstep]
              exact ih h i (by omega)

end Table

/-! ## Depth and pending calls -/

namespace Table.History

variable {t : Table} {n : Nat} {σ : Nat → State}

/-- What is left of a history from one of its points on. -/
theorem drop (h : t.History n σ) (m : Nat) : t.History (n - m) fun k => σ (m + k) :=
  fun i hi => h (m + i) (by omega)

theorem mono (h : t.History n σ) {m : Nat} (hm : m ≤ n) : t.History m σ :=
  fun i hi => h i (by omega)

theorem program_eq (h : t.History n σ) {i : Nat} (hi : i ≤ n) :
    (σ i).program = (σ 0).program := by
  induction i with
  | zero => rfl
  | succ i ih => exact (step_keeps (h i hi)).1.trans (ih (Nat.le_of_succ_le hi))

/-- There are as many registers as at the start. -/
theorem exists_registers (h : t.History n σ) {i : Nat} (hi : i ≤ n) {regs : Array Word}
    (hregs : (σ 0).holder = .registers regs) :
    ∃ regs', (σ i).holder = .registers regs' ∧ regs'.size = regs.size := by
  induction i with
  | zero => exact ⟨regs, hregs, rfl⟩
  | succ i ih =>
      obtain ⟨regs₁, hregs₁, hsize₁⟩ := ih (Nat.le_of_succ_le hi)
      have hsize := (step_keeps (h i hi)).2
      rw [State.registers?_eq_some.mpr hregs₁, Option.map_some] at hsize
      obtain ⟨regs', hregs', hsize⟩ := Option.map_eq_some_iff.mp hsize
      exact ⟨regs', State.registers?_eq_some.mp hregs', hsize.trans hsize₁⟩

theorem calls_call (h : t.History n σ) {i : Nat} (hi : i < n) (hrole : t.role? (σ i) = some .call) :
    ∃ back, (σ (i + 1)).calls = back :: (σ i).calls := by
  rcases step_calls (h i hi) with ⟨-, hcalls⟩ | ⟨hret, -⟩ | ⟨hcall, -, -⟩
  · exact hcalls
  · cases hrole.symm.trans hret
  · exact absurd hrole hcall

theorem calls_ret (h : t.History n σ) {i : Nat} (hi : i < n) (hrole : t.role? (σ i) = some .ret) :
    (σ i).calls = (σ (i + 1)).pc :: (σ (i + 1)).calls := by
  rcases step_calls (h i hi) with ⟨hcall, -⟩ | ⟨-, hcalls⟩ | ⟨-, hret, -⟩
  · cases hrole.symm.trans hcall
  · exact hcalls
  · exact absurd hrole hret

theorem depth_call (h : t.History n σ) {i : Nat} (hi : i < n)
    (hrole : t.role? (σ i) = some .call) : (σ (i + 1)).depth = (σ i).depth + 1 := by
  obtain ⟨back, hcalls⟩ := h.calls_call hi hrole
  rw [State.depth, hcalls]
  rfl

theorem depth_ret (h : t.History n σ) {i : Nat} (hi : i < n)
    (hrole : t.role? (σ i) = some .ret) : (σ i).depth = (σ (i + 1)).depth + 1 := by
  rw [State.depth, h.calls_ret hi hrole]
  rfl

/-- The pending calls of an activation stay below those that are made from it. -/
theorem calls_suffix (h : t.History n σ) {i j : Nat} (hij : i ≤ j) (hj : j ≤ n)
    (hdepth : ∀ k, i ≤ k → k ≤ j → (σ i).depth ≤ (σ k).depth) :
    (σ i).calls <:+ (σ j).calls := by
  induction j, hij using Nat.le_induction with
  | base => exact List.suffix_rfl
  | succ j hij ih =>
      have hsuffix := ih (by omega) fun k hik hkj => hdepth k hik (by omega)
      rcases step_calls (h j (by omega)) with ⟨-, back, hcalls⟩ | ⟨-, hcalls⟩ | ⟨-, -, hcalls⟩
      · rw [hcalls]
        exact hsuffix.trans (List.suffix_cons back _)
      · rw [hcalls] at hsuffix
        rcases List.suffix_cons_iff.mp hsuffix with heq | hsuffix
        · -- the activation itself would have returned
          have hlast := hdepth (j + 1) (by omega) (Nat.le_refl _)
          rw [State.depth, heq, List.length_cons, State.depth] at hlast
          omega
        · exact hsuffix
      · rw [hcalls]
        exact hsuffix

theorem calls_eq (h : t.History n σ) {i j : Nat} (hsame : SameActivation σ i j) (hj : j ≤ n) :
    (σ i).calls = (σ j).calls :=
  (h.calls_suffix hsame.le hj hsame.depth_le).eq_of_length hsame.depth_eq

end Table.History

namespace Table.Creates

variable {t : Table} {n : Nat} {σ : Nat → State} {c i j : Nat}

theorem lt (hc : t.Creates σ c i) : c < i := hc.2.le

theorem trans (hc : t.Creates σ c i) (hsame : SameActivation σ i j) : t.Creates σ c j :=
  ⟨hc.1, hc.2.trans hsame⟩

theorem depth_eq (hc : t.Creates σ c i) (h : t.History n σ) (hi : i ≤ n) :
    (σ i).depth = (σ c).depth + 1 := by
  rw [← hc.2.depth_eq, h.depth_call (Nat.lt_of_lt_of_le hc.lt hi) hc.1]

/-- While the activation lasts, its creator is deeper down. -/
theorem depth_lt (hc : t.Creates σ c i) (h : t.History n σ) (hi : i ≤ n) {k : Nat} (hck : c < k)
    (hki : k ≤ i) : (σ c).depth < (σ k).depth := by
  have hle := hc.2.depth_le k hck hki
  rw [h.depth_call (Nat.lt_of_lt_of_le hc.lt hi) hc.1] at hle
  exact hle

theorem calls_eq (hc : t.Creates σ c i) (h : t.History n σ) (hi : i ≤ n) :
    ∃ back, (σ i).calls = back :: (σ c).calls := by
  obtain ⟨back, hcalls⟩ := h.calls_call (Nat.lt_of_lt_of_le hc.lt hi) hc.1
  exact ⟨back, by rw [← h.calls_eq hc.2 hi, hcalls]⟩

/-- An activation has one creator. -/
theorem unique {c' : Nat} (hc : t.Creates σ c i) (hc' : t.Creates σ c' i) (h : t.History n σ)
    (hi : i ≤ n) : c = c' := by
  have hdepth := hc.depth_eq h hi
  have hdepth' := hc'.depth_eq h hi
  rcases Nat.lt_trichotomy c c' with hlt | heq | hgt
  · have := hc.depth_lt h hi hlt (Nat.le_of_lt hc'.lt)
    omega
  · exact heq
  · have := hc'.depth_lt h hi hgt (Nat.le_of_lt hc.lt)
    omega

end Table.Creates

namespace Table.Matches

variable {t : Table} {n : Nat} {σ : Nat → State} {c r : Nat}

theorem calls_eq (hm : t.Matches σ c r) (h : t.History n σ) (hr : r < n) :
    (σ (r + 1)).calls = (σ c).calls := by
  obtain ⟨back, hcalls⟩ := hm.1.calls_eq h (Nat.le_of_lt hr)
  exact (List.cons.inj ((h.calls_ret hr hm.2).symm.trans hcalls)).2

/-- After the return execution is where the call was to come back to. -/
theorem calls_begun (hm : t.Matches σ c r) (h : t.History n σ) (hr : r < n) :
    (σ (c + 1)).calls = (σ (r + 1)).pc :: (σ (r + 1)).calls :=
  (h.calls_eq hm.1.2 (Nat.le_of_lt hr)).trans (h.calls_ret hr hm.2)

/-- The point of a call and the one after its return lie in one activation. -/
theorem same (hm : t.Matches σ c r) (h : t.History n σ) (hr : r < n) :
    SameActivation σ c (r + 1) where
  le := Nat.le_of_lt (Nat.lt_succ_of_lt hm.1.lt)
  depth_eq := by rw [State.depth, State.depth, hm.calls_eq h hr]
  depth_le k hck hkr := by
    rcases Nat.lt_or_eq_of_le hck with hlt | rfl
    · rcases Nat.lt_or_eq_of_le hkr with hkr | rfl
      · exact Nat.le_of_lt (hm.1.depth_lt h (Nat.le_of_lt hr) hlt (Nat.le_of_lt_succ hkr))
      · rw [State.depth, State.depth, hm.calls_eq h hr]
    · exact Nat.le_refl _

end Table.Matches

namespace Table.History

variable {t : Table} {n : Nat} {σ : Nat → State}

/-- A point that is deeper than the first one lies in an activation that a call has created. -/
theorem exists_creates (h : t.History n σ) {i : Nat} (hi : i ≤ n)
    (hdepth : (σ 0).depth < (σ i).depth) : ∃ c, t.Creates σ c i := by
  induction i using Nat.strong_induction_on with
  | _ i ih =>
      cases i with
      | zero => omega
      | succ i =>
          rcases step_calls (h i hi) with ⟨hcall, -⟩ | ⟨hret, -⟩ | ⟨-, -, hcalls⟩
          · exact ⟨i, hcall, .refl σ (i + 1)⟩
          · -- the point is in the activation that made the call which returns here
            have hdrop := h.depth_ret hi hret
            obtain ⟨c, hc⟩ := ih i (Nat.lt_succ_self i) (by omega) (by omega)
            have hsame := Matches.same ⟨hc, hret⟩ h hi
            have hdeeper : (σ 0).depth < (σ c).depth := by rw [hsame.depth_eq]; exact hdepth
            obtain ⟨c', hc'⟩ := ih c (Nat.lt_succ_of_lt hc.lt) (by have := hc.lt; omega) hdeeper
            exact ⟨c', hc'.trans hsame⟩
          · have hsame : (σ (i + 1)).depth = (σ i).depth := by rw [State.depth, hcalls]; rfl
            obtain ⟨c, hc⟩ := ih i (Nat.lt_succ_self i) (by omega) (by omega)
            exact ⟨c, hc.1, hc.2.next hsame⟩

/-- A call after which the depth is again what it was has returned. -/
theorem exists_matches (h : t.History n σ) (hn : 0 < n)
    (hcall : t.role? (σ 0) = some .call) (hdepth : (σ n).depth ≤ (σ 0).depth) :
    ∃ r < n, t.Matches σ 0 r := by
  have hback : ∃ k, 0 < k ∧ (σ k).depth ≤ (σ 0).depth := ⟨n, hn, hdepth⟩
  -- the first point that is not deeper than the call comes after a return
  obtain ⟨hpos, hlow⟩ := Nat.find_spec hback
  have hmin : ∀ k, 0 < k → k < Nat.find hback → (σ 0).depth < (σ k).depth := fun k hk hlt =>
    Nat.lt_of_not_le fun hle => Nat.find_min hback hlt ⟨hk, hle⟩
  have hle : Nat.find hback ≤ n := Nat.find_min' hback ⟨hn, hdepth⟩
  generalize Nat.find hback = m at hpos hlow hmin hle
  obtain ⟨r, rfl⟩ := Nat.exists_eq_add_of_lt hpos
  rw [Nat.zero_add] at hlow hmin hle
  have hbegun := h.depth_call hn hcall
  have hr : 0 < r := by
    rcases Nat.eq_zero_or_pos r with rfl | hr
    · rw [Nat.zero_add] at hlow hbegun
      omega
    · exact hr
  have hdeep := hmin r hr (Nat.lt_succ_self r)
  have hret : t.role? (σ r) = some .ret := by
    rcases step_calls (h r hle) with ⟨-, back, hcalls⟩ | ⟨hret, -⟩ | ⟨-, -, hcalls⟩
    · rw [State.depth, hcalls, List.length_cons, ← State.depth] at hlow
      omega
    · exact hret
    · rw [State.depth, hcalls, ← State.depth] at hlow
      omega
  have hdrop := h.depth_ret hle hret
  rw [Nat.zero_add] at hbegun
  refine ⟨r, hle, ⟨hcall, hr, ?_, fun k hk hkr => ?_⟩, hret⟩
  · rw [Nat.zero_add]
    omega
  · have := hmin k hk (Nat.lt_succ_of_le hkr)
    rw [Nat.zero_add]
    omega

/-! ## Memory -/

/-- A word that is not written stays. -/
theorem memory_eq (h : t.History n σ) {i j : Nat} (hij : i ≤ j) (hj : j ≤ n)
    {a : Fin memorySize} (hne : ∀ k, i ≤ k → k < j → ∀ w, ¬t.Writes (σ k) a w) :
    (σ j).memory.get a = (σ i).memory.get a := by
  induction j, hij using Nat.le_induction with
  | base => rfl
  | succ j hij ih =>
      have hstep := step_memory_ne (h j hj) (hne j hij (Nat.lt_succ_self j))
      exact hstep.trans (ih (by omega) fun k hik hkj => hne k hik (by omega))

/-- A word that was written and not overwritten is in memory. -/
theorem memory_of_write (h : t.History n σ) {i j : Nat} (hji : j < i) (hi : i ≤ n)
    {a : Fin memorySize} {w : Word} (hwrite : t.Writes (σ j) a w)
    (hne : ∀ k, j < k → k < i → ∀ v, ¬t.Writes (σ k) a v) : (σ i).memory.get a = w := by
  have hstep := hwrite.memory_eq (h j (by omega))
  rw [h.memory_eq hji hi hne, hstep]
  exact Vector.getElem_set_self a.isLt

end Table.History

namespace Table.LastWrite

variable {t : Table} {σ : Nat → State} {i j m : Nat} {a : Fin memorySize}

/-- The last write stays the last as long as nothing is written there. -/
theorem mono (h : t.LastWrite σ j i a) (him : i ≤ m)
    (hne : ∀ k, i ≤ k → k < m → ∀ w, ¬t.Writes (σ k) a w) : t.LastWrite σ j m a := by
  obtain ⟨hji, hwrite, hlast⟩ := h
  refine ⟨Nat.lt_of_lt_of_le hji him, hwrite, fun k hjk hkm => ?_⟩
  rcases Nat.lt_or_ge k i with hki | hik
  · exact hlast k hjk hki
  · exact hne k hik hkm

theorem of_write {w : Word} (h : t.Writes (σ i) a w) : t.LastWrite σ i (i + 1) a :=
  ⟨Nat.lt_succ_self i, ⟨w, h⟩, fun k hik hki => by omega⟩

theorem next (h : t.LastWrite σ j i a) (hne : ∀ w, ¬t.Writes (σ i) a w) :
    t.LastWrite σ j (i + 1) a := by
  refine h.mono (Nat.le_succ i) fun k hik hki => ?_
  rw [Nat.le_antisymm (Nat.le_of_lt_succ hki) hik]
  exact hne

end Table.LastWrite

namespace Table

variable {t : Table} {σ : Nat → State} {i j : Nat} {a : Fin memorySize}

theorem Initialised.of_write {w : Word} (h : t.Writes (σ i) a w)
    (hdepth : (σ (i + 1)).depth = (σ i).depth) : t.Initialised σ (i + 1) a :=
  ⟨i, .of_write h, .inl ((SameActivation.refl σ i).next hdepth)⟩

theorem Initialised.mono (h : t.Initialised σ i a) (hsame : SameActivation σ i j)
    (hne : ∀ k, i ≤ k → k < j → ∀ w, ¬t.Writes (σ k) a w) : t.Initialised σ j a := by
  obtain ⟨m, hlast, hwriter⟩ := h
  refine ⟨m, hlast.mono hsame.le hne, ?_⟩
  rcases hwriter with hown | ⟨c, hc, hpassed⟩
  · exact .inl (hown.trans hsame)
  · exact .inr ⟨c, hc.trans hsame, hpassed⟩

/-- The activation that wrote the word has not returned, and the word is still there. -/
theorem Initialised.writer {n : Nat} (hinit : t.Initialised σ i a) (h : t.History n σ)
    (hi : i ≤ n) :
    ∃ j w, t.LastWrite σ j i a ∧ t.Writes (σ j) a w ∧
      (SameActivation σ j i ∨
        ∃ c, t.Creates σ c i ∧ j < c ∧ SameActivation σ j c ∧ t.Storing σ j c) ∧
      (∀ k, j ≤ k → k ≤ i → (σ j).depth ≤ (σ k).depth) ∧ (σ i).memory.get a = w := by
  obtain ⟨j, hlast, hwriter⟩ := hinit
  obtain ⟨hji, ⟨w, hw⟩, hne⟩ := hlast
  refine ⟨j, w, ⟨hji, ⟨w, hw⟩, hne⟩, hw, hwriter, fun k hjk hki => ?_,
    h.memory_of_write hji hi hw hne⟩
  rcases hwriter with hsame | ⟨c, hc, -, hsame, -⟩
  · exact hsame.depth_le k hjk hki
  · rcases Nat.lt_or_ge c k with hck | hkc
    · rw [hsame.depth_eq]
      exact Nat.le_of_lt (hc.depth_lt h hi hck hki)
    · exact hsame.depth_le k hjk hkc

/-- A step within the activation may write the word again. -/
theorem Initialised.next (h : t.Initialised σ i a) (hdepth : (σ (i + 1)).depth = (σ i).depth) :
    t.Initialised σ (i + 1) a := by
  by_cases hwrite : ∃ w, t.Writes (σ i) a w
  · obtain ⟨w, hwrite⟩ := hwrite
    exact .of_write hwrite hdepth
  · refine h.mono ((SameActivation.refl σ i).next hdepth) fun k hik hki w hw => hwrite ⟨w, ?_⟩
    rwa [← Nat.le_antisymm (Nat.le_of_lt_succ hki) hik]

theorem Storing.next (h : t.Storing σ j i)
    (hrole : t.role? (σ i) = some .constant ∨ t.role? (σ i) = some .store) :
    t.Storing σ j (i + 1) := by
  intro k hjk hki
  rcases Nat.lt_or_eq_of_le (Nat.le_of_lt_succ hki) with hlt | rfl
  · exact h k hjk hlt
  · exact hrole

theorem Passed.of_write {w : Word} (h : t.Writes (σ i) a w)
    (hdepth : (σ (i + 1)).depth = (σ i).depth)
    (hrole : t.role? (σ i) = some .constant ∨ t.role? (σ i) = some .store) :
    t.Passed σ (i + 1) a := by
  refine ⟨i, .of_write h, (SameActivation.refl σ i).next hdepth, Storing.next ?_ hrole⟩
  intro k hik hki
  omega

theorem Passed.next (h : t.Passed σ i a) (hdepth : (σ (i + 1)).depth = (σ i).depth)
    (hrole : t.role? (σ i) = some .constant ∨ t.role? (σ i) = some .store) :
    t.Passed σ (i + 1) a := by
  by_cases hwrite : ∃ w, t.Writes (σ i) a w
  · obtain ⟨w, hwrite⟩ := hwrite
    exact .of_write hwrite hdepth hrole
  · obtain ⟨j, hlast, hsame, hstoring⟩ := h
    exact ⟨j, hlast.next fun w hw => hwrite ⟨w, hw⟩, hsame.next hdepth, hstoring.next hrole⟩

/-- What the caller passes is initialised in the activation that the call creates. -/
theorem Passed.call (h : t.Passed σ i a) (hrole : t.role? (σ i) = some .call)
    (hne : ∀ w, ¬t.Writes (σ i) a w) : t.Initialised σ (i + 1) a := by
  obtain ⟨j, hlast, hsame, hstoring⟩ := h
  exact ⟨j, hlast.next hne, .inr ⟨i, ⟨hrole, .refl σ (i + 1)⟩, hlast.1, hsame, hstoring⟩⟩

end Table

end DualMachine
