import DualMachine.Proofs.Encoding
import DualMachine.Proofs.History

/-!
# Global storage

Global slot `g` is the memory index `globalStart + g` at every depth. A load of it
gives the last value that was stored there, as long as no local store in between
comes to the same index (`global_load_gives_stored`).

Local stores can: their frames begin at sixteen times the depth, with no bound
but the end of memory. From 33 pending calls on a frame reaches beyond `localEnd`, and its
slots are global ones as well (`global_slot_lost_in_deep_frame`).
-/

namespace DualMachine

/-- Global addresses do not depend on the state. -/
theorem State.address_global (s s' : State) (g : Word) : s.address g true = s'.address g true :=
  rfl

/-- What is at the index of a global slot is not changed by stores to other slots or to
other indices. -/
theorem Table.not_writes_global {t : Table} {s : State} {g : Word} {a : Fin memorySize}
    (ha : s.address g true = .ok a)
    (hglobal : ∀ w, t.access? s ≠ some (.write g true w))
    (hlocal : ∀ logical w, t.access? s = some (.write logical false w) →
      s.address logical false ≠ s.address g true) (w : Word) : ¬t.Writes s a w := by
  rintro ⟨logical, isGlobal, haccess, haddress⟩
  cases isGlobal with
  | false => exact hlocal logical w haccess (haddress.trans ha.symm)
  | true =>
      rw [State.address_ok_iff] at ha haddress
      have hsame : logical = g := Int32.toInt_inj.mp (by omega)
      rw [hsame] at haccess
      exact hglobal w haccess

/-- A global slot keeps what is stored in it, at every depth, until the slot is stored to
again or a local store comes to its index. -/
theorem global_load_gives_stored {t : Table} {n : Nat} {σ : Nat → State} (h : t.History n σ)
    {i j : Nat} (hji : j < i) (hi : i < n) {g v : Word}
    (hstore : t.access? (σ j) = some (.write g true v))
    (hload : t.access? (σ i) = some (.read g true))
    (hglobal : ∀ k, j < k → k < i → ∀ w, t.access? (σ k) ≠ some (.write g true w))
    (hlocal : ∀ k, j < k → k < i → ∀ logical w,
      t.access? (σ k) = some (.write logical false w) →
      (σ k).address logical false ≠ (σ k).address g true) :
    t.loaded? (σ i) (σ (i + 1)) = some v := by
  obtain ⟨a, ha, hloaded⟩ := Table.step_read (h i hi) hload
  have hindex : ∀ k, (σ k).address g true = .ok a := fun k =>
    (State.address_global (σ k) (σ i) g).trans ha
  have hwrite : t.Writes (σ j) a v := ⟨g, true, hstore, hindex j⟩
  have hkept : ∀ k, j < k → k < i → ∀ w, ¬t.Writes (σ k) a w := by
    intro k hjk hki
    exact Table.not_writes_global (hindex k) (hglobal k hjk hki) (hlocal k hjk hki)
  rw [hloaded, h.memory_of_write hji (Nat.le_of_lt hi) hwrite hkept]

/-! ## Frames over global slots -/

/-- Stores 7 in global slot 15, goes down by some calls, each of the instruction after
it, stores 0 in slot 0 of the frame, and loads the global slot. -/
def nestedStore (calls : Nat) : List Stack.Instr :=
  let store : List Stack.Instr := [.push 7, .push 15, .push 1, .store]
  let down : List Stack.Instr :=
    (List.range calls).map fun k => .call (Int32.ofNat (21 + 5 * k))
  let load : List Stack.Instr :=
    [.push 0, .push 0, .push 0, .store, .push 15, .push 1, .load]
  store ++ down ++ load

/-- The states of the stack machine that runs `nestedStore`. -/
def nestedStates (calls : Nat) : Nat → State :=
  Stack.table.states (Kind.stack.machine.start {} (codeBytes (nestedStore calls)))

/-- The frame of the first call is no global storage. -/
theorem global_load_gives_stored_nested :
    Stack.table.access? (nestedStates 1 3) = some (.write 15 true 7) ∧
    Stack.table.access? (nestedStates 1 8) = some (.write 0 false 0) ∧
    Stack.table.loaded? (nestedStates 1 11) (nestedStates 1 12) = some 7 := by
  have hhistory : Stack.table.History 12 (nestedStates 1) :=
    Stack.table.history_states (by decide +kernel)
  have hstores : Stack.table.access? (nestedStates 1 3) = some (.write 15 true 7) ∧
      Stack.table.access? (nestedStates 1 8) = some (.write 0 false 0) ∧
      Stack.table.access? (nestedStates 1 11) = some (.read 15 true) := by decide +kernel
  have hbetween : ∀ k < 11, 3 < k →
      (Stack.table.access? (nestedStates 1 k) = none ∨
        Stack.table.access? (nestedStates 1 k) = some (.write 0 false 0)) ∧
      (nestedStates 1 k).address 0 false ≠ (nestedStates 1 k).address 15 true := by
    decide +kernel
  obtain ⟨hstore, hlocal, hload⟩ := hstores
  refine ⟨hstore, hlocal,
    global_load_gives_stored hhistory (by decide) (by decide) hstore hload ?_ ?_⟩
  · intro k hlow hhigh w haccess
    rcases (hbetween k hhigh hlow).1 with h | h
    · cases h.symm.trans haccess
    · cases h.symm.trans haccess
  · intro k hlow hhigh logical w haccess
    obtain ⟨h | h, hne⟩ := hbetween k hhigh hlow
    · cases h.symm.trans haccess
    · cases h.symm.trans haccess
      exact hne

/-- Whether an access is a store to a global slot. -/
def Access.isGlobalStore : Access → Bool
  | .write _ isGlobal _ => isGlobal
  | .read .. => false

/-- With 34 pending calls the frame lies over the global slot: there is one global store,
and yet the load gives what the local store wrote. -/
theorem global_slot_lost_in_deep_frame :
    Stack.table.History 45 (nestedStates 34) ∧
    Stack.table.access? (nestedStates 34 3) = some (.write 15 true 7) ∧
    (∀ k < 44, 3 < k →
      (Stack.table.access? (nestedStates 34 k)).any Access.isGlobalStore = false) ∧
    Stack.table.access? (nestedStates 34 44) = some (.read 15 true) ∧
    Stack.table.loaded? (nestedStates 34 44) (nestedStates 34 45) = some 0 := by
  refine ⟨Stack.table.history_states ?_, ?_⟩
  · decide +kernel
  · decide +kernel

end DualMachine
