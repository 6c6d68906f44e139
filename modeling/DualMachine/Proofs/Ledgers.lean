import DualMachine.Proofs.Emission
import DualMachine.Proofs.Tables

/-!
# Ledgers of compilation

A draft lists the variables in scope, and the slot of a variable is its place in the list. A
`Ledger` has a table instead, in which the slot of each variable is written down when it is
declared. Nothing about a table says that the slots in it are the numbers from 0 on, or that no two
variables have the same slot; a ledger is `Tidy` if this is so, if the frame has room for the
variables, and if the size is that of the code. Whatever is done to a tidy ledger leaves it
tidy.

A ledger does what a draft does. It is compared with the draft whose list is numbered
(`Draft.ledger`): an operation on ledgers `Follows` one on drafts if it comes to the same answer or
error and to the ledger of the draft that is left. This is closed under the ways in which
generators are put together, so a generator that is written once more for ledgers follows the
first one step by step.
-/

namespace DualMachine

/-! ## Operations -/

/-- The state of compiling one function, with a table of the variables in scope. -/
structure Ledger where
  function : String
  scope : Scope
  /-- The slot of each variable, as it was given at its declaration. -/
  table : List (String × Nat) := []
  code : Array Instruction := #[]
  size : Nat := 0

namespace Ledger

/-- Changes to a ledger that may fail. -/
abbrev Op := EStateM CompileError Ledger

/-- The ledger that is left, also by a failure. -/
def left {α : Type} : EStateM.Result CompileError Ledger α → Ledger
  | .ok _ c => c
  | .error _ c => c

/-- Enters a variable with the next slot into the table. -/
def declare (name : String) : Op Nat := fun c =>
  if (c.table.lookup name).isSome then .error (.duplicateVariable c.function name) c
  else if frameSize ≤ c.table.length then
    .error (.frameOverflow c.function (c.table.length + 1)) c
  else .ok c.table.length
    { c with table := c.table ++ [(name, c.table.length)] }

/-- Looks a variable up in the table. -/
def slot (name : String) : Op Nat := fun c =>
  match c.table.lookup name with
  | some slot => .ok slot c
  | none => .error (.undeclaredVariable c.function name) c

/-- Number of variables in scope. -/
def count : Op Nat := fun c => .ok c.table.length c

/-- Length of the code so far. -/
def codeSize : Op Nat := fun c => .ok c.size c

/-- Fails with an error that names the function. -/
def refuse {α : Type} (e : String → CompileError) : Op α := fun c => .error (e c.function) c

/-- The registered name of a function that is called as `name`. -/
def callee (name : String) : Op String := fun c => .ok (c.scope.qualify name) c

/-- The ledger with an instruction appended. -/
def push (c : Ledger) (i : Instruction) : Ledger :=
  { c with code := c.code.push i, size := c.size + i.length }

def emit (i : Instruction) : Op Unit := fun c => .ok () (c.push i)

/-- Runs `body` and puts the table back as it was, also when it fails. -/
def inScope {α : Type} (body : Op α) : Op α := fun c =>
  match body c with
  | .ok a c' => .ok a { c' with table := c.table }
  | .error e c' => .error e { c' with table := c.table }

/-- The number of bytes that `body` appends to a copy of the ledger. -/
def measure (body : Op Unit) : Op Nat := fun c =>
  match body c with
  | .ok _ c' => .ok (c'.size - c.size) c
  | .error e _ => .error e c

/-! ## Ledgers in order -/

/-- The names in the table. -/
def names (table : List (String × Nat)) : Set String := {x | (table.lookup x).isSome}

/-- The table relates the names in scope one to one with the slots from 0 to their number, the
frame has room for them, and the size is that of the code. -/
structure Tidy (c : Ledger) : Prop where
  slots : Set.BijOn (c.table.lookup ·) (names c.table) (some '' Set.Iio c.table.length)
  room : c.table.length ≤ frameSize
  size_eq : c.size = Instruction.totalLength c.code.toList

variable {c : Ledger} {table : List (String × Nat)} {name : String} {k : Nat}

theorem lookup_concat_self (h : table.lookup name = none) :
    (table ++ [(name, k)]).lookup name = some k := by
  rw [lookup_concat, h, if_pos rfl, Option.none_or]

theorem names_concat : names (table ++ [(name, k)]) = insert name (names table) := by
  ext x
  rw [Set.mem_insert_iff, or_comm]
  show ((table ++ [(name, k)]).lookup x).isSome ↔ (table.lookup x).isSome ∨ x = name
  rw [lookup_concat, Option.isSome_or, Bool.or_eq_true]
  refine or_congr_right ?_
  split <;> simp_all

/-- A new name is related with the first slot that is not in use. -/
theorem bijOn_concat (h : Set.BijOn (table.lookup ·) (names table) (some '' Set.Iio table.length))
    (hnew : table.lookup name = none) :
    Set.BijOn ((table ++ [(name, table.length)]).lookup ·)
      (names (table ++ [(name, table.length)]))
      (some '' Set.Iio (table ++ [(name, table.length)]).length) := by
  have hname : (table ++ [(name, table.length)]).lookup name = some table.length :=
    lookup_concat_self hnew
  have hold : Set.EqOn (table.lookup ·) ((table ++ [(name, table.length)]).lookup ·)
      (names table) := fun x hx => by
    simp only [lookup_concat, Option.or_of_isSome hx]
  have hfree : (table ++ [(name, table.length)]).lookup name ∉ some '' Set.Iio table.length := by
    rw [hname]
    rintro ⟨slot, hslot, heq⟩
    exact absurd (Option.some.inj heq) (Set.mem_Iio.mp hslot).ne
  have hslots : Set.Iio (table ++ [(name, table.length)]).length
      = insert table.length (Set.Iio table.length) := by
    ext slot
    rw [List.length_append, List.length_singleton, Set.mem_insert_iff, Set.mem_Iio, Set.mem_Iio]
    omega
  rw [names_concat, hslots, Set.image_insert_eq, ← hname]
  exact (h.congr hold).insert hfree

theorem tidy_empty (function : String) (scope : Scope) : Tidy { function, scope } where
  slots := by
    have hnames : names [] = ∅ := by
      ext x
      simp [names]
    rw [hnames, List.length_nil, show Set.Iio 0 = (∅ : Set Nat) from Set.Iio_bot, Set.image_empty]
    exact Set.bijOn_empty _
  room := Nat.zero_le _
  size_eq := rfl

namespace Tidy

theorem declare (h : c.Tidy) (hnew : c.table.lookup name = none)
    (hroom : c.table.length < frameSize) :
    Tidy { c with table := c.table ++ [(name, c.table.length)] } where
  slots := bijOn_concat h.slots hnew
  room := by
    rw [List.length_append]
    exact hroom
  size_eq := h.size_eq

theorem push (h : c.Tidy) (i : Instruction) : (c.push i).Tidy where
  slots := h.slots
  room := h.room
  size_eq := by
    show c.size + i.length = Instruction.totalLength (c.code.push i).toList
    rw [Array.toList_push, Instruction.totalLength_append, h.size_eq]
    rfl

/-- The table of one ledger with the code of another. -/
theorem restore {c' : Ledger} (h : c.Tidy) (h' : c'.Tidy) :
    Tidy { c' with table := c.table } := ⟨h.slots, h.room, h'.size_eq⟩

end Tidy

/-! ## What operations leave -/

/-- A variable is refused, or it gets the slot after those in use. -/
theorem declare_cases (name : String) (c : Ledger) :
    (∃ e, declare name c = .error e c) ∨
      c.table.lookup name = none ∧ c.table.length < frameSize ∧
        declare name c = .ok c.table.length
          { c with table := c.table ++ [(name, c.table.length)] } := by
  rw [declare]
  by_cases hname : (c.table.lookup name).isSome
  · rw [if_pos hname]
    exact .inl ⟨_, rfl⟩
  · rw [if_neg hname]
    by_cases hfull : frameSize ≤ c.table.length
    · rw [if_pos hfull]
      exact .inl ⟨_, rfl⟩
    · rw [if_neg hfull]
      exact .inr ⟨Option.not_isSome_iff_eq_none.mp hname, not_le.mp hfull, rfl⟩

theorem left_slot (name : String) (c : Ledger) : left (slot name c) = c := by
  rw [slot]
  split <;> rfl

theorem lookup_of_slot {c' : Ledger} (h : slot name c = .ok k c') :
    c.table.lookup name = some k := by
  rw [slot] at h
  split at h
  · next hlookup =>
      obtain ⟨rfl, -⟩ := EStateM.Result.ok.inj h
      exact hlookup
  · cases h

theorem left_inScope {α : Type} (body : Op α) (c : Ledger) :
    left (inScope body c) = { left (body c) with table := c.table } := by
  rw [inScope]
  cases body c <;> rfl

theorem left_measure (body : Op Unit) (c : Ledger) : left (measure body c) = c := by
  rw [measure]
  cases body c <;> rfl

end Ledger

/-! ## Ledgers of drafts -/

/-- The ledger of a draft: its variables with their places. -/
def Draft.ledger (d : Draft) : Ledger where
  function := d.function
  scope := d.scope
  table := d.vars.zipIdx
  code := d.code
  size := d.size

/-- What comes of a draft, said of its ledger. -/
def Gen.onLedger {α : Type} :
    EStateM.Result CompileError Draft α → EStateM.Result CompileError Ledger α
  | .ok a d => .ok a d.ledger
  | .error e d => .error e d.ledger

/-- A variable is found in the numbered list at its place. -/
theorem lookup_zipIdx (vars : List String) (name : String) (start : Nat) :
    (vars.zipIdx start).lookup name = (vars.idxOf? name).map (start + ·) := by
  induction vars generalizing start with
  | nil => rfl
  | cons x vars ih =>
      rw [List.zipIdx_cons, List.lookup_cons, List.idxOf?_cons]
      by_cases hx : name = x
      · simp [hx]
      · have hx' : ¬x = name := fun h => hx h.symm
        simp only [beq_false_of_ne hx, beq_false_of_ne hx', ih, Bool.false_eq_true, if_false,
          Option.map_map, Function.comp_def]
        congr 1
        funext k
        omega

namespace Ledger.Op

variable {α β : Type} {x : Op α} {g : Gen α} {f : α → Op β} {k : α → Gen β}

/-- On the ledger of a draft, `x` does what `g` does on the draft. -/
def Follows (x : Op α) (g : Gen α) : Prop := ∀ d : Draft, x d.ledger = Gen.onLedger (g d)

namespace Follows

protected theorem pure (a : α) : Follows (Pure.pure a) (Pure.pure a) := fun _ => rfl

protected theorem bind (hx : Follows x g) (hf : ∀ a, Follows (f a) (k a)) :
    Follows (x >>= f) (g >>= k) := by
  intro d
  show EStateM.bind x f d.ledger = Gen.onLedger (EStateM.bind g k d)
  rw [EStateM.bind, EStateM.bind, hx d]
  cases g d with
  | ok a d' => exact hf a d'
  | error e d' => rfl

theorem inScope (hx : Follows x g) : Follows (Ledger.inScope x) (Gen.inBlock g) := by
  intro d
  rw [Ledger.inScope, Gen.inBlock, hx d]
  cases g d <;> rfl

theorem measure {x : Op Unit} {g : Gen Unit} (hx : Follows x g) :
    Follows (Ledger.measure x) (Gen.measure g) := by
  intro d
  rw [Ledger.measure, Gen.measure, hx d]
  cases g d <;> rfl

theorem emit (i : Instruction) : Follows (Ledger.emit i) (Gen.emit i) := fun _ => rfl

theorem callee (name : String) : Follows (Ledger.callee name) (Gen.callee name) := fun _ => rfl

theorem slot (name : String) : Follows (Ledger.slot name) (Gen.slot name) := by
  intro d
  have hlookup : d.ledger.table.lookup name = d.vars.idxOf? name := by
    rw [Draft.ledger, lookup_zipIdx]
    simp
  rw [Ledger.slot, hlookup, Gen.slot, Gen.get_bind]
  cases d.vars.idxOf? name <;> rfl

theorem declare (name : String) : Follows (Ledger.declare name) (Gen.declare name) := by
  intro d
  have hlength : d.ledger.table.length = d.vars.length := List.length_zipIdx
  have hmem : (d.ledger.table.lookup name).isSome = true ↔ name ∈ d.vars := by
    rw [Draft.ledger, lookup_zipIdx, Option.isSome_map, List.isSome_idxOf?]
  rw [Ledger.declare, hlength, Gen.declare, Gen.get_bind]
  by_cases hname : name ∈ d.vars
  · rw [if_pos (hmem.mpr hname)]
    simp only [if_pos hname]
    rfl
  · rw [if_neg (mt hmem.mp hname)]
    simp only [if_neg hname]
    by_cases hfull : frameSize ≤ d.vars.length
    · simp only [if_pos hfull]
      rfl
    · simp only [if_neg hfull]
      have hvars : (d.vars ++ [name]).zipIdx = d.vars.zipIdx ++ [(name, d.vars.length)] := by
        rw [List.zipIdx_append, Nat.zero_add]
        rfl
      show EStateM.Result.ok d.vars.length
          { d.ledger with table := d.vars.zipIdx ++ [(name, d.vars.length)] }
        = .ok d.vars.length (Draft.ledger { d with vars := d.vars ++ [name] })
      rw [Draft.ledger, Draft.ledger, hvars]

end Follows

end Ledger.Op

end DualMachine
