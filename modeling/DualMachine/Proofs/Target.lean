import DualMachine.Proofs.Effects
import DualMachine.Proofs.Refinement
import DualMachine.Proofs.Statements

/-!
# Targets and activations

A `Target` is a machine that code is generated for: the pieces of the code and
where a value is between them. `Target.Sound` is what has to be shown for each
machine, one law for a piece; statements, functions and programs are then
treated for both at once.

A `World` is a linked program: code in which every function stands at its address.
An activation runs in a `Frame`: it owns the sixteen words from its base on, the
parameters and variables first, and leaves the words below alone. `Inside` is the
invariant of an activation between two pieces of its code, `World.Calls n` says that
calls do what the evaluation with fuel `n` says.

Memory holds the frames of 64 activations. A world is `strict` where evaluation
refuses a nest of more than 64 activations; there no access leaves memory. In
the other worlds evaluation goes on as long as no frame beyond memory is used,
and a refusal is a fault of the machine at that depth (`FrameFault`).
-/

namespace DualMachine

open Source

/-- Activations whose frames memory holds. -/
def frameCount : Nat := memorySize / frameSize

/-- Slots of a frame and of the next one fit into an immediate. -/
theorem slot_lt {slot : Nat} (h : slot ≤ frameSize + frameSize) : slot < 2 ^ 31 :=
  Nat.lt_of_le_of_lt h (by decide)

/-! ## Operators -/

/-- An operator is its machine operation, where need be followed by an inversion. -/
theorem Source.BinaryOp.apply_eq (op : BinaryOp) (a b : Word) :
    op.apply a b = (op.lowered.1.eval a b).map fun r =>
      if op.lowered.2 then Word.ofBool (r == 0) else r := by
  have hinvert : ∀ c : Bool, Word.ofBool (Word.ofBool c == 0) = Word.ofBool (!c) := by decide
  cases op with
  | div | mod => by_cases hb : b = 0 <;> simp [BinaryOp.apply, BinaryOp.lowered, Alu.eval, hb]
  | ne => simp [BinaryOp.apply, BinaryOp.lowered, Alu.eval, hinvert, bne]
  | le | ge => simp [BinaryOp.apply, BinaryOp.lowered, Alu.eval, hinvert, ← decide_not]
  | _ => rfl

/-- A word is negated by a subtraction. -/
theorem Source.UnaryOp.apply_neg (a : Word) :
    Alu.eval .sub 0 a = some (UnaryOp.neg.apply a) := by
  simp [Alu.eval, UnaryOp.apply]

/-! ## Targets -/

/-- A machine that code is generated for. -/
structure Target (ι : Type) extends Pieces ι where
  /-- What an activation leaves alone among the operands. -/
  Kept : Type
  /-- The operands between two statements. -/
  idle : Kept → Holder → Prop
  /-- The operands with the value of an expression. -/
  value : Kept → Word → Holder → Prop
  /-- Whether the right operand of an operator comes first. -/
  rightFirst : Bool
  /-- Whether code can keep operands in memory. -/
  spills : Bool

section

variable {ι : Type} [InstructionSet ι]

/-- A state that runs `code`, with the counter at the first byte of `part`. -/
structure Reads (code : List ι) (s : State) (part : List ι) : Prop where
  program : s.program = (codeBytes code).toArray
  code : CodeAt code s.pc part

namespace Reads

variable {code a b : List ι} {i : ι} {s s' : State}

theorem size_eq (h : Reads code s a) : s.program.size = codeLength code := by
  rw [h.program, List.size_toArray, length_codeBytes]

/-- The instruction at the counter is carried out. -/
theorem step (h : Reads code s (i :: a))
    (hexec : InstructionSet.exec i (s.skip (width i)) = .ok () s') : Trace code 1 s s' :=
  .one ⟨h.program, h.code.head⟩ hexec

theorem faults {fault : Fault} (h : Reads code s (i :: a))
    (hexec : InstructionSet.exec i (s.skip (width i)) = .error fault s') : Faults code fault s :=
  ⟨i, s', ⟨h.program, h.code.head⟩, hexec⟩

theorem left (h : Reads code s (a ++ b)) : Reads code s a := ⟨h.program, h.code.left⟩

/-- A state that has come to the end of the first part. -/
theorem right (h : Reads code s (a ++ b)) (hprogram : s'.program = s.program)
    (hpc : s'.pc = s.pc + codeLength a) : Reads code s' b where
  program := hprogram.trans h.program
  code := by
    rw [hpc]
    exact h.code.right

/-- A state that has come to the second instruction. -/
theorem next (h : Reads code s (i :: a)) (hprogram : s'.program = s.program)
    (hpc : s'.pc = s.pc + width i) : Reads code s' a where
  program := hprogram.trans h.program
  code := by
    rw [hpc]
    exact h.code.tail

end Reads

/-- The machine gets to `pc` and operands with `P`, and nothing else changes. -/
def Moves (code : List ι) (s : State) (pc : Nat) (P : Holder → Prop) : Prop :=
  ∃ k holder, 0 < k ∧ Trace code k s { s with holder, pc } ∧ P holder

/-- The step faults because memory has no frame for it. -/
def FrameFault (code : List ι) (s : State) : Prop :=
  frameCount ≤ s.depth ∧ ∃ address, Faults code (.addressOutOfRange address) s

namespace Target

variable (T : Target ι)

/-- What the pieces between expressions do. -/
structure PiecesSound : Prop where
  jumpLength_eq : ∀ offset, codeLength (T.jump offset) = T.jumpLength
  zero : ∀ {code s kept}, Reads code s T.zero → T.idle kept s.holder →
    Moves code s (s.pc + codeLength T.zero) (T.value kept 0)
  invert : ∀ {code s kept w}, Reads code s T.invert → T.value kept w s.holder →
    Moves code s (s.pc + codeLength T.invert) (T.value kept (Word.ofBool (w == 0)))
  jump : ∀ {code s kept offset} (target : Nat), Reads code s (T.jump offset) →
    T.idle kept s.holder → (target : Int) = s.pc + codeLength (T.jump offset) + offset.toInt →
    target ≤ codeLength code → Moves code s target (T.idle kept)
  cjump : ∀ {code s kept w offset} (target : Nat), Reads code s (T.cjump offset) →
    T.value kept w s.holder →
    (target : Int) = s.pc + codeLength (T.cjump offset) + offset.toInt →
    target ≤ codeLength code →
    Moves code s (if w = 0 then s.pc + codeLength (T.cjump offset) else target) (T.idle kept)
  ret : ∀ {code s kept w back rest}, Reads code s T.ret → T.value kept w s.holder →
    s.calls = back :: rest →
    ∃ k, Trace code k s { s with pc := back, calls := rest }
  store : ∀ {code s kept w slot}, Reads code s (T.store slot) → T.value kept w s.holder →
    s.frameBase false + slot < memorySize → slot < frameSize →
    ∃ k holder, T.idle kept holder ∧ Trace code k s
      { s with
        holder
        memory := s.memory.setIfInBounds (s.frameBase false + slot) w
        pc := s.pc + codeLength (T.store slot) }
  store_fault : ∀ {code s kept w slot}, Reads code s (T.store slot) →
    T.value kept w s.holder → memorySize ≤ s.frameBase false + slot → slot < frameSize →
    ∃ k s', Trace code k s s' ∧ s'.calls = s.calls ∧
      Faults code (.addressOutOfRange (s.frameBase false + slot : Nat)) s'

/-- The state `s'` after a call from `s` that had the value `w`. -/
structure Called (kept : T.Kept) (s : State) (w : Word) (s' : State) : Prop where
  program : s'.program = s.program
  pc : s'.pc = s.pc + (InstructionSet.callDescriptor ι).length
  calls : s'.calls = s.calls
  holder : T.value kept w s'.holder
  below : ∀ a < s.depth * frameSize, s'.memory[a]? = s.memory[a]?

end Target

/-! ## Worlds -/

/-- Lines stand in `code` at `pc`, and the functions they call have addresses. -/
structure Placed (code : List ι) (symbols : String → Option Nat) (pc : Nat)
    (lines : List (Line ι)) : Prop where
  code : CodeAt code pc
    (lines.map (Line.link fun name => Int32.ofInt ((symbols name).getD 0 : Nat)))
  resolved : ∀ name, Line.call name ∈ lines → ∃ address, symbols name = some address

/-- A linked program. -/
structure World (T : Target ι) where
  package : Package
  code : List ι
  symbols : String → Option Nat
  strict : Bool
  small : codeLength code < 2 ^ 31
  function : ∀ name address, symbols name = some address →
    ∃ scope d, package.find? name = some (scope, d) ∧ T.FunctionFits d ∧
      Placed code symbols address (T.body scope d.args d.body)

/-- Words stand in memory from an address on, as far as memory goes. -/
def HoldsWords (memory : Vector Word memorySize) (base : Nat) (words : List Word) : Prop :=
  ∀ i w, words[i]? = some w → base + i < memorySize → memory[base + i]? = some w

/-- The place of an activation: where it returns to, what it returns into, and the
memory as it was when it began. -/
structure Frame (strict : Bool) where
  back : Nat
  rest : List Nat
  memory : Vector Word memorySize
  nested : strict = true → rest.length < frameCount

/-- First address of a frame. -/
def Frame.base {strict : Bool} (F : Frame strict) : Nat := F.rest.length * frameSize

/-- Nesting depth of the activation. -/
def Frame.depth {strict : Bool} (F : Frame strict) : Nat := F.rest.length + 1

namespace World

variable {T : Target ι} (W : World T)

/-- The rules that the program keeps to. -/
def rules : Rules :=
  if W.strict then .nesting T.rightFirst frameCount else .frames T.rightFirst frameCount

/-- Only the faults of a frame beyond memory are not answers of the evaluation. -/
def escapes : Escapes where
  refused s := W.strict = true ∨ FrameFault W.code s
  overflow s := T.spills = true ∧ W.strict = false ∧ FrameFault W.code s

/-- Lines of the program at a position. -/
abbrev Placed (pc : Nat) (lines : List (Line ι)) : Prop :=
  DualMachine.Placed W.code W.symbols pc lines

abbrev Runs {α : Type} (n : Nat) (s : State) (x : May α) (Q : α → State → Prop) : Prop :=
  DualMachine.Runs W.code W.escapes n s x Q

/-- The evaluation of a call in the program. -/
def activate (n depth : Nat) (name : String) (args : List Word) : May Word :=
  W.package.activate W.rules May.anyWords n depth name args

/-- What the evaluation of an activation rests on. -/
def context (F : Frame W.strict) (scope : Scope) (n : Nat) : Context May :=
  W.rules.context F.depth scope (W.activate n (F.depth + 1))

/-- The invariant of an activation with the variables `env`. -/
structure Inside (F : Frame W.strict) (env : Env) (P : Holder → Prop) (s : State) : Prop where
  program : s.program = (codeBytes W.code).toArray
  calls : s.calls = F.back :: F.rest
  holder : P s.holder
  length_le : env.length ≤ frameSize
  env : HoldsWords s.memory F.base (env.map Prod.snd)
  below : ∀ a < F.base, s.memory[a]? = F.memory[a]?

/-- The state in which an activation has returned. -/
structure Returned (F : Frame W.strict) (P : Holder → Prop) (s : State) : Prop where
  program : s.program = (codeBytes W.code).toArray
  pc : s.pc = F.back
  calls : s.calls = F.rest
  holder : P s.holder
  below : ∀ a < F.base, s.memory[a]? = F.memory[a]?

/-- Calls do what their evaluation with fuel `n` says. -/
def Calls (n : Nat) : Prop :=
  ∀ {name : String} {address : Nat} {args : List Word} {kept : T.Kept} {s : State},
    W.symbols name = some address →
    Reads W.code s [InstructionSet.call (Int32.ofInt address)] →
    T.idle kept s.holder → (W.strict = true → s.depth < frameCount) →
    HoldsWords s.memory (s.depth * frameSize) args →
    W.Runs n s (W.activate n (s.depth + 1) name args) (T.Called kept s)

end World

/-- What has to be shown for a machine. -/
structure Target.Sound (T : Target ι) : Prop extends T.PiecesSound where
  expr : ∀ {W : World T} {n : Nat}, W.Calls n →
    ∀ {scope : Scope} {F : Frame W.strict} {kept : T.Kept} {e : Expr} {env : Env} {s : State},
    T.fits (env.map Prod.fst) e → W.Inside F env (T.idle kept) s →
    W.Placed s.pc (T.expr scope (env.map Prod.fst) e) →
    W.Runs n s (e.eval (W.context F scope n) env) fun w s' =>
      W.Inside F env (T.value kept w) s' ∧
      s'.pc = s.pc + Line.length (T.expr scope (env.map Prod.fst) e)

end

end DualMachine
