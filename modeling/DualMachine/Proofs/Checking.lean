import DualMachine.Proofs.Activation
import DualMachine.Proofs.History

/-!
# Checking code before it runs

Nothing in a machine keeps an activation to its own frame. That compiled code does is
seen by going through the code with what is known of a state at each position: which
operands are constants, which slots of the frame have been written, which of the
slots above it hold arguments for the next call. `Point` is such knowledge and
`Linked.Checked n pc P` says that code is fine for `n` steps from `pc` on: it loads
slots that have been written, it stores to its own frame or the next, it calls
functions with their arguments in place.

What is known of operands differs between the machines: an `Analysis` says how
instructions change it (`Does`) and when it is right (`Describes`). `Analysis.Sound` are
the laws that tie it to the machine, `Analysis.Accepts` are those of the pieces that
code is put together from. From the latter follows that every function of a linked
program is checked, for any number of steps (`Analysis.Accepts.entry_checked`).
-/

namespace DualMachine

open Source

theorem Pieces.length_declared_le {ι : Type} {C : Pieces ι} {vars : List String} {st : Stmt}
    (hfits : C.StatementFits vars st) (hvars : vars.length ≤ frameSize) :
    (st.declared vars).length ≤ frameSize := by
  cases st with
  | var x value =>
      rw [Pieces.StatementFits] at hfits
      rw [Stmt.declared, List.length_append]
      exact hfits.2.2
  | _ => exact hvars

theorem Line.ofCode_append {ι : Type} (a b : List ι) :
    Line.ofCode (a ++ b) = Line.ofCode a ++ Line.ofCode b :=
  List.map_append

/-! ## Effects -/

/-- The work of an instruction as it is known before it runs. Each says what is known
of the operands `after` it. -/
inductive Effect (α : Type) where
  | constant (after : α)
  | compute (after : α)
  | load (slot : Nat) (after : α)
  | store (slot : Nat) (after : α)
  | jump (offset : Word) (after : α)
  | branch (offset : Word) (after : α)
  | call (target : Word)
  | ret
  | halt

namespace Effect

variable {α : Type}

def role : Effect α → Role
  | .constant _ => .constant
  | .compute _ => .compute
  | .load .. => .load
  | .store .. => .store
  | .jump .. => .jump
  | .branch .. => .branch
  | .call _ => .call
  | .ret => .ret
  | .halt => .halt

/-- What an instruction with the effect makes of a state; `describes` is when what is
known of operands is right. -/
def Holds (describes : α → Holder → Prop) (op : Operation) (s s' : State) : Effect α → Prop
  | .constant after | .compute after =>
    describes after s'.holder ∧ s' = { s with holder := s'.holder }
  | .load slot after =>
    op.access? s.holder = some (.read (Int32.ofNat slot) false) ∧
      describes after s'.holder ∧ s' = { s with holder := s'.holder }
  | .store slot after => ∃ w a,
    op.access? s.holder = some (.write (Int32.ofNat slot) false w) ∧
      s.address (Int32.ofNat slot) false = .ok a ∧ describes after s'.holder ∧
      s' = { s with holder := s'.holder, memory := s.memory.set a w a.isLt }
  | .jump offset after => ∃ pc : Nat, (pc : Int) = s.pc + offset.toInt ∧
      describes after s'.holder ∧ s' = { s with holder := s'.holder, pc }
  | .branch offset after => ∃ pc : Nat, (pc = s.pc ∨ (pc : Int) = s.pc + offset.toInt) ∧
      describes after s'.holder ∧ s' = { s with holder := s'.holder, pc }
  | .call target => ∃ pc : Nat, (pc : Int) = target.toInt ∧
      s' = { s with pc, calls := s.pc :: s.calls }
  | .ret => ∃ back rest, s.calls = back :: rest ∧ s' = { s with pc := back, calls := rest }
  | .halt => s' = { s with pc := s.program.size }

end Effect

/-! ## Analyses -/

section

variable {ι : Type} [InstructionSet ι]

/-- What can be known of the operands of a machine. -/
structure Analysis (ι : Type) [InstructionSet ι] where
  Operands : Type
  /-- The operands of an activation that begins. -/
  fresh : Operands
  /-- The operands after a call, from those before it. -/
  resumed : Operands → Operands
  /-- The operands between two statements. -/
  idle : Operands → Prop
  /-- The operands with the value of an expression. -/
  value : Operands → Prop
  operation : ι → Operation
  Does : ι → Operands → Effect Operands → Prop
  /-- An activation that began with the operands `before` has the operands `now`. -/
  Describes : Operands → (before now : Holder) → Prop

/-- What is known is right, and stays right. -/
structure Analysis.Sound (A : Analysis ι) : Prop where
  operation_eq : ∀ {code : List ι} {i : ι} {s : State}, At code i s →
    (InstructionSet.table ι).operation? s = some (A.operation i)
  role_eq : ∀ {i ops e}, A.Does i ops e → (A.operation i).role = e.role
  step : ∀ {i ops e before} {s s' : State}, A.Does i ops e → A.Describes ops before s.holder →
    InstructionSet.exec i s = .ok () s' →
    e.Holds (A.Describes · before) (A.operation i) s s'
  fresh : ∀ {ops before now}, A.Describes ops before now → A.Describes A.fresh now now
  resumed : ∀ {i ops ops' before between now}, A.Does i ops' .ret →
    A.Describes ops before between → A.Describes ops' between now →
    A.Describes (A.resumed ops) before now

/-- What is known of a state at a position of the code. -/
structure Point (α : Type) where
  operands : α
  /-- Slots that have been written. -/
  own : Set Nat
  /-- Slots that have been written since anything but stores and their constants. -/
  passed : Set Nat
  /-- Whether an activation has begun. -/
  inside : Bool

/-! ## Linked programs -/

/-- A linked program: code in which every function stands at its address. -/
structure Linked (C : Pieces ι) where
  code : List ι
  symbols : String → Option Nat
  small : codeLength code < 2 ^ 31
  /-- Whether calls are known to pass all arguments that functions take. -/
  complete : Prop
  arity : String → Nat
  function : ∀ name address, symbols name = some address → ∃ scope d, C.FunctionFits d ∧
    Placed code symbols address (C.body scope d.args d.body) ∧
    (complete → d.args.length = arity name ∧
      d.body.saturated (fun f => arity (scope.qualify f)) = true)

namespace Linked

variable {C : Pieces ι} (L : Linked C) (A : Analysis ι)

/-- Lines of the program at a position. -/
abbrev Placed (pc : Nat) (lines : List (Line ι)) : Prop :=
  DualMachine.Placed L.code L.symbols pc lines

/-- A function with `count` parameters stands at an address. -/
def Entry (address count : Nat) : Prop := ∃ scope d, d.args.length = count ∧ C.FunctionFits d ∧
  L.Placed address (C.body scope d.args d.body) ∧
  (L.complete → d.body.saturated (fun f => L.arity (scope.qualify f)) = true)

/-- What an effect asks for, and what `next` has to hold of after it; `stop` is the end of
the instruction. -/
def Follows (next : Nat → Point A.Operands → Prop) (stop : Nat) (P : Point A.Operands) :
    Effect A.Operands → Prop
  | .constant operands => next stop { P with operands }
  | .compute operands => next stop { P with operands, passed := ∅ }
  | .load slot operands => P.inside = true ∧ slot < frameSize ∧ slot ∈ P.own ∧
      next stop { P with operands, passed := ∅ }
  | .store slot operands => P.inside = true ∧ slot < frameSize + frameSize ∧
      next stop { P with operands, own := insert slot P.own, passed := insert slot P.passed }
  | .jump offset operands => ∃ target : Nat, (target : Int) = stop + offset.toInt ∧
      next target { P with operands, passed := ∅ }
  | .branch offset operands => next stop { P with operands, passed := ∅ } ∧
      ∃ target : Nat, (target : Int) = stop + offset.toInt ∧
        next target { P with operands, passed := ∅ }
  | .call target => ∃ address count : Nat, target.toInt = address ∧ L.Entry address count ∧
      (L.complete → ∀ slot < count, frameSize + slot ∈ P.passed) ∧
      next stop { P with operands := A.resumed P.operands, passed := ∅ }
  | .ret => P.inside = true
  | .halt => True

/-- The code from a position on is fine for `n` steps. -/
def Checked : Nat → Nat → Point A.Operands → Prop
  | 0, _, _ => True
  | n + 1, pc, P => ∃ i e, CodeAt L.code pc [i] ∧ A.Does i P.operands e ∧
      L.Follows A (Checked n) (pc + width i) P e

variable {L A}

theorem Follows.mono {next next' : Nat → Point A.Operands → Prop}
    (hnext : ∀ pc P, next pc P → next' pc P) {stop : Nat} {P : Point A.Operands}
    {e : Effect A.Operands} (h : L.Follows A next stop P e) : L.Follows A next' stop P e := by
  cases e with
  | constant after => exact hnext _ _ h
  | compute after => exact hnext _ _ h
  | load slot after =>
      obtain ⟨hinside, hslot, hown, h⟩ := h
      exact ⟨hinside, hslot, hown, hnext _ _ h⟩
  | store slot after =>
      obtain ⟨hinside, hslot, h⟩ := h
      exact ⟨hinside, hslot, hnext _ _ h⟩
  | jump offset after =>
      obtain ⟨target, htarget, h⟩ := h
      exact ⟨target, htarget, hnext _ _ h⟩
  | branch offset after =>
      obtain ⟨hstay, target, htarget, h⟩ := h
      exact ⟨hnext _ _ hstay, target, htarget, hnext _ _ h⟩
  | call target =>
      obtain ⟨address, count, haddress, hentry, hpassed, h⟩ := h
      exact ⟨address, count, haddress, hentry, hpassed, hnext _ _ h⟩
  | ret => exact h
  | halt => exact h

theorem Checked.pred {n pc : Nat} {P : Point A.Operands} (h : L.Checked A (n + 1) pc P) :
    L.Checked A n pc P := by
  induction n generalizing pc P with
  | zero => trivial
  | succ n ih =>
      obtain ⟨i, e, hcode, hdoes, hfollows⟩ := h
      exact ⟨i, e, hcode, hdoes, hfollows.mono fun _ _ => ih⟩

theorem Checked.mono {m n pc : Nat} {P : Point A.Operands} (h : L.Checked A n pc P)
    (hmn : m ≤ n) : L.Checked A m pc P := by
  induction n, hmn using Nat.le_induction with
  | base => exact h
  | succ n _ ih => exact ih h.pred

/-- A call goes to where the function stands. -/
theorem code_of_call {pc : Nat} {name : String} (hplaced : L.Placed pc [.call name]) :
    ∃ address : Nat, L.symbols name = some address ∧
      (Int32.ofInt (address : Nat)).toInt = address ∧
      CodeAt L.code pc [InstructionSet.call (Int32.ofInt (address : Nat))] ∧
      width (InstructionSet.call (Int32.ofInt (address : Nat)) : ι)
        = Line.length [(.call name : Line ι)] := by
  obtain ⟨address, haddress⟩ := hplaced.resolved name (List.mem_singleton_self _)
  obtain ⟨scope, d, -, hbody, -⟩ := L.function name address haddress
  refine ⟨address, haddress, ?_, ?_, ?_⟩
  · have hend := hbody.end_le
    have hsmall := L.small
    exact Int32.toInt_ofInt_of_le (by omega) (by omega)
  · have := hplaced.code
    rwa [List.map_singleton, Line.link, haddress] at this
  · rw [Line.length_eq_codeLength (fun _ => Int32.ofInt (address : Nat)), List.map_singleton,
      codeLength_cons, codeLength_nil, Nat.add_zero, Line.link]

/-- A call of a function whose arguments are in the slots above the frame. -/
theorem Checked.call {n pc : Nat} {P : Point A.Operands} {name : String}
    (hplaced : L.Placed pc [.call name])
    (hdoes : ∀ target ops, A.Does (InstructionSet.call target) ops (.call target))
    (hpassed : L.complete → Set.Ico frameSize (frameSize + L.arity name) ⊆ P.passed)
    (hnext : L.Checked A n (pc + Line.length [(.call name : Line ι)])
      { P with operands := A.resumed P.operands, passed := ∅ }) : L.Checked A (n + 1) pc P := by
  obtain ⟨address, haddress, htarget, hcode, hwidth⟩ := code_of_call hplaced
  obtain ⟨scope, d, hfits, hbody, hcomplete⟩ := L.function name address haddress
  rw [← hwidth] at hnext
  refine ⟨_, _, hcode, hdoes _ _, address, d.args.length, htarget, ?_, fun h slot hslot => ?_,
    hnext⟩
  · exact ⟨scope, d, rfl, hfits, hbody, fun h => (hcomplete h).2⟩
  · have harity := (hcomplete h).1
    exact hpassed h ⟨by omega, by omega⟩

end Linked

/-! ## Assertions -/

/-- What code counts on at a position. -/
structure Assertion (α : Type) where
  operands : α → Prop
  own : Set Nat
  passed : Set Nat := ∅

namespace Assertion

variable {α : Type}

/-- A point of an activation where all of it is known. -/
structure Holds (R : Assertion α) (P : Point α) : Prop where
  inside : P.inside = true
  operands : R.operands P.operands
  own : R.own ⊆ P.own
  passed : R.passed ⊆ P.passed

theorem Holds.weaken {R R' : Assertion α} {P : Point α} (h : R.Holds P)
    (hoperands : ∀ ops, R.operands ops → R'.operands ops) (hown : R'.own ⊆ R.own)
    (hpassed : R'.passed ⊆ R.passed) : R'.Holds P :=
  ⟨h.inside, hoperands _ h.operands, hown.trans h.own, hpassed.trans h.passed⟩

end Assertion

namespace Linked

variable {C : Pieces ι} (L : Linked C) (A : Analysis ι)

/-- Code from a position on is fine wherever the assertion holds. -/
def Ready (n pc : Nat) (R : Assertion A.Operands) : Prop := ∀ P, R.Holds P → L.Checked A n pc P

/-- Lines that lead from one assertion to another: they are fine as long as the code
after them is. -/
def Leads (lines : List (Line ι)) (R R' : Assertion A.Operands) : Prop :=
  ∀ n pc, L.Placed pc lines → L.Ready A n (pc + Line.length lines) R' → L.Ready A n pc R

variable {L A} {Q Q' : A.Operands → Prop} {own passed : Set Nat}
  {R R' R'' : Assertion A.Operands}

theorem Ready.mono {m n pc : Nat} (h : L.Ready A n pc R) (hmn : m ≤ n) : L.Ready A m pc R :=
  fun P hP => (h P hP).mono hmn

theorem Ready.weaken {n pc : Nat} (h : L.Ready A n pc R')
    (himp : ∀ P, R.Holds P → R'.Holds P) : L.Ready A n pc R :=
  fun P hP => h P (himp P hP)

namespace Leads

theorem nil : L.Leads A [] R R := fun _ _ _ h => h

theorem append {a b : List (Line ι)} (ha : L.Leads A a R R') (hb : L.Leads A b R' R'') :
    L.Leads A (a ++ b) R R'' := by
  intro n pc hplaced h
  rw [Line.length_append, ← Nat.add_assoc] at h
  exact ha n pc hplaced.left (hb n _ hplaced.right h)

theorem weaken {lines : List (Line ι)} (h : L.Leads A lines R R')
    (himp : ∀ P, R'.Holds P → R''.Holds P) : L.Leads A lines R R'' :=
  fun n pc hplaced hnext => h n pc hplaced (hnext.weaken himp)

/-- It is enough to start from operands that are known. -/
theorem of_operands {lines : List (Line ι)}
    (h : ∀ ops, Q ops → L.Leads A lines ⟨(· = ops), own, passed⟩ R') :
    L.Leads A lines ⟨Q, own, passed⟩ R' := by
  intro n pc hplaced hnext P hP
  exact h P.operands hP.operands n pc hplaced hnext P ⟨hP.inside, rfl, hP.own, hP.passed⟩

/-- One instruction that goes on to the next. -/
theorem single {i : ι}
    (h : ∀ P, R.Holds P → ∃ e, A.Does i P.operands e ∧
      ∀ {next : Nat → Point A.Operands → Prop} {stop : Nat},
        (∀ P', R'.Holds P' → next stop P') → L.Follows A next stop P e) :
    L.Leads A (Line.ofCode [i]) R R' := by
  intro n pc hplaced hnext P hP
  cases n with
  | zero => trivial
  | succ n =>
      obtain ⟨e, hdoes, hfollows⟩ := h P hP
      rw [Line.length_ofCode, codeLength_cons, codeLength_nil, Nat.add_zero] at hnext
      exact ⟨i, e, hplaced.ofCode, hdoes, hfollows (hnext.mono (Nat.le_succ n))⟩

theorem constant {i : ι}
    (h : ∀ ops, Q ops → ∃ after, A.Does i ops (.constant after) ∧ Q' after) :
    L.Leads A (Line.ofCode [i]) ⟨Q, own, passed⟩ ⟨Q', own, passed⟩ := by
  refine single fun P hP => ?_
  obtain ⟨after, hdoes, hafter⟩ := h P.operands hP.operands
  exact ⟨_, hdoes, fun hnext => hnext _ ⟨hP.inside, hafter, hP.own, hP.passed⟩⟩

theorem compute {i : ι}
    (h : ∀ ops, Q ops → ∃ after, A.Does i ops (.compute after) ∧ Q' after) :
    L.Leads A (Line.ofCode [i]) ⟨Q, own, passed⟩ ⟨Q', own, ∅⟩ := by
  refine single fun P hP => ?_
  obtain ⟨after, hdoes, hafter⟩ := h P.operands hP.operands
  exact ⟨_, hdoes, fun hnext => hnext _ ⟨hP.inside, hafter, hP.own, Set.empty_subset _⟩⟩

theorem load {i : ι} {slot : Nat} (hslot : slot < frameSize) (hmem : slot ∈ own)
    (h : ∀ ops, Q ops → ∃ after, A.Does i ops (.load slot after) ∧ Q' after) :
    L.Leads A (Line.ofCode [i]) ⟨Q, own, passed⟩ ⟨Q', own, ∅⟩ := by
  refine single fun P hP => ?_
  obtain ⟨after, hdoes, hafter⟩ := h P.operands hP.operands
  refine ⟨_, hdoes, fun hnext => ⟨hP.inside, hslot, hP.own hmem, hnext _ ?_⟩⟩
  exact ⟨hP.inside, hafter, hP.own, Set.empty_subset _⟩

theorem store {i : ι} {slot : Nat} (hslot : slot < frameSize + frameSize)
    (h : ∀ ops, Q ops → ∃ after, A.Does i ops (.store slot after) ∧ Q' after) :
    L.Leads A (Line.ofCode [i]) ⟨Q, own, passed⟩ ⟨Q', insert slot own, insert slot passed⟩ := by
  refine single fun P hP => ?_
  obtain ⟨after, hdoes, hafter⟩ := h P.operands hP.operands
  refine ⟨_, hdoes, fun hnext => ⟨hP.inside, hslot, hnext _ ?_⟩⟩
  exact ⟨hP.inside, hafter, Set.insert_subset_insert hP.own, Set.insert_subset_insert hP.passed⟩

/-- A call with `count` arguments in the slots above the frame. -/
theorem call {name : String} {count : Nat}
    (hdoes : ∀ target ops, A.Does (InstructionSet.call target) ops (.call target))
    (hcount : L.complete → L.arity name ≤ count)
    (hresumed : ∀ ops, Q ops → Q' (A.resumed ops)) :
    L.Leads A [.call name] ⟨Q, own, Set.Ico frameSize (frameSize + count)⟩ ⟨Q', own, ∅⟩ := by
  intro n pc hplaced hnext P hP
  cases n with
  | zero => trivial
  | succ n =>
      refine Checked.call hplaced hdoes (fun h => ?_) (hnext.mono (Nat.le_succ n) _ ?_)
      · exact (Set.Ico_subset_Ico_right (Nat.add_le_add_left (hcount h) _)).trans hP.passed
      · exact ⟨hP.inside, hresumed _ hP.operands, hP.own, Set.empty_subset _⟩

/-- A return leads anywhere. -/
theorem ret {i : ι} (h : ∀ ops, Q ops → A.Does i ops .ret) :
    L.Leads A (Line.ofCode [i]) ⟨Q, own, passed⟩ R' :=
  single fun P hP => ⟨_, h P.operands hP.operands, fun _ => hP.inside⟩

end Leads

theorem Ready.jump {n pc target : Nat} {i : ι} {offset : Word}
    (hplaced : L.Placed pc (Line.ofCode [i]))
    (h : ∀ ops, Q ops → ∃ after, A.Does i ops (.jump offset after) ∧ Q' after)
    (htarget : (target : Int) = (pc + width i : Nat) + offset.toInt)
    (hnext : ∀ m < n, L.Ready A m target ⟨Q', own, ∅⟩) :
    L.Ready A n pc ⟨Q, own, passed⟩ := by
  intro P hP
  cases n with
  | zero => trivial
  | succ n =>
      obtain ⟨after, hdoes, hafter⟩ := h P.operands hP.operands
      refine ⟨i, _, hplaced.ofCode, hdoes, target, htarget, hnext n (Nat.lt_succ_self n) _ ?_⟩
      exact ⟨hP.inside, hafter, hP.own, Set.empty_subset _⟩

theorem Ready.branch {n pc target : Nat} {i : ι} {offset : Word}
    (hplaced : L.Placed pc (Line.ofCode [i]))
    (h : ∀ ops, Q ops → ∃ after, A.Does i ops (.branch offset after) ∧ Q' after)
    (htarget : (target : Int) = (pc + width i : Nat) + offset.toInt)
    (hstay : L.Ready A n (pc + width i) ⟨Q', own, ∅⟩)
    (hnext : L.Ready A n target ⟨Q', own, ∅⟩) : L.Ready A n pc ⟨Q, own, passed⟩ := by
  intro P hP
  cases n with
  | zero => trivial
  | succ n =>
      obtain ⟨after, hdoes, hafter⟩ := h P.operands hP.operands
      have hholds : Assertion.Holds ⟨Q', own, ∅⟩ { P with operands := after, passed := ∅ } :=
        ⟨hP.inside, hafter, hP.own, Set.empty_subset _⟩
      exact ⟨i, _, hplaced.ofCode, hdoes, hstay.mono (Nat.le_succ n) _ hholds, target, htarget,
        hnext.mono (Nat.le_succ n) _ hholds⟩

end Linked

/-! ## Statements and functions -/

/-- What code between two statements counts on: the variables have been written. -/
def Analysis.between (A : Analysis ι) (vars : List String) : Assertion A.Operands :=
  ⟨A.idle, Set.Iio vars.length, ∅⟩

namespace Analysis

variable {A : Analysis ι} {vars : List String}

/-- A declared variable has been written as well. -/
theorem between_declared (x : String) {P : Point A.Operands}
    (hP : Assertion.Holds ⟨A.idle, insert vars.length (Set.Iio vars.length), ∅⟩ P) :
    (A.between (vars ++ [x])).Holds P := by
  refine hP.weaken (fun _ h => h) (fun k hk => ?_) (Set.empty_subset _)
  rw [between, Set.mem_Iio, List.length_append, List.length_singleton] at hk
  rcases Nat.lt_or_eq_of_le (Nat.le_of_lt_succ hk) with hlt | heq
  · exact Set.mem_insert_of_mem _ hlt
  · exact heq ▸ Set.mem_insert ..

/-- Fewer variables have been written as well. -/
theorem between_prefix {vars' : List String} (hvars : vars <+: vars') {P : Point A.Operands}
    (hP : (A.between vars').Holds P) : (A.between vars).Holds P :=
  hP.weaken (fun _ h => h) (Set.Iio_subset_Iio hvars.length_le) (Set.empty_subset _)

/-- What a block declares is given up after it. -/
theorem inBlock {C : Pieces ι} {L : Linked C} {lines : List (Line ι)} {ss : List Stmt}
    (h : L.Leads A lines (A.between vars) (A.between (ss.foldl Stmt.declared vars))) :
    L.Leads A lines (A.between vars) (A.between vars) :=
  h.weaken fun _ => between_prefix (Stmt.prefix_foldl_declared vars ss)

end Analysis

/-- The pieces of the code keep to what is asked of them. -/
structure Analysis.Accepts (A : Analysis ι) (C : Pieces ι) : Prop where
  idle_fresh : A.idle A.fresh
  call : ∀ target ops, A.Does (InstructionSet.call target) ops (.call target)
  halt : ∀ ops, A.Does InstructionSet.halt ops .halt
  jumpLength_eq : ∀ offset, codeLength (C.jump offset) = C.jumpLength
  expr : ∀ (L : Linked C) {scope vars e}, C.fits vars e → vars.length ≤ frameSize →
    (L.complete → e.saturated (fun f => L.arity (scope.qualify f)) = true) →
    L.Leads A (C.expr scope vars e) (A.between vars) ⟨A.value, Set.Iio vars.length, ∅⟩
  store : ∀ (L : Linked C) {slot own}, slot < frameSize →
    L.Leads A (Line.ofCode (C.store slot)) ⟨A.value, own, ∅⟩ ⟨A.idle, insert slot own, ∅⟩
  ret : ∀ (L : Linked C) {own R}, L.Leads A (Line.ofCode C.ret) ⟨A.value, own, ∅⟩ R
  zero : ∀ (L : Linked C) {own},
    L.Leads A (Line.ofCode C.zero) ⟨A.idle, own, ∅⟩ ⟨A.value, own, ∅⟩
  invert : ∀ (L : Linked C) {own},
    L.Leads A (Line.ofCode C.invert) ⟨A.value, own, ∅⟩ ⟨A.value, own, ∅⟩
  jump : ∀ (L : Linked C) {n pc target : Nat} {offset own},
    L.Placed pc (Line.ofCode (C.jump offset)) →
    (target : Int) = (pc + codeLength (C.jump offset) : Nat) + offset.toInt →
    (∀ m < n, L.Ready A m target ⟨A.idle, own, ∅⟩) → L.Ready A n pc ⟨A.idle, own, ∅⟩
  cjump : ∀ (L : Linked C) {n pc target : Nat} {offset own},
    L.Placed pc (Line.ofCode (C.cjump offset)) →
    (target : Int) = (pc + codeLength (C.cjump offset) : Nat) + offset.toInt →
    L.Ready A n (pc + codeLength (C.cjump offset)) ⟨A.idle, own, ∅⟩ →
    L.Ready A n target ⟨A.idle, own, ∅⟩ → L.Ready A n pc ⟨A.value, own, ∅⟩

namespace Analysis.Accepts

variable {C : Pieces ι} {A : Analysis ι} {L : Linked C} {own : Set Nat}
  {cond a b : List (Line ι)}

theorem conditional (hA : A.Accepts C)
    (hcond : L.Leads A cond ⟨A.idle, own, ∅⟩ ⟨A.value, own, ∅⟩)
    (ha : L.Leads A a ⟨A.idle, own, ∅⟩ ⟨A.idle, own, ∅⟩)
    (hb : L.Leads A b ⟨A.idle, own, ∅⟩ ⟨A.idle, own, ∅⟩) :
    L.Leads A (C.conditional cond a b) ⟨A.idle, own, ∅⟩ ⟨A.idle, own, ∅⟩ := by
  intro n pc hplaced hnext
  have hend := hplaced.end_le
  have hsmall := L.small
  rw [Pieces.conditional] at hplaced hend hnext
  have hplacedCond := hplaced.left.left.left.left
  have hplacedCjump := hplaced.left.left.left.right
  have hplacedFalse := hplaced.left.left.right
  have hplacedJump := hplaced.left.right
  have hplacedTrue := hplaced.right
  simp only [Line.length_append, Line.length_ofCode, hA.jumpLength_eq, ← Nat.add_assoc]
    at hplacedFalse hplacedJump hplacedTrue hend hnext
  have hfalseOffset : (Int32.ofNat (Line.length b + C.jumpLength)).toInt
      = (Line.length b + C.jumpLength : Nat) := Int32.toInt_ofNat_of_lt (by omega)
  have htrueOffset : (Int32.ofNat (Line.length a)).toInt = (Line.length a : Nat) :=
    Int32.toInt_ofNat_of_lt (by omega)
  have htrue := ha n _ hplacedTrue hnext
  have hjump := hA.jump L hplacedJump (by rw [hA.jumpLength_eq]; omega)
    fun m hm => hnext.mono (Nat.le_of_lt hm)
  have hfalse := hb n _ hplacedFalse hjump
  exact hcond n pc hplacedCond (hA.cjump L hplacedCjump (by omega) hfalse htrue)

theorem loop (hA : A.Accepts C) (hcond : L.Leads A cond ⟨A.idle, own, ∅⟩ ⟨A.value, own, ∅⟩)
    (ha : L.Leads A a ⟨A.idle, own, ∅⟩ ⟨A.idle, own, ∅⟩) :
    L.Leads A (C.loop cond a) ⟨A.idle, own, ∅⟩ ⟨A.idle, own, ∅⟩ := by
  intro n pc hplaced hnext
  have hend := hplaced.end_le
  have hsmall := L.small
  rw [Pieces.loop] at hplaced hend hnext
  have hplacedCond := hplaced.left.left.left.left
  have hplacedInvert := hplaced.left.left.left.right
  have hplacedCjump := hplaced.left.left.right
  have hplacedBody := hplaced.left.right
  have hplacedJump := hplaced.right
  simp only [Pieces.round, Line.length_append, Line.length_ofCode, hA.jumpLength_eq,
    ← Nat.add_assoc] at hplacedCjump hplacedBody hplacedJump hend hnext
  have hexit : (Int32.ofNat (Line.length a + C.jumpLength)).toInt
      = (Line.length a + C.jumpLength : Nat) := Int32.toInt_ofNat_of_lt (by omega)
  -- the jump back goes over code of the program, so its offset is a word
  have hback := Int32.toInt_ofInt_of_le
    (n := -(Line.length cond + codeLength C.invert
      + codeLength (C.cjump (Int32.ofNat (Line.length a + C.jumpLength)))
      + Line.length a + C.jumpLength : Nat)) (by omega) (by omega)
  -- a jump back leaves fewer steps
  induction n using Nat.strong_induction_on with
  | _ n ih =>
      have hjump := hA.jump L hplacedJump (by rw [hA.jumpLength_eq]; omega)
        fun m hm => ih m hm (hnext.mono (Nat.le_of_lt hm))
      have hbody := ha n _ hplacedBody hjump
      have hcjump := hA.cjump L hplacedCjump (by omega) hbody hnext
      refine hcond n pc hplacedCond (hA.invert L n _ hplacedInvert ?_)
      rw [Line.length_ofCode]
      exact hcjump

mutual

theorem statement (hA : A.Accepts C) {scope : Scope} : ∀ (st : Stmt) (vars : List String),
    C.StatementFits vars st → vars.length ≤ frameSize →
    (L.complete → st.saturated (fun f => L.arity (scope.qualify f)) = true) →
    L.Leads A (C.statement scope vars st) (A.between vars) (A.between (st.declared vars))
  | .var x value, vars, hfits, hvars, hsat => by
      rw [Pieces.StatementFits] at hfits
      rw [Pieces.statement]
      exact (hA.expr L hfits.1 hvars hsat).append
        ((hA.store L hfits.2.2).weaken fun _ => Analysis.between_declared x)
  | .assign x value, vars, hfits, hvars, hsat => by
      rw [Pieces.StatementFits] at hfits
      rw [Pieces.statement]
      have hslot : vars.idxOf x < frameSize :=
        Nat.lt_of_lt_of_le (List.idxOf_lt_length_of_mem hfits.2) hvars
      refine (hA.expr L hfits.1 hvars hsat).append ((hA.store L hslot).weaken fun P hP => ?_)
      exact hP.weaken (fun _ h => h) (Set.subset_insert _ _) (Set.empty_subset _)
  | .return value, vars, hfits, hvars, hsat => by
      rw [Pieces.StatementFits] at hfits
      rw [Pieces.statement]
      exact (hA.expr L hfits hvars hsat).append (hA.ret L)
  | .if cond onTrue none, vars, hfits, hvars, hsat => by
      rw [Pieces.StatementFits] at hfits
      rw [Pieces.statement]
      simp only [Stmt.saturated, Bool.and_eq_true] at hsat
      exact hA.conditional (hA.expr L hfits.1 hvars fun h => (hsat h).1)
        (Analysis.inBlock (statements hA onTrue vars hfits.2 hvars fun h => (hsat h).2)) .nil
  | .if cond onTrue (some onFalse), vars, hfits, hvars, hsat => by
      rw [Pieces.StatementFits] at hfits
      rw [Pieces.statement]
      simp only [Stmt.saturated, Bool.and_eq_true] at hsat
      exact hA.conditional (hA.expr L hfits.1 hvars fun h => (hsat h).1.1)
        (Analysis.inBlock (statements hA onTrue vars hfits.2.1 hvars fun h => (hsat h).1.2))
        (Analysis.inBlock (statements hA onFalse vars hfits.2.2 hvars fun h => (hsat h).2))
  | .while cond body, vars, hfits, hvars, hsat => by
      rw [Pieces.StatementFits] at hfits
      rw [Pieces.statement]
      simp only [Stmt.saturated, Bool.and_eq_true] at hsat
      exact hA.loop (hA.expr L hfits.1 hvars fun h => (hsat h).1)
        (Analysis.inBlock (statements hA body vars hfits.2 hvars fun h => (hsat h).2))

theorem statements (hA : A.Accepts C) {scope : Scope} : ∀ (ss : List Stmt) (vars : List String),
    C.StatementsFit vars ss → vars.length ≤ frameSize →
    (L.complete → Stmt.saturatedAll (fun f => L.arity (scope.qualify f)) ss = true) →
    L.Leads A (C.statements scope vars ss) (A.between vars)
      (A.between (ss.foldl Stmt.declared vars))
  | [], vars, _, _, _ => by
      rw [Pieces.statements]
      exact .nil
  | st :: ss, vars, hfits, hvars, hsat => by
      rw [Pieces.StatementsFit] at hfits
      rw [Pieces.statements]
      simp only [Stmt.saturatedAll, Bool.and_eq_true] at hsat
      exact (statement hA st vars hfits.1 hvars fun h => (hsat h).1).append
        (statements hA ss (st.declared vars) hfits.2 (Pieces.length_declared_le hfits.1 hvars)
          fun h => (hsat h).2)

end

/-- The code of a body returns, so nothing is asked of what stands after it. -/
theorem body (hA : A.Accepts C) {scope : Scope} {vars : List String} {body : Body}
    (hfits : C.BodyFits vars body) (hvars : vars.length ≤ frameSize)
    (hsat : L.complete → body.saturated (fun f => L.arity (scope.qualify f)) = true)
    {R : Assertion A.Operands} : L.Leads A (C.body scope vars body) (A.between vars) R := by
  cases body with
  | block ss =>
      rw [Pieces.body]
      exact ((hA.statements ss vars hfits hvars hsat).append (hA.zero L)).append (hA.ret L)
  | expression value =>
      rw [Pieces.body]
      exact (hA.expr L hfits hvars hsat).append (hA.ret L)

/-- The code of a function is fine where its activations begin. -/
theorem entry_checked (hA : A.Accepts C) {address count : Nat} (h : L.Entry address count)
    (n : Nat) :
    L.Checked A n address ⟨A.fresh, Set.Iio count, ∅, true⟩ := by
  obtain ⟨scope, d, rfl, ⟨hdeclarable, hfits⟩, hplaced, hsat⟩ := h
  have hvars : d.args.length ≤ frameSize := hdeclarable.length_le (Nat.zero_le _)
  refine hA.body hfits hvars hsat n address hplaced (R := ⟨fun _ => False, ∅, ∅⟩) ?_ _ ?_
  · intro P hP
    exact hP.operands.elim
  · exact ⟨rfl, hA.idle_fresh, subset_rfl, subset_rfl⟩

/-- The code that a program begins with is fine. -/
theorem start_checked (hA : A.Accepts C) {entry : String}
    (hplaced : L.Placed 0 [.call entry, .plain InstructionSet.halt])
    (hentry : L.complete → L.arity entry = 0) (n : Nat) :
    L.Checked A n 0 ⟨A.fresh, ∅, ∅, false⟩ := by
  cases n with
  | zero => trivial
  | succ n =>
      have hfirst : L.Placed 0 [.call entry] := hplaced.left (b := [.plain InstructionSet.halt])
      have hhalt := hplaced.right (a := [.call entry]) (b := [.plain InstructionSet.halt])
      refine Linked.Checked.call hfirst hA.call (fun h => ?_) ?_
      · rw [hentry h, Nat.add_zero, Set.Ico_self]
      · cases n with
        | zero => trivial
        | succ n => exact ⟨_, .halt, hhalt.code, hA.halt _, trivial⟩

end Analysis.Accepts

end

end DualMachine
