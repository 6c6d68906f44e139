import DualMachine.Proofs.Ledgers
import DualMachine.Proofs.Statements

/-!
# Points of compilation

A generator takes a draft to a draft, and the drafts in between do not show. A `Recorded` generator
writes them down: it works on ledgers, and notes the moments before and after each operation, with
the instruction that is appended next. That no instruction is appended without a moment of its own
is part of the type (`Recorded.accounts`). A measurement is made on a copy of the whole ledger, code
and all, so the moments inside it are those of the copy as it grows. A recorded generator `Follows`
a generator if, without the record, it does to the ledger of a draft what the generator does to the
draft.

`Addressing` says how the code of a machine goes to the frame, and which slots a load or store may
go to while a table is in force. `Recorded.InOrder` says of a generator that it goes only through
tidy ledgers and appends only such loads and stores. There is one lemma for each operation, so that
this is shown along the definition of a generator.

Statements are compiled in the same way for both machines, so they are recorded once, for any
`Generator` whose expressions are (`Recorder.body_follows`, `Recorder.body_steady`).
-/

namespace DualMachine

open Source

/-! ## Recordings -/

/-- A point of a compilation: the ledger there, and the instruction that is appended to it next,
if one is. -/
structure Moment where
  ledger : Ledger
  next : Option Instruction

/-- What is recorded of the run of a generator. -/
structure Recording (α : Type) where
  moments : List Moment
  result : EStateM.Result CompileError Ledger α

namespace Recording

variable {α β : Type}

/-- The code has grown from that of `c`, and each instruction was appended at one of the
moments. -/
def Accounts (r : Recording α) (c : Ledger) : Prop :=
  ∃ added, (Ledger.left r.result).code.toList = c.code.toList ++ added ∧
    ∀ front i back, added = front ++ i :: back →
      ∃ m ∈ r.moments, m.next = some i ∧ m.ledger.code.toList = c.code.toList ++ front

theorem accounts_of_code {r : Recording α} {c : Ledger} (h : (Ledger.left r.result).code = c.code) :
    r.Accounts c :=
  ⟨[], by rw [h, List.append_nil], by simp⟩

/-- A recording and, if there is a result, what is recorded after it. -/
def andThen (r : Recording α) (k : α → Ledger → Recording β) : Recording β :=
  match r.result with
  | .ok a c => ⟨r.moments ++ (k a c).moments, (k a c).result⟩
  | .error e c => ⟨r.moments, .error e c⟩

theorem Accounts.andThen {r : Recording α} {k : α → Ledger → Recording β} {c : Ledger}
    (hr : r.Accounts c) (hk : ∀ a c', (k a c').Accounts c') : (r.andThen k).Accounts c := by
  obtain ⟨added, hcode, hadded⟩ := hr
  rw [Recording.andThen]
  cases hresult : r.result with
  | error e c' =>
      rw [hresult] at hcode
      exact ⟨added, hcode, hadded⟩
  | ok a c' =>
      rw [hresult] at hcode
      obtain ⟨more, hmore, hafter⟩ := hk a c'
      refine ⟨added ++ more, ?_, fun front i back hsplit => ?_⟩
      · rw [← List.append_assoc, ← hcode]
        exact hmore
      rcases List.append_eq_append_iff.mp hsplit with ⟨rest, rfl, hrest⟩ | ⟨rest, hfront, hrest⟩
      · -- the instruction comes after those of the first part
        obtain ⟨m, hm, hnext, hledger⟩ := hafter rest i back hrest
        refine ⟨m, List.mem_append_right _ hm, hnext, ?_⟩
        rw [hledger, ← List.append_assoc, ← hcode]
        rfl
      · cases rest with
        | nil =>
            obtain ⟨m, hm, hnext, hledger⟩ := hafter [] i back hrest.symm
            refine ⟨m, List.mem_append_right _ hm, hnext, ?_⟩
            rw [List.append_nil] at hfront
            rw [hledger, List.append_nil, ← hfront, ← hcode]
            rfl
        | cons j rest =>
            obtain ⟨rfl, -⟩ := List.cons.inj hrest
            obtain ⟨m, hm, hnext, hledger⟩ := hadded front i rest hfront
            exact ⟨m, List.mem_append_left _ hm, hnext, hledger⟩

end Recording

/-! ## Recorded generators -/

/-- A generator that is recorded while it runs. -/
structure Recorded (α : Type) where
  run : Ledger → Recording α
  accounts : ∀ c, (run c).Accounts c

namespace Recorded

variable {α β : Type}

instance : Monad Recorded where
  pure a := ⟨fun c => ⟨[], .ok a c⟩, fun _ => Recording.accounts_of_code rfl⟩
  bind x f := ⟨fun c => (x.run c).andThen fun a => (f a).run,
    fun c => (x.accounts c).andThen fun a => (f a).accounts⟩

/-- What is done, without the recording. -/
def erase (x : Recorded α) : Ledger.Op α := fun c => (x.run c).result

/-- An operation that appends nothing. -/
def operation (op : Ledger.Op α) (h : ∀ c, (Ledger.left (op c)).code = c.code) : Recorded α where
  run c := ⟨[⟨c, none⟩, ⟨Ledger.left (op c), none⟩], op c⟩
  accounts c := Recording.accounts_of_code (h c)

/-- An operation that leaves the ledger as it is. -/
def look (op : Ledger.Op α) (h : ∀ c, Ledger.left (op c) = c) : Recorded α :=
  operation op fun c => congrArg Ledger.code (h c)

/-- Number of variables in scope. -/
def count : Recorded Nat := look Ledger.count fun _ => rfl

/-- Length of the code so far. -/
def codeSize : Recorded Nat := look Ledger.codeSize fun _ => rfl

/-- The slot of a variable. -/
def slot (name : String) : Recorded Nat := look (Ledger.slot name) (Ledger.left_slot name)

/-- The name under which a function is called. -/
def callee (name : String) : Recorded String := look (Ledger.callee name) fun _ => rfl

/-- Fails with an error that names the function. -/
def refuse (e : String → CompileError) : Recorded α := look (Ledger.refuse e) fun _ => rfl

/-- Refuses what needs more than a frame's slots. -/
def overflow (slots : Nat) : Recorded Unit := refuse (.frameOverflow · slots)

/-- Gives the next slot to a variable. -/
def declare (name : String) : Recorded Nat :=
  operation (Ledger.declare name) fun c => by
    rcases Ledger.declare_cases name c with ⟨e, h⟩ | ⟨-, -, h⟩ <;> rw [h] <;> rfl

/-- Gives slots to variables, one after the other. -/
def declareAll : List String → Recorded Unit
  | [] => pure ()
  | name :: names => do
    let _ ← declare name
    declareAll names

/-- Appends an instruction. -/
def emit (i : Instruction) : Recorded Unit where
  run c := ⟨[⟨c, some i⟩, ⟨c.push i, none⟩], Ledger.emit i c⟩
  accounts c := by
    refine ⟨[i], Array.toList_push, fun front j back hsplit => ?_⟩
    obtain ⟨rfl, rfl, rfl⟩ : front = [] ∧ i = j ∧ back = [] := by
      cases front with
      | nil => simpa using hsplit
      | cons _ _ => simp at hsplit
    exact ⟨⟨c, some i⟩, by simp⟩

/-- Appends instructions one after the other. -/
def emitAll : List Instruction → Recorded Unit
  | [] => pure ()
  | i :: is => do
    emit i
    emitAll is

/-- Appends code without calls. -/
def code {ι : Type} [InstructionSet ι] (is : List ι) : Recorded Unit :=
  emitAll ((Line.ofCode is).map Line.symbolic)

/-- Runs `x` in a nested block. -/
def inBlock (x : Recorded α) : Recorded α where
  run c := ⟨(x.run c).moments ++ [⟨Ledger.left (Ledger.inScope x.erase c), none⟩],
    Ledger.inScope x.erase c⟩
  accounts c := by
    obtain ⟨added, hcode, hadded⟩ := x.accounts c
    refine ⟨added, ?_, fun front i back hsplit => ?_⟩
    · rw [← hcode, Ledger.left_inScope]
      rfl
    · obtain ⟨m, hm, hmoment⟩ := hadded front i back hsplit
      exact ⟨m, List.mem_append_left _ hm, hmoment⟩

/-- The table is left as it was found, whether there is a result or not. -/
theorem table_inBlock (x : Recorded α) (c : Ledger) :
    (Ledger.left (x.inBlock.run c).result).table = c.table := by
  show (Ledger.left (Ledger.inScope x.erase c)).table = c.table
  rw [Ledger.left_inScope]

/-- The number of bytes that `x` would append. The moments of `x` are those of a copy. -/
def measure (x : Recorded Unit) : Recorded Nat where
  run c := ⟨⟨c, none⟩ :: (x.run c).moments ++ [⟨c, none⟩], Ledger.measure x.erase c⟩
  accounts c := Recording.accounts_of_code <| congrArg Ledger.code (Ledger.left_measure x.erase c)

/-! ### Following a generator -/

/-- Without the recording, `x` does to the ledger of a draft what `g` does to the draft. -/
def Follows (x : Recorded α) (g : Gen α) : Prop := Ledger.Op.Follows x.erase g

theorem erase_bind (x : Recorded α) (f : α → Recorded β) :
    (x >>= f).erase = x.erase >>= fun a => (f a).erase := by
  funext c
  show ((x.run c).andThen fun a => (f a).run).result = EStateM.bind x.erase _ c
  rw [Recording.andThen, EStateM.bind, erase]
  cases (x.run c).result <;> rfl

namespace Follows

variable {x y : Recorded α} {g g' : Gen α}

protected theorem pure (a : α) : Follows (Pure.pure a) (Pure.pure a) := Ledger.Op.Follows.pure a

protected theorem bind {f : α → Recorded β} {k : α → Gen β} (hx : x.Follows g)
    (hf : ∀ a, (f a).Follows (k a)) : (x >>= f).Follows (g >>= k) := by
  rw [Follows, erase_bind]
  exact Ledger.Op.Follows.bind hx hf

protected theorem ite {c : Prop} [Decidable c] (hx : x.Follows g) (hy : y.Follows g') :
    (if c then x else y).Follows (if c then g else g') := by
  split
  · exact hx
  · exact hy

/-- The variables of a draft are counted in its ledger. -/
theorem count {f : Nat → Recorded β} {k : Draft → Gen β}
    (h : ∀ d : Draft, (f d.vars.length).Follows (k d)) :
    (Recorded.count >>= f).Follows (get >>= k) := by
  intro d
  have hcount : d.ledger.table.length = d.vars.length := List.length_zipIdx
  have hfollows := h d d
  rw [← hcount] at hfollows
  rw [erase_bind]
  exact hfollows

theorem codeSize {f : Nat → Recorded β} {k : Draft → Gen β}
    (h : ∀ d : Draft, (f d.size).Follows (k d)) :
    (Recorded.codeSize >>= f).Follows (get >>= k) := by
  intro d
  rw [erase_bind]
  exact h d d

theorem slot (name : String) : (Recorded.slot name).Follows (Gen.slot name) :=
  Ledger.Op.Follows.slot name

theorem callee (name : String) : (Recorded.callee name).Follows (Gen.callee name) :=
  Ledger.Op.Follows.callee name

theorem overflow (slots : Nat) : (Recorded.overflow slots).Follows (Gen.overflow slots) :=
  fun _ => rfl

theorem declare (name : String) : (Recorded.declare name).Follows (Gen.declare name) :=
  Ledger.Op.Follows.declare name

theorem declareAll (names : List String) :
    (Recorded.declareAll names).Follows (names.forM fun name => do let _ ← Gen.declare name) := by
  induction names with
  | nil => exact .pure ()
  | cons name names ih =>
      rw [Recorded.declareAll, List.forM]
      simp only [bind_assoc, pure_bind]
      exact .bind (declare name) fun _ => ih

theorem inBlock (hx : x.Follows g) : (Recorded.inBlock x).Follows (Gen.inBlock g) :=
  Ledger.Op.Follows.inScope hx

theorem measure {x : Recorded Unit} {g : Gen Unit} (hx : x.Follows g) :
    (Recorded.measure x).Follows (Gen.measure g) :=
  Ledger.Op.Follows.measure hx

theorem emits_forM {ι : Type} [InstructionSet ι] {scope : Scope} {vars : List String}
    (lines : List (Line ι)) :
    Gen.Emits scope vars ((lines.map Line.symbolic).forM Gen.emit) True () lines vars := by
  induction lines with
  | nil => exact .pure ()
  | cons l lines ih => exact (Gen.Emits.bind (.emit l) ih).congr and_self_iff rfl

/-- Code that is always appended is appended one instruction after the other. -/
theorem emitAll {ι : Type} [InstructionSet ι] {lines : List (Line ι)} {g : Gen Unit}
    (h : ∀ scope vars, Gen.Emits scope vars g True () lines vars) :
    (Recorded.emitAll (lines.map Line.symbolic)).Follows g := by
  have hg : g = (lines.map Line.symbolic).forM Gen.emit := by
    funext d
    have hd := (h d.scope d.vars d rfl rfl () _).mpr ⟨trivial, rfl, rfl⟩
    exact hd.trans ((emits_forM lines d rfl rfl () _).mpr ⟨trivial, rfl, rfl⟩).symm
  rw [hg]
  generalize lines.map Line.symbolic = is
  induction is with
  | nil => exact .pure ()
  | cons i is ih => exact .bind (Ledger.Op.Follows.emit i) fun _ => ih

theorem code {ι : Type} [InstructionSet ι] {is : List ι} {g : Gen Unit}
    (h : ∀ scope vars, Gen.Emits scope vars g True () (Line.ofCode is) vars) :
    (Recorded.code is).Follows g :=
  emitAll h

end Follows

end Recorded

/-! ## Loads and stores -/

/-- How the code of a machine goes to the frame. -/
structure Addressing where
  loadOp : Descriptor
  storeOp : Descriptor
  /-- Says which slot the next load or store goes to. -/
  lead : (slot : Nat) → List Instruction
  /-- Loads into a register, on a machine that has some. -/
  load : (register : Nat) → Instruction
  store : (register : Nat) → Instruction
  /-- Whether registers are kept in the frame during calls. -/
  spills : Prop

namespace Addressing

variable (A : Addressing) {table : List (String × Nat)} {code code' : List Instruction}

/-- Loads and stores. -/
def Accesses (i : Instruction) : Prop := i.descriptor = A.loadOp ∨ i.descriptor = A.storeOp

/-- What a load or store may go to while `table` is in force: the slot of a variable in it; a slot
above all of them, where the register is kept that is moved; or an argument of a callee, which is
stored behind the frame. -/
inductive Reaches (table : List (String × Nat)) : Instruction → (slot : Nat) → Prop where
  | read {x : String} {slot : Nat} (register : Nat) (h : table.lookup x = some slot) :
      Reaches table (A.load register) slot
  | write {x : String} {slot : Nat} (register : Nat) (h : table.lookup x = some slot) :
      Reaches table (A.store register) slot
  | keep {register : Nat} (hspills : A.spills) (h : table.length + register < frameSize) :
      Reaches table (A.store register) (table.length + register)
  | restore {register : Nat} (hspills : A.spills) (h : table.length + register < frameSize) :
      Reaches table (A.load register) (table.length + register)
  | pass {k : Nat} (register : Nat) (h : k < frameSize) :
      Reaches table (A.store register) (frameSize + k)

/-- Each load and store comes right after the code that says which slot it goes to. -/
def Placed (table : List (String × Nat)) (code : List Instruction) : Prop :=
  ∀ front i back, code = front ++ i :: back → A.Accesses i →
    ∃ before slot, front = before ++ A.lead slot ∧ A.Reaches table i slot

variable {A}

theorem placed_of_not (h : ∀ i ∈ code, ¬A.Accesses i) : A.Placed table code := by
  rintro front i back rfl hi
  exact absurd hi (h i (by simp))

theorem placed_ofCode {ι : Type} [InstructionSet ι] {is : List ι}
    (h : ∀ i ∈ is, ¬A.Accesses (InstructionSet.symbolic i)) :
    A.Placed table ((Line.ofCode is).map Line.symbolic) := by
  refine placed_of_not fun j hj => ?_
  rw [Line.ofCode, List.map_map] at hj
  obtain ⟨i, hi, rfl⟩ := List.mem_map.mp hj
  exact h i hi

theorem Placed.append (h : A.Placed table code) (h' : A.Placed table code') :
    A.Placed table (code ++ code') := by
  intro front i back hsplit hi
  rcases List.append_eq_append_iff.mp hsplit with ⟨rest, rfl, hrest⟩ | ⟨rest, hfront, hrest⟩
  · obtain ⟨before, slot, rfl, hslot⟩ := h' rest i back hrest hi
    exact ⟨code ++ before, slot, (List.append_assoc ..).symm, hslot⟩
  · cases rest with
    | nil =>
        obtain ⟨before, slot, hlead, hslot⟩ := h' [] i back hrest.symm hi
        rw [List.append_nil] at hfront
        refine ⟨front ++ before, slot, ?_, hslot⟩
        rw [List.append_assoc, ← hlead, List.append_nil]
    | cons j rest =>
        obtain ⟨rfl, -⟩ := List.cons.inj hrest
        exact h front i rest hfront hi

theorem Placed.flatMap {γ : Type} {f : γ → List Instruction} {cs : List γ}
    (h : ∀ c ∈ cs, A.Placed table (f c)) : A.Placed table (cs.flatMap f) := by
  induction cs with
  | nil => exact placed_of_not (by simp)
  | cons c cs ih =>
      obtain ⟨hc, hcs⟩ := List.forall_mem_cons.mp h
      rw [List.flatMap_cons]
      exact hc.append (ih hcs)

/-- A load or store with the code that says which slot it goes to. -/
theorem placed_access {i : Instruction} {slot : Nat} (hlead : ∀ j ∈ A.lead slot, ¬A.Accesses j)
    (h : A.Reaches table i slot) : A.Placed table (A.lead slot ++ [i]) := by
  intro front j back hsplit hj
  rcases List.append_eq_append_iff.mp hsplit with ⟨rest, rfl, hrest⟩ | ⟨rest, hfront, hrest⟩
  · cases rest with
    | nil =>
        obtain ⟨rfl, -⟩ := List.cons.inj hrest
        exact ⟨[], slot, by simp, h⟩
    | cons _ _ => simp at hrest
  · cases rest with
    | nil =>
        obtain ⟨rfl, -⟩ := List.cons.inj hrest
        exact ⟨[], slot, by simp [hfront], h⟩
    | cons k rest =>
        obtain ⟨rfl, -⟩ := List.cons.inj hrest
        exact absurd hj (hlead j (by simp [hfront]))

end Addressing

/-- A ledger in order, where a load or store that is appended goes to a slot in order. -/
structure Moment.InOrder (m : Moment) (A : Addressing) : Prop where
  tidy : m.ledger.Tidy
  access : ∀ i, m.next = some i → A.Accesses i → ∃ before slot,
    m.ledger.code.toList = before ++ A.lead slot ∧ A.Reaches m.ledger.table i slot

theorem Moment.InOrder.idle {c : Ledger} {A : Addressing} (h : c.Tidy) :
    Moment.InOrder ⟨c, none⟩ A :=
  ⟨h, by simp⟩

/-! ## Generators in order -/

namespace Recorded

variable {α β : Type} {A : Addressing} {table : List (String × Nat)}

/-- Run on a ledger in order with this table, the generator passes only through moments in order and
leaves a ledger in order; with a result, its table is as in `post`. -/
def InOrder (A : Addressing) (table : List (String × Nat)) (x : Recorded α)
    (post : α → List (String × Nat) → Prop) : Prop :=
  ∀ c : Ledger, c.table = table → c.Tidy →
    (∀ m ∈ (x.run c).moments, m.InOrder A) ∧ (Ledger.left (x.run c).result).Tidy ∧
      ∀ a c', (x.run c).result = .ok a c' → post a c'.table

/-- The generator goes through moments in order and keeps the table. -/
abbrev Steady (A : Addressing) (table : List (String × Nat)) (x : Recorded α) : Prop :=
  InOrder A table x fun _ table' => table' = table

namespace InOrder

variable {x : Recorded α} {f : α → Recorded β} {post : α → List (String × Nat) → Prop}
  {post' : β → List (String × Nat) → Prop}

theorem mono {post' : α → List (String × Nat) → Prop} (h : InOrder A table x post)
    (hpost : ∀ a table', post a table' → post' a table') : InOrder A table x post' := by
  intro c htable hc
  obtain ⟨hmoments, hleft, hresult⟩ := h c htable hc
  exact ⟨hmoments, hleft, fun a c' hok => hpost a _ (hresult a c' hok)⟩

protected theorem pure {a : α} (h : post a table) : InOrder A table (Pure.pure a) post := by
  rintro c rfl hc
  refine ⟨fun m hm => (nomatch hm), hc, fun a' c' hok => ?_⟩
  obtain ⟨rfl, rfl⟩ := EStateM.Result.ok.inj hok
  exact h

protected theorem bind (hx : InOrder A table x post)
    (hf : ∀ a table', post a table' → InOrder A table' (f a) post') :
    InOrder A table (x >>= f) post' := by
  intro c htable hc
  obtain ⟨hmoments, hleft, hresult⟩ := hx c htable hc
  show (∀ m ∈ ((x.run c).andThen fun a => (f a).run).moments, m.InOrder A) ∧
    (Ledger.left ((x.run c).andThen fun a => (f a).run).result).Tidy ∧
    ∀ b c', ((x.run c).andThen fun a => (f a).run).result = .ok b c' → post' b c'.table
  rw [Recording.andThen]
  cases hrun : (x.run c).result with
  | error e c' =>
      rw [hrun] at hleft
      exact ⟨hmoments, hleft, fun b c'' hok => (nomatch hok)⟩
  | ok a c' =>
      rw [hrun] at hleft
      obtain ⟨hafter, hleft', hresult'⟩ := hf a _ (hresult a c' hrun) c' rfl hleft
      refine ⟨fun m hm => ?_, hleft', hresult'⟩
      rcases List.mem_append.mp hm with hm | hm
      · exact hmoments m hm
      · exact hafter m hm

theorem bind_keeping {P : α → Prop} (hx : InOrder A table x fun a table' => table' = table ∧ P a)
    (hf : ∀ a, P a → InOrder A table (f a) post') : InOrder A table (x >>= f) post' := by
  refine hx.bind fun a table' h => ?_
  rw [h.1]
  exact hf a h.2

theorem bind_steady (hx : Steady A table x) (hf : ∀ a, InOrder A table (f a) post') :
    InOrder A table (x >>= f) post' :=
  (hx.mono fun _ _ htable => ⟨htable, trivial⟩).bind_keeping fun a _ => hf a

theorem ite {c : Prop} [Decidable c] {y : Recorded α} (hx : c → InOrder A table x post)
    (hy : ¬c → InOrder A table y post) : InOrder A table (if c then x else y) post := by
  split
  · exact hx ‹_›
  · exact hy ‹_›

theorem look {op : Ledger.Op α} {h : ∀ c, Ledger.left (op c) = c} :
    InOrder A table (Recorded.look op h) fun a table' =>
      table' = table ∧ ∃ c, c.table = table ∧ op c = .ok a c := by
  rintro c rfl hc
  have hleft : (Ledger.left (op c)).Tidy := (h c).symm ▸ hc
  refine ⟨fun m hm => ?_, hleft, fun a c' hok => ?_⟩
  · obtain rfl | rfl : m = ⟨c, none⟩ ∨ m = ⟨Ledger.left (op c), none⟩ := by
      simpa [Recorded.look, operation] using hm
    · exact Moment.InOrder.idle hc
    · exact Moment.InOrder.idle hleft
  · obtain rfl : c' = c := by
      have hc' := h c
      rw [show op c = .ok a c' from hok] at hc'
      exact hc'
    exact ⟨rfl, c', rfl, hok⟩

/-- There is no result after a refusal. -/
theorem refuse {e : String → CompileError} : InOrder A table (Recorded.refuse e) post := by
  refine look.mono fun _ _ h => ?_
  obtain ⟨-, c, -, hok⟩ := h
  cases hok

theorem overflow {slots : Nat} {k : Unit → Recorded β} :
    InOrder A table (Recorded.overflow slots >>= k) post' := by
  have hrefuse : InOrder A table (Recorded.overflow slots) fun _ _ => False := refuse
  exact hrefuse.bind fun _ _ h => h.elim

theorem count : InOrder A table Recorded.count fun n table' =>
    table' = table ∧ n = table.length := by
  refine look.mono fun n table' h => ?_
  obtain ⟨htable, c, rfl, hok⟩ := h
  exact ⟨htable, (EStateM.Result.ok.inj hok).1.symm⟩

theorem slot (name : String) :
    InOrder A table (Recorded.slot name) fun slot table' =>
      table' = table ∧ table.lookup name = some slot := by
  refine look.mono fun k table' h => ?_
  obtain ⟨htable, c, rfl, hslot⟩ := h
  exact ⟨htable, Ledger.lookup_of_slot hslot⟩

theorem declare (name : String) :
    InOrder A table (Recorded.declare name) fun slot table' =>
      table' = table ++ [(name, slot)] ∧ table'.lookup name = some slot := by
  rintro c rfl hc
  have hmoments : ∀ m ∈ ((Recorded.declare name).run c).moments,
      m = ⟨c, none⟩ ∨ m = ⟨Ledger.left (Ledger.declare name c), none⟩ := fun m hm => by
    simpa [Recorded.declare, operation] using hm
  show _ ∧ (Ledger.left (Ledger.declare name c)).Tidy ∧
    ∀ a c', Ledger.declare name c = .ok a c' → _
  rcases Ledger.declare_cases name c with ⟨e, h⟩ | ⟨hnew, hroom, h⟩
  · rw [h] at hmoments ⊢
    refine ⟨fun m hm => ?_, hc, fun a c' hok => (nomatch hok)⟩
    rcases hmoments m hm with rfl | rfl <;> exact Moment.InOrder.idle hc
  · rw [h] at hmoments ⊢
    have hc' := hc.declare hnew hroom
    refine ⟨fun m hm => ?_, hc', fun a c' hok => ?_⟩
    · rcases hmoments m hm with rfl | rfl
      · exact Moment.InOrder.idle hc
      · exact Moment.InOrder.idle hc'
    · obtain ⟨rfl, rfl⟩ := EStateM.Result.ok.inj hok
      exact ⟨rfl, Ledger.lookup_concat_self hnew⟩

theorem declareAll (names : List String) (table : List (String × Nat)) :
    InOrder A table (Recorded.declareAll names) fun _ _ => True := by
  induction names generalizing table with
  | nil => exact .pure trivial
  | cons name names ih => exact (declare name).bind fun _ table' _ => ih table'

theorem moments_emit {c : Ledger} {i : Instruction} (hc : c.Tidy)
    (h : A.Accesses i → ∃ before slot, c.code.toList = before ++ A.lead slot ∧
      A.Reaches c.table i slot) :
    ∀ m ∈ ((Recorded.emit i).run c).moments, m.InOrder A := by
  intro m hm
  rcases List.mem_cons.mp hm with rfl | hm
  · refine ⟨hc, fun j hj hi => ?_⟩
    obtain rfl := Option.some.inj hj
    exact h hi
  · rw [List.mem_singleton.mp hm]
    exact Moment.InOrder.idle (hc.push i)

/-- Code in which loads and stores are placed. -/
theorem emitAll {code : List Instruction} (h : A.Placed table code) :
    Steady A table (Recorded.emitAll code) := by
  -- The code stands in front of and behind the instruction that comes next.
  suffices hrest : ∀ rest front, code = front ++ rest → ∀ (c : Ledger) (base : List Instruction),
      c.table = table → c.Tidy → c.code.toList = base ++ front →
      (∀ m ∈ ((Recorded.emitAll rest).run c).moments, m.InOrder A) ∧
        (Ledger.left ((Recorded.emitAll rest).run c).result).Tidy ∧
        ∀ a c', ((Recorded.emitAll rest).run c).result = .ok a c' → c'.table = table from
    fun c htable hc => hrest code [] rfl c c.code.toList htable hc (List.append_nil _).symm
  intro rest
  induction rest with
  | nil =>
      intro front _ c base htable hc _
      have hpure : Steady A table (Pure.pure () : Recorded Unit) := .pure rfl
      exact hpure c htable hc
  | cons i rest ih =>
      intro front hcode c base htable hc hbase
      have hbase' : (c.push i).code.toList = base ++ (front ++ [i]) := by
        rw [Ledger.push, Array.toList_push, hbase, List.append_assoc]
      obtain ⟨hmoments, hleft, hresult⟩ :=
        ih (front ++ [i]) (by simp [hcode]) (c.push i) base htable (hc.push i) hbase'
      refine ⟨fun m hm => ?_, hleft, hresult⟩
      rcases List.mem_append.mp hm with hm | hm
      · refine moments_emit hc (fun hi => ?_) m hm
        obtain ⟨before, slot, rfl, hslot⟩ := h front i rest hcode hi
        refine ⟨base ++ before, slot, ?_, htable ▸ hslot⟩
        rw [List.append_assoc]
        exact hbase
      · exact hmoments m hm

/-- What is declared in a block is dropped, also when the block fails. -/
theorem inBlock (hx : InOrder A table x post) : Steady A table (Recorded.inBlock x) := by
  rintro c rfl hc
  obtain ⟨hmoments, hleft, -⟩ := hx c rfl hc
  have hblock := Ledger.left_inScope x.erase c
  have hc' : (Ledger.left (Ledger.inScope x.erase c)).Tidy := by
    rw [hblock]
    exact hc.restore hleft
  refine ⟨fun m hm => ?_, hc', fun a c' hok => ?_⟩
  · rcases List.mem_append.mp hm with hm | hm
    · exact hmoments m hm
    · obtain rfl := List.mem_singleton.mp hm
      exact Moment.InOrder.idle hc'
  · rw [show Ledger.inScope x.erase c = .ok a c' from hok] at hblock
    exact (congrArg Ledger.table hblock :)

/-- A measurement starts from the ledger as it is, and goes through moments in order. -/
theorem measure {x : Recorded Unit} {post : Unit → List (String × Nat) → Prop}
    (hx : InOrder A table x post) : Steady A table (Recorded.measure x) := by
  rintro c rfl hc
  obtain ⟨hmoments, -, -⟩ := hx c rfl hc
  have hleft := Ledger.left_measure x.erase c
  refine ⟨fun m hm => ?_, hleft.symm ▸ hc, fun a c' hok => ?_⟩
  · rcases List.mem_append.mp hm with hm | hm
    · rcases List.mem_cons.mp hm with rfl | hm
      · exact Moment.InOrder.idle hc
      · exact hmoments m hm
    · obtain rfl := List.mem_singleton.mp hm
      exact Moment.InOrder.idle hc
  · rw [show Ledger.measure x.erase c = .ok a c' from hok] at hleft
    exact congrArg Ledger.table hleft

end InOrder

end Recorded

/-! ## Statements and functions -/

/-- The recorded form of a code generator, which is given by that of its expressions. -/
structure Recorder {ι : Type} [InstructionSet ι] {C : Pieces ι} (G : Generator C) where
  expr : Expr → Recorded Unit
  expr_follows : ∀ e, (expr e).Follows (G.expr e)

namespace Recorder

variable {ι : Type} [InstructionSet ι] {C : Pieces ι} {G : Generator C} (R : Recorder G)

open Recorded (code Follows)

/-- A branch on the condition. -/
def conditional (cond : Expr) (onTrue onFalse : Recorded Unit) : Recorded Unit := do
  R.expr cond
  let falseSize ← onFalse.measure
  let trueSize ← onTrue.measure
  code (C.cjump (Int32.ofNat (falseSize + C.jumpLength)))
  onFalse
  code (C.jump (Int32.ofNat trueSize))
  onTrue

/-- A loop. -/
def loop (cond : Expr) (body : Recorded Unit) : Recorded Unit := do
  let start ← Recorded.codeSize
  R.expr cond
  code C.invert
  let bodySize ← body.measure
  code (C.cjump (Int32.ofNat (bodySize + C.jumpLength)))
  body
  let stop ← Recorded.codeSize
  code (C.jump (Int32.ofInt ((start : Int) - (stop + C.jumpLength : Nat))))

mutual

/-- The code of a statement. -/
def statement : Stmt → Recorded Unit
  | .var x value => do
    R.expr value
    code (C.store (← Recorded.declare x))
  | .assign x value => do
    R.expr value
    code (C.store (← Recorded.slot x))
  | .return value => do
    R.expr value
    code C.ret
  | .if cond onTrue none => R.conditional cond (statements onTrue).inBlock (pure ())
  | .if cond onTrue (some onFalse) =>
    R.conditional cond (statements onTrue).inBlock (statements onFalse).inBlock
  | .while cond body => R.loop cond (statements body).inBlock

/-- The code of statements that follow each other. -/
def statements : List Stmt → Recorded Unit
  | [] => pure ()
  | s :: ss => do
    statement s
    statements ss

end

/-- The code of a block. -/
def block (ss : List Stmt) : Recorded Unit := (R.statements ss).inBlock

/-- The code of a body. -/
def body : Body → Recorded Unit
  | .block ss => do
    R.block ss
    code C.zero
    code C.ret
  | .expression value => do
    R.expr value
    code C.ret

/-! ### Following the generator -/

theorem store_follows (slot : Nat) : (code (C.store slot)).Follows (G.store slot) :=
  .code fun _ _ => G.store_emits _ _ slot

theorem ret_follows : (code C.ret).Follows G.ret := .code G.ret_emits

theorem zero_follows : (code C.zero).Follows G.zero := .code G.zero_emits

theorem invert_follows : (code C.invert).Follows G.invert := .code G.invert_emits

theorem jump_follows (offset : Word) : (code (C.jump offset)).Follows (G.jump offset) :=
  .code fun _ _ => G.jump_emits _ _ offset

theorem cjump_follows (offset : Word) : (code (C.cjump offset)).Follows (G.cjump offset) :=
  .code fun _ _ => G.cjump_emits _ _ offset

theorem conditional_follows {cond : Expr} {onTrue onFalse : Recorded Unit} {g g' : Gen Unit}
    (htrue : onTrue.Follows g) (hfalse : onFalse.Follows g') :
    (R.conditional cond onTrue onFalse).Follows (G.conditional cond g g') := by
  rw [G.conditional_eq]
  refine .bind (R.expr_follows cond) fun _ => .bind hfalse.measure fun _ => ?_
  refine .bind htrue.measure fun _ => .bind (cjump_follows _) fun _ => ?_
  exact .bind hfalse fun _ => .bind (jump_follows _) fun _ => htrue

theorem loop_follows {cond : Expr} {body : Recorded Unit} {body' : Gen Unit}
    (hbody : body.Follows body') : (R.loop cond body).Follows (G.loop cond body') := by
  rw [G.loop_eq]
  refine .codeSize fun start => .bind (R.expr_follows cond) fun _ => ?_
  refine .bind invert_follows fun _ => .bind hbody.measure fun _ => ?_
  refine .bind (cjump_follows _) fun _ => .bind hbody fun _ => ?_
  exact .codeSize fun stop => jump_follows _

mutual

theorem statement_follows : ∀ s : Stmt, (R.statement s).Follows (G.statement s)
  | .var x value => by
      rw [G.var_eq, statement]
      exact .bind (R.expr_follows value) fun _ => .bind (.declare x) fun _ => store_follows _
  | .assign x value => by
      rw [G.assign_eq, statement]
      exact .bind (R.expr_follows value) fun _ => .bind (.slot x) fun _ => store_follows _
  | .return value => by
      rw [G.return_eq, statement]
      exact .bind (R.expr_follows value) fun _ => ret_follows
  | .if cond onTrue none => by
      rw [G.if_eq, statement]
      exact R.conditional_follows (statements_follows onTrue).inBlock (.pure ())
  | .if cond onTrue (some onFalse) => by
      rw [G.else_eq, statement]
      exact R.conditional_follows (statements_follows onTrue).inBlock
        (statements_follows onFalse).inBlock
  | .while cond body => by
      rw [G.while_eq, statement]
      exact R.loop_follows (statements_follows body).inBlock

theorem statements_follows : ∀ ss : List Stmt, (R.statements ss).Follows (G.statements ss)
  | [] => by
      rw [G.nil_eq, statements]
      exact .pure ()
  | s :: ss => by
      rw [G.cons_eq, statements]
      exact .bind (statement_follows s) fun _ => statements_follows ss

end

theorem block_follows (ss : List Stmt) : (R.block ss).Follows (Gen.inBlock (G.statements ss)) :=
  (R.statements_follows ss).inBlock

theorem body_follows (b : Body) : (R.body b).Follows (G.body b) := by
  cases b with
  | block ss =>
      rw [G.block_eq]
      exact .bind (R.block_follows ss) fun _ => .bind zero_follows fun _ => ret_follows
  | expression value =>
      rw [G.expression_eq]
      exact .bind (R.expr_follows value) fun _ => ret_follows

/-! ### Order -/

/-- The pieces of a code generator go through moments in order. -/
structure InOrder (A : Addressing) : Prop where
  expr : ∀ table e, Recorded.Steady A table (R.expr e)
  store : ∀ (table : List (String × Nat)) x slot, table.lookup x = some slot →
    A.Placed table ((Line.ofCode (C.store slot)).map Line.symbolic)
  ret : ∀ table, A.Placed table ((Line.ofCode C.ret).map Line.symbolic)
  zero : ∀ table, A.Placed table ((Line.ofCode C.zero).map Line.symbolic)
  invert : ∀ table, A.Placed table ((Line.ofCode C.invert).map Line.symbolic)
  jump : ∀ table offset, A.Placed table ((Line.ofCode (C.jump offset)).map Line.symbolic)
  cjump : ∀ table offset, A.Placed table ((Line.ofCode (C.cjump offset)).map Line.symbolic)

variable {R} {A : Addressing} {table : List (String × Nat)}

open Recorded.InOrder (bind_steady)

theorem conditional_steady (hR : R.InOrder A) {cond : Expr} {onTrue onFalse : Recorded Unit}
    (htrue : Recorded.Steady A table onTrue) (hfalse : Recorded.Steady A table onFalse) :
    Recorded.Steady A table (R.conditional cond onTrue onFalse) :=
  bind_steady (hR.expr table cond) fun _ => bind_steady hfalse.measure fun _ =>
    bind_steady htrue.measure fun _ => bind_steady (.emitAll (hR.cjump table _)) fun _ =>
    bind_steady hfalse fun _ => bind_steady (.emitAll (hR.jump table _)) fun _ => htrue

theorem loop_steady (hR : R.InOrder A) {cond : Expr} {body : Recorded Unit}
    (hbody : Recorded.Steady A table body) : Recorded.Steady A table (R.loop cond body) := by
  have hsize : Recorded.Steady A table Recorded.codeSize :=
    Recorded.InOrder.look.mono fun _ _ h => h.1
  exact bind_steady hsize fun _ => bind_steady (hR.expr table cond) fun _ =>
    bind_steady (.emitAll (hR.invert table)) fun _ => bind_steady hbody.measure fun _ =>
    bind_steady (.emitAll (hR.cjump table _)) fun _ => bind_steady hbody fun _ =>
    bind_steady hsize fun _ => .emitAll (hR.jump table _)

mutual

theorem statement_inOrder (hR : R.InOrder A) : ∀ (s : Stmt) (table : List (String × Nat)),
    Recorded.InOrder A table (R.statement s) fun _ _ => True
  | .var x value, table => by
      rw [statement]
      refine .bind_steady (hR.expr table value) fun _ => (Recorded.InOrder.declare x).bind ?_
      intro slot table' h
      exact (Recorded.InOrder.emitAll (hR.store table' x slot h.2)).mono fun _ _ _ => trivial
  | .assign x value, table => by
      rw [statement]
      refine .bind_steady (hR.expr table value) fun _ => (Recorded.InOrder.slot x).bind_keeping ?_
      intro slot hslot
      exact (Recorded.InOrder.emitAll (hR.store _ x slot hslot)).mono fun _ _ _ => trivial
  | .return value, table => by
      rw [statement]
      refine .bind_steady (hR.expr table value) fun _ => ?_
      exact (Recorded.InOrder.emitAll (hR.ret table)).mono fun _ _ _ => trivial
  | .if cond onTrue none, table => by
      rw [statement]
      have htrue := (statements_inOrder hR onTrue table).inBlock
      exact (conditional_steady hR htrue (.pure rfl)).mono fun _ _ _ => trivial
  | .if cond onTrue (some onFalse), table => by
      rw [statement]
      have htrue := (statements_inOrder hR onTrue table).inBlock
      have hfalse := (statements_inOrder hR onFalse table).inBlock
      exact (conditional_steady hR htrue hfalse).mono fun _ _ _ => trivial
  | .while cond body, table => by
      rw [statement]
      have hbody := (statements_inOrder hR body table).inBlock
      exact (loop_steady hR hbody).mono fun _ _ _ => trivial

theorem statements_inOrder (hR : R.InOrder A) : ∀ (ss : List Stmt) (table : List (String × Nat)),
    Recorded.InOrder A table (R.statements ss) fun _ _ => True
  | [], table => by
      rw [statements]
      exact .pure trivial
  | s :: ss, table => by
      rw [statements]
      exact (statement_inOrder hR s table).bind fun _ table' _ => statements_inOrder hR ss table'

end

theorem block_steady (hR : R.InOrder A) (ss : List Stmt) (table : List (String × Nat)) :
    Recorded.Steady A table (R.block ss) :=
  (statements_inOrder hR ss table).inBlock

theorem body_steady (hR : R.InOrder A) (b : Body) (table : List (String × Nat)) :
    Recorded.Steady A table (R.body b) := by
  cases b with
  | block ss =>
      refine .bind_steady (block_steady hR ss table) fun _ => ?_
      exact .bind_steady (.emitAll (hR.zero table)) fun _ => .emitAll (hR.ret table)
  | expression value =>
      exact .bind_steady (hR.expr table value) fun _ => .emitAll (hR.ret table)

end Recorder

end DualMachine
