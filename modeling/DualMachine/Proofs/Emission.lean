import DualMachine.Lowering.Backend
import DualMachine.Proofs.Trace

/-!
# What a code generator appends

A `Line` is code before it is linked: an instruction, or the call of a function by
its registered name. `Emits scope vars g fits lines vars'` describes a generator
completely: started with the variables `vars`, it succeeds exactly when `fits`, and
then it appends `lines` and leaves the variables `vars'`. What it appends does not
depend on the code before it, which is why a measurement on a copy of the draft
gives the size of the code that is emitted later (`Emits.measure`).

There is one lemma for each operation of `Gen`, in the form in which the code
generators use it, so that the description of a generator is put together along its
definition.
-/

namespace DualMachine

theorem Instruction.totalLength_append (a b : List Instruction) :
    totalLength (a ++ b) = totalLength a + totalLength b := by
  simp only [totalLength, List.map_append]
  exact List.sum_append

/-! ## Lines -/

/-- An instruction, or a call that is still by name. -/
inductive Line (ι : Type) where
  | plain (i : ι)
  | call (name : String)

namespace Line

variable {ι : Type} [InstructionSet ι]

open InstructionSet

/-- The line as a code generator emits it. -/
def symbolic : Line ι → Instruction
  | .plain i => InstructionSet.symbolic i
  | .call name => .ofSymbol (callDescriptor ι) name

/-- The instruction of a line, where functions have addresses. -/
def link (address : String → Word) : Line ι → ι
  | .plain i => i
  | .call name => InstructionSet.call (address name)

/-- Length in bytes. -/
def width (l : Line ι) : Nat := l.symbolic.length

theorem width_link (address : String → Word) (l : Line ι) :
    DualMachine.width (l.link address) = l.width := by
  cases l with
  | plain i => rw [link, width_eq, width, symbolic, Instruction.length, descriptor_symbolic]
  | call name => rw [link, width_eq, descriptor_call, width, symbolic]; rfl

/-- Lines without calls. -/
def ofCode (code : List ι) : List (Line ι) := code.map plain

/-- Length of lines in bytes. -/
def length (lines : List (Line ι)) : Nat := (lines.map width).sum

@[simp] theorem length_nil : length ([] : List (Line ι)) = 0 := rfl

@[simp] theorem length_append (a b : List (Line ι)) : length (a ++ b) = length a + length b := by
  simp [length]

theorem length_eq_codeLength (address : String → Word) (lines : List (Line ι)) :
    length lines = codeLength (lines.map (link address)) := by
  simp only [length, codeLength, List.map_map]
  congr 1
  exact List.map_congr_left fun l _ => (width_link address l).symm

@[simp] theorem length_ofCode (code : List ι) : length (ofCode code) = codeLength code := by
  rw [length_eq_codeLength (fun _ => 0), ofCode, List.map_map]
  congr 1
  exact List.map_id' code

end Line

/-! ## Drafts -/

/-- The draft with lines appended and other variables in scope. -/
def Draft.extend {ι : Type} [InstructionSet ι] (d : Draft) (lines : List (Line ι))
    (vars : List String) : Draft :=
  { d with
    vars
    code := d.code ++ (lines.map Line.symbolic).toArray
    size := d.size + Line.length lines }

/-- Whether names can be declared one after the other. -/
def Declarable (vars : List String) : List String → Prop
  | [] => True
  | x :: xs => (x ∉ vars ∧ vars.length < frameSize) ∧ Declarable (vars ++ [x]) xs

theorem Declarable.length_le {vars xs : List String} (h : Declarable vars xs)
    (hvars : vars.length ≤ frameSize) : (vars ++ xs).length ≤ frameSize := by
  induction xs generalizing vars with
  | nil => rwa [List.append_nil]
  | cons x xs ih =>
      have hlen : (vars ++ [x]).length ≤ frameSize := by
        rw [List.length_append]
        exact h.1.2
      rw [List.append_cons]
      exact ih h.2 hlen

/-- A sequence succeeds exactly when both of its parts do. -/
theorem bind_ok_iff {ε σ α β : Type} {x : EStateM ε σ α} {f : α → EStateM ε σ β} {d d' : σ}
    {b : β} :
    (x >>= f) d = .ok b d' ↔ ∃ a d₁, x d = .ok a d₁ ∧ f a d₁ = .ok b d' := by
  show EStateM.bind x f d = .ok b d' ↔ _
  rw [EStateM.bind]
  cases hx : x d with
  | ok a d₁ =>
      constructor
      · exact fun h => ⟨a, d₁, rfl, h⟩
      · rintro ⟨a', d₁', h, hf⟩
        obtain ⟨rfl, rfl⟩ := EStateM.Result.ok.inj h
        exact hf
  | error e d₁ =>
      constructor
      · exact fun h => nomatch h
      · rintro ⟨_, _, h, _⟩
        cases h

/-- A sequence fails in its first part or in the second. -/
theorem bind_error_cases {ε σ α β : Type} {x : EStateM ε σ α} {f : α → EStateM ε σ β} {d d' : σ}
    {e : ε} (h : (x >>= f) d = .error e d') :
    x d = .error e d' ∨ ∃ a d₁, x d = .ok a d₁ ∧ f a d₁ = .error e d' := by
  change EStateM.bind x f d = .error e d' at h
  rw [EStateM.bind] at h
  cases hx : x d with
  | ok a d₁ =>
      rw [hx] at h
      exact .inr ⟨a, d₁, rfl, h⟩
  | error e₁ d₁ =>
      rw [hx] at h
      obtain ⟨rfl, rfl⟩ := EStateM.Result.error.inj h
      exact .inl rfl

theorem bind_eq_ok_iff {ε α β : Type} {x : Except ε α} {f : α → Except ε β} {b : β} :
    x >>= f = .ok b ↔ ∃ a, x = .ok a ∧ f a = .ok b := by
  cases x with
  | error e =>
      constructor
      · intro h
        cases h
      · rintro ⟨_, h, -⟩
        cases h
  | ok a =>
      constructor
      · exact fun h => ⟨a, rfl, h⟩
      · rintro ⟨_, h, hf⟩
        obtain rfl := Except.ok.inj h
        exact hf

namespace Gen

variable {ι : Type} [InstructionSet ι]

theorem extend_nil (d : Draft) : d.extend ([] : List (Line ι)) d.vars = d := by
  simp [Draft.extend]

theorem extend_extend (d : Draft) (a b : List (Line ι)) (vars vars' : List String) :
    (d.extend a vars).extend b vars' = d.extend (a ++ b) vars' := by
  simp [Draft.extend, Nat.add_assoc]

theorem get_bind {β : Type} (f : Draft → Gen β) (d : Draft) :
    ((get : Gen Draft) >>= f) d = f d d := rfl

/-- The generator succeeds exactly when `fits`; then it gives `result` and appends
`lines`. -/
def Emits {α : Type} (scope : Scope) (vars : List String) (g : Gen α) (fits : Prop)
    (result : α) (lines : List (Line ι)) (vars' : List String) : Prop :=
  ∀ d : Draft, d.scope = scope → d.vars = vars →
    ∀ r d', g d = .ok r d' ↔ fits ∧ r = result ∧ d' = d.extend lines vars'

namespace Emits

variable {α β : Type} {scope : Scope} {vars mid vars' : List String} {g : Gen α}
  {f : α → Gen β} {fits fits' : Prop} {result : α} {result' : β} {a b : List (Line ι)}

theorem congr {a' : List (Line ι)} (h : Emits scope vars g fits result a vars')
    (hfits : fits ↔ fits') (hlines : a = a') :
    Emits scope vars g fits' result a' vars' := by
  intro d hscope hvars r d'
  rw [h d hscope hvars, hfits, hlines]

/-- A generator that gives its result on every draft. -/
theorem of_ok
    (h : ∀ d : Draft, d.scope = scope → d.vars = vars →
      g d = .ok result (d.extend a vars')) :
    Emits scope vars g True result a vars' := by
  intro d hscope hvars r d'
  rw [h d hscope hvars]
  constructor
  · intro heq
    obtain ⟨rfl, rfl⟩ := EStateM.Result.ok.inj heq
    exact ⟨trivial, rfl, rfl⟩
  · rintro ⟨-, rfl, rfl⟩
    rfl

/-- A generator that gives its result where a test succeeds. -/
theorem of_ite (c : Prop) [Decidable c] {e : Draft → CompileError}
    (h : ∀ d : Draft, d.scope = scope → d.vars = vars →
      g d = if c then .ok result (d.extend a vars') else .error (e d) d) :
    Emits scope vars g c result a vars' := by
  intro d hscope hvars r d'
  rw [h d hscope hvars]
  by_cases hc : c
  · rw [if_pos hc]
    constructor
    · intro heq
      obtain ⟨rfl, rfl⟩ := EStateM.Result.ok.inj heq
      exact ⟨hc, rfl, rfl⟩
    · rintro ⟨-, rfl, rfl⟩
      rfl
  · rw [if_neg hc]
    exact ⟨fun heq => (nomatch heq), fun heq => absurd heq.1 hc⟩

protected theorem pure (result : α) :
    Emits scope vars (Pure.pure result) True result ([] : List (Line ι)) vars := by
  refine of_ok fun d _ hvars => ?_
  rw [← hvars, extend_nil]
  rfl

protected theorem bind (hg : Emits scope vars g fits result a mid)
    (hf : Emits scope mid (f result) fits' result' b vars') :
    Emits scope vars (g >>= f) (fits ∧ fits') result' (a ++ b) vars' := by
  intro d hscope hvars r d'
  rw [bind_ok_iff]
  constructor
  · rintro ⟨_, d₁, hd₁, hd'⟩
    obtain ⟨hfits, rfl, rfl⟩ := (hg d hscope hvars _ d₁).mp hd₁
    obtain ⟨hfits', rfl, rfl⟩ := (hf (d.extend a mid) hscope rfl r d').mp hd'
    exact ⟨⟨hfits, hfits'⟩, rfl, extend_extend ..⟩
  · rintro ⟨⟨hfits, hfits'⟩, rfl, rfl⟩
    refine ⟨result, _, (hg d hscope hvars _ _).mpr ⟨hfits, rfl, rfl⟩, ?_⟩
    exact (hf (d.extend a mid) hscope rfl _ _).mpr ⟨hfits', rfl, (extend_extend ..).symm⟩

theorem emit (l : Line ι) : Emits scope vars (Gen.emit l.symbolic) True () [l] vars := by
  refine of_ok fun d _ hvars => ?_
  rw [← hvars]
  simp [Gen.emit, Draft.extend, Line.length, Line.width, modify, modifyGet,
    MonadStateOf.modifyGet, EStateM.modifyGet]

theorem slot (name : String) :
    Emits scope vars (Gen.slot name) (name ∈ vars) (vars.idxOf name)
      ([] : List (Line ι)) vars := by
  refine of_ite (e := fun d => .undeclaredVariable d.function name) (name ∈ vars)
    fun d _ hvars => ?_
  rw [← hvars, extend_nil, Gen.slot, get_bind]
  cases hidx : d.vars.idxOf? name with
  | none => rw [if_neg (List.idxOf?_eq_none_iff.mp hidx)]; rfl
  | some k =>
      obtain ⟨hk, hname, -⟩ := List.idxOf?_eq_some_iff.mp hidx
      have hslot : d.vars.idxOf name = k := (List.findIdx?_eq_some_iff_findIdx_eq.mp hidx).2
      rw [if_pos (hname ▸ List.getElem_mem hk), hslot]
      rfl

theorem callee (name : String) :
    Emits scope vars (Gen.callee name) True (scope.qualify name) ([] : List (Line ι)) vars := by
  refine of_ok fun d hscope hvars => ?_
  rw [← hvars, extend_nil, Gen.callee, get_bind, hscope]
  rfl

theorem declare (name : String) :
    Emits scope vars (Gen.declare name) (name ∉ vars ∧ vars.length < frameSize) vars.length
      ([] : List (Line ι)) (vars ++ [name]) := by
  rintro d hscope rfl r d'
  rw [Gen.declare, get_bind]
  by_cases hmem : name ∈ d.vars
  · simp only [if_pos hmem]
    exact ⟨fun h => (nomatch h), fun h => absurd hmem h.1.1⟩
  · simp only [if_neg hmem]
    by_cases hfull : frameSize ≤ d.vars.length
    · simp only [if_pos hfull]
      exact ⟨fun h => (nomatch h), fun h => absurd h.1.2 (by omega)⟩
    · simp only [if_neg hfull]
      have hextend : d.extend ([] : List (Line ι)) (d.vars ++ [name])
          = { d with vars := d.vars ++ [name] } := by simp [Draft.extend]
      rw [hextend]
      constructor
      · intro h
        obtain ⟨rfl, rfl⟩ := EStateM.Result.ok.inj h
        exact ⟨⟨hmem, by omega⟩, rfl, rfl⟩
      · rintro ⟨-, rfl, rfl⟩
        rfl

/-- A size that is measured is that of the code. -/
theorem measure {g : Gen Unit} (hg : Emits scope vars g fits () a mid) :
    Emits scope vars (Gen.measure g) fits (Line.length a) ([] : List (Line ι)) vars := by
  intro d hscope hvars r d'
  have htrial := hg d hscope hvars
  rw [← hvars, extend_nil, Gen.measure]
  cases hrun : g d with
  | error e d₁ =>
      constructor
      · exact fun h => nomatch h
      · rintro ⟨hfits, -⟩
        cases hrun.symm.trans ((htrial _ _).mpr ⟨hfits, rfl, rfl⟩)
  | ok u d₁ =>
      obtain ⟨hfits, -, rfl⟩ := (htrial u d₁).mp hrun
      -- the copy has grown by the code, whatever its size was
      have hgrown : (d.extend a mid).size - d.size = Line.length a := Nat.add_sub_cancel_left ..
      constructor
      · intro h
        obtain ⟨rfl, rfl⟩ := EStateM.Result.ok.inj h
        exact ⟨hfits, hgrown, rfl⟩
      · rintro ⟨-, rfl, rfl⟩
        exact congrArg (EStateM.Result.ok · d') hgrown

/-- What a nested block declares is dropped. -/
theorem inBlock (hg : Emits scope vars g fits result a mid) :
    Emits scope vars (Gen.inBlock g) fits result a vars := by
  rintro d hscope rfl r d'
  rw [Gen.inBlock]
  cases hrun : g d with
  | error e d₁ =>
      constructor
      · exact fun h => nomatch h
      · rintro ⟨hfits, -⟩
        cases hrun.symm.trans ((hg d hscope rfl _ _).mpr ⟨hfits, rfl, rfl⟩)
  | ok r₁ d₁ =>
      obtain ⟨hfits, rfl, rfl⟩ := (hg d hscope rfl _ d₁).mp hrun
      constructor
      · intro h
        obtain ⟨rfl, rfl⟩ := EStateM.Result.ok.inj h
        exact ⟨hfits, rfl, rfl⟩
      · rintro ⟨-, rfl, rfl⟩
        rfl

/-- What a generator does with the draft it reads depends on the variables only. -/
theorem reading {k : Draft → Gen α}
    (h : ∀ d : Draft, d.vars = vars → Emits scope vars (k d) fits result a vars') :
    Emits scope vars (get >>= k) fits result a vars' := by
  intro d hscope hvars r d'
  rw [get_bind]
  exact h d hvars d hscope hvars r d'

/-- A test that refuses comes first. -/
theorem refuse {c : Prop} [Decidable c] {slots : Nat} {k : Unit → Gen α}
    (h : Emits scope vars g fits result a vars') :
    Emits scope vars (if c then Gen.overflow slots >>= k else g) (¬c ∧ fits) result a vars' := by
  intro d hscope hvars r d'
  by_cases hc : c
  · rw [if_pos hc]
    exact ⟨fun hok => (nomatch hok), fun hok => absurd hc hok.1.1⟩
  · rw [if_neg hc, h d hscope hvars]
    exact and_congr_left fun _ => ⟨fun hfits => ⟨hc, hfits⟩, And.right⟩

theorem forM {γ : Type} {f : γ → Gen Unit} {code : γ → List (Line ι)}
    (hf : ∀ c, Emits scope vars (f c) True () (code c) vars) (cs : List γ) :
    Emits scope vars (cs.forM f) True () (cs.flatMap code) vars := by
  induction cs with
  | nil => exact Emits.pure ()
  | cons c cs ih => exact (Emits.bind (hf c) ih).congr (and_self_iff) rfl

theorem declareAll (names : List String) (vars : List String) :
    Emits scope vars (names.forM fun name => do let _ ← Gen.declare name)
      (Declarable vars names) () ([] : List (Line ι)) (vars ++ names) := by
  induction names generalizing vars with
  | nil =>
      rw [List.append_nil]
      exact .pure ()
  | cons name names ih =>
      rw [List.append_cons]
      refine congr (.bind (.bind (declare name) (.pure ())) (ih _)) ?_ rfl
      simp [Declarable]

/-- What is appended between two looks at the size is known by its length. -/
theorem between {g : Gen Unit} {k : Int → Gen Unit} (extra : Nat)
    (hg : Emits scope vars g fits () a mid)
    (hk : Emits scope mid (k (-(Line.length a + extra : Nat))) True () b vars') :
    Emits scope vars
      (do
        let start := (← get).size
        g
        let stop := (← get).size + extra
        k ((start : Int) - stop))
      fits () (a ++ b) vars' := by
  intro d hscope hvars r d'
  -- the two sizes depend on the draft, their difference does not
  have hoffset : (d.size : Int) - ((d.extend a mid).size + extra : Nat)
      = -(Line.length a + extra : Nat) := by
    show (d.size : Int) - (d.size + Line.length a + extra : Nat) = _
    omega
  have hrest := Emits.bind (f := fun _ => k (-(Line.length a + extra : Nat))) hg hk
    d hscope hvars r d'
  rw [bind_ok_iff, and_true] at hrest
  rw [get_bind, bind_ok_iff, ← hrest]
  refine exists_congr fun _ => exists_congr fun d₁ => and_congr_right fun hd₁ => ?_
  obtain ⟨-, -, rfl⟩ := (hg d hscope hvars _ d₁).mp hd₁
  rw [get_bind]
  simp only [hoffset]

end Emits

end Gen

end DualMachine
