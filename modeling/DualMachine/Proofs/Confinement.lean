import DualMachine.Proofs.Locality
import DualMachine.Proofs.Register.Checking
import DualMachine.Proofs.Stack.Checking

/-!
# Code that keeps to itself

A jump moves the counter by an offset, so it is up to the code of a function whether
control stays inside it. `Confined A lines inside n k ops` says that it does: from byte `k`
of the lines on, control is at instructions of the same lines for `n` steps, calls of
other functions aside, or it returns or halts before that. Unlike `Linked.Checked` it
speaks of the lines alone, so it is true of them wherever they stand.

Functions are called by name and in no other way (`Pieces.Each`), so a function can be
checked as a program of its own. From `Analysis.Accepts` follows that the code of every
function is confined (`Analysis.Accepts.body_confined`), as is the code that a program begins
with (`Analysis.Accepts.start_confined`).

`Analysis.Steers` adds to the laws of an analysis that it knows the offsets that jumps and
branches go by.
-/

namespace DualMachine

open Source

section

/-! ## Instructions that are not named calls -/

/-- A property of all instructions in lines but the named calls. -/
def Line.Each {ι : Type} (P : ι → Prop) (lines : List (Line ι)) : Prop :=
  ∀ i, Line.plain i ∈ lines → P i

namespace Line.Each

variable {ι : Type} {P : ι → Prop}

@[simp] theorem nil : Line.Each P [] := fun i h => by cases h

@[simp] theorem append_iff {a b : List (Line ι)} :
    Line.Each P (a ++ b) ↔ Line.Each P a ∧ Line.Each P b := by
  simp [Line.Each, or_imp, forall_and]

@[simp] theorem ofCode_iff {code : List ι} :
    Line.Each P (Line.ofCode code) ↔ ∀ i ∈ code, P i := by
  simp [Line.Each, Line.ofCode]

@[simp] theorem call (name : String) : Line.Each P [.call name] := by simp [Line.Each]

theorem mono {Q : ι → Prop} {lines : List (Line ι)} (h : Line.Each P lines)
    (hPQ : ∀ i, P i → Q i) : Line.Each Q lines := fun i hi => hPQ i (h i hi)

end Line.Each

variable {ι : Type} [InstructionSet ι]

/-- A property of all instructions that code is put together from. -/
structure Pieces.Each (C : Pieces ι) (P : ι → Prop) : Prop where
  expr : ∀ {scope vars e}, Line.Each P (C.expr scope vars e)
  store : ∀ {slot}, ∀ i ∈ C.store slot, P i
  ret : ∀ i ∈ C.ret, P i
  zero : ∀ i ∈ C.zero, P i
  invert : ∀ i ∈ C.invert, P i
  jump : ∀ {offset}, ∀ i ∈ C.jump offset, P i
  cjump : ∀ {offset}, ∀ i ∈ C.cjump offset, P i

namespace Pieces.Each

variable {C : Pieces ι} {P : ι → Prop}

theorem conditional (hC : C.Each P) {cond a b : List (Line ι)} (hcond : Line.Each P cond)
    (ha : Line.Each P a) (hb : Line.Each P b) : Line.Each P (C.conditional cond a b) := by
  simp only [Pieces.conditional, Line.Each.append_iff, Line.Each.ofCode_iff]
  exact ⟨⟨⟨⟨hcond, hC.cjump⟩, hb⟩, hC.jump⟩, ha⟩

theorem loop (hC : C.Each P) {cond a : List (Line ι)} (hcond : Line.Each P cond)
    (ha : Line.Each P a) : Line.Each P (C.loop cond a) := by
  simp only [Pieces.loop, Pieces.round, Line.Each.append_iff, Line.Each.ofCode_iff]
  exact ⟨⟨⟨⟨hcond, hC.invert⟩, hC.cjump⟩, ha⟩, hC.jump⟩

mutual

theorem statement (hC : C.Each P) {scope : Scope} : ∀ (st : Stmt) (vars : List String),
    Line.Each P (C.statement scope vars st)
  | .var x value, vars => by
      rw [Pieces.statement, Line.Each.append_iff, Line.Each.ofCode_iff]
      exact ⟨hC.expr, hC.store⟩
  | .assign x value, vars => by
      rw [Pieces.statement, Line.Each.append_iff, Line.Each.ofCode_iff]
      exact ⟨hC.expr, hC.store⟩
  | .return value, vars => by
      rw [Pieces.statement, Line.Each.append_iff, Line.Each.ofCode_iff]
      exact ⟨hC.expr, hC.ret⟩
  | .if cond onTrue none, vars => by
      rw [Pieces.statement]
      exact hC.conditional (hC.expr) (statements hC onTrue vars) .nil
  | .if cond onTrue (some onFalse), vars => by
      rw [Pieces.statement]
      exact hC.conditional (hC.expr) (statements hC onTrue vars) (statements hC onFalse vars)
  | .while cond body, vars => by
      rw [Pieces.statement]
      exact hC.loop (hC.expr) (statements hC body vars)

theorem statements (hC : C.Each P) {scope : Scope} : ∀ (ss : List Stmt) (vars : List String),
    Line.Each P (C.statements scope vars ss)
  | [], vars => by
      rw [Pieces.statements]
      exact .nil
  | st :: ss, vars => by
      rw [Pieces.statements, Line.Each.append_iff]
      exact ⟨statement hC st vars, statements hC ss _⟩

end

theorem body (hC : C.Each P) {scope : Scope} {vars : List String} {body : Body} :
    Line.Each P (C.body scope vars body) := by
  cases body with
  | block ss =>
      simp only [Pieces.body, Line.Each.append_iff, Line.Each.ofCode_iff]
      exact ⟨⟨hC.statements ss vars, hC.zero⟩, hC.ret⟩
  | expression value =>
      simp only [Pieces.body, Line.Each.append_iff, Line.Each.ofCode_iff]
      exact ⟨hC.expr, hC.ret⟩

end Pieces.Each

/-! ## Confined lines -/

/-- Where control goes after an effect, other than by a call: on to `stop`, the end of the
instruction, or to what a known offset leads to. -/
def Effect.Continues {α : Type} (inside : Bool) (next : Nat → α → Prop) (stop : Nat) :
    Effect α → Prop
  | .constant after | .compute after | .load _ after | .store _ after => next stop after
  | .jump offset after => ∃ target : Nat, (target : Int) = stop + offset.toInt ∧ next target after
  | .branch offset after => next stop after ∧
      ∃ target : Nat, (target : Int) = stop + offset.toInt ∧ next target after
  | .call _ => False
  | .ret => inside = true
  | .halt => True

/-- Where control goes after a line; a named call comes back behind it. -/
def Line.Continues (A : Analysis ι) (inside : Bool) (next : Nat → A.Operands → Prop)
    (stop : Nat) (ops : A.Operands) : Line ι → Prop
  | .plain i => ∃ e, A.Does i ops e ∧ e.Continues inside next stop
  | .call _ => next stop (A.resumed ops)

/-- For `n` steps from byte `k` on control stays at the lines. -/
def Confined (A : Analysis ι) (lines : List (Line ι)) (inside : Bool) :
    Nat → Nat → A.Operands → Prop
  | 0, _, _ => True
  | n + 1, k, ops => ∃ before l after, lines = before ++ l :: after ∧ k = Line.length before ∧
      l.Continues A inside (Confined A lines inside n) (k + l.width) ops

variable {A : Analysis ι} {lines : List (Line ι)} {inside : Bool}

theorem Effect.Continues.mono {α : Type} {next next' : Nat → α → Prop} {stop : Nat}
    {e : Effect α} (hnext : ∀ k ops, next k ops → next' k ops)
    (h : e.Continues inside next stop) : e.Continues inside next' stop := by
  cases e with
  | constant after | compute after | load slot after | store slot after => exact hnext _ _ h
  | jump offset after =>
      obtain ⟨target, htarget, h⟩ := h
      exact ⟨target, htarget, hnext _ _ h⟩
  | branch offset after =>
      obtain ⟨hstay, target, htarget, h⟩ := h
      exact ⟨hnext _ _ hstay, target, htarget, hnext _ _ h⟩
  | call target | ret | halt => exact h

theorem Confined.pred {n k : Nat} {ops : A.Operands} (h : Confined A lines inside (n + 1) k ops) :
    Confined A lines inside n k ops := by
  induction n generalizing k ops with
  | zero => trivial
  | succ n ih =>
      obtain ⟨before, l, after, hlines, hk, hcontinues⟩ := h
      refine ⟨before, l, after, hlines, hk, ?_⟩
      cases l with
      | plain i =>
          obtain ⟨e, hdoes, hcontinues⟩ := hcontinues
          exact ⟨e, hdoes, hcontinues.mono fun _ _ => ih⟩
      | call name => exact ih hcontinues

theorem Confined.le_length {n k : Nat} {ops : A.Operands}
    (h : Confined A lines inside (n + 1) k ops) : k ≤ Line.length lines := by
  obtain ⟨before, l, after, rfl, rfl, -⟩ := h
  rw [Line.length_append]
  exact Nat.le_add_right ..

/-! ## Targets that are known -/

/-- The offsets that an instruction with the effect may go by. -/
def Effect.decisions {α : Type} : Effect α → List (Option Word)
  | .jump offset _ => [some offset]
  | .branch offset _ => [none, some offset]
  | _ => [none]

/-- Instructions are carried out as decoded, and go to no targets but those that are known. -/
structure Analysis.Steers (A : Analysis ι) : Prop where
  exec_eq : ∀ i, InstructionSet.exec i = (A.operation i).exec
  call_eq : ∀ {i ops target}, A.Does i ops (.call target) → i = InstructionSet.call target
  taken_mem : ∀ {i ops e before holder}, A.Does i ops e → A.Describes ops before holder →
    (A.operation i).taken? holder ∈ e.decisions

/-! ## Checked code is confined -/

/-- An instruction of linked lines is that of a line. -/
theorem Line.of_codeAt {address : String → Word} {k : Nat} {i : ι}
    (h : CodeAt (lines.map (Line.link address)) k [i]) :
    ∃ before l after, lines = before ++ l :: after ∧ k = Line.length before ∧
      l.link address = i := by
  obtain ⟨before, after, hcode, rfl⟩ := h
  rw [List.append_assoc, List.singleton_append] at hcode
  obtain ⟨front, rest, rfl, rfl, hrest⟩ := List.map_eq_append_iff.mp hcode
  obtain ⟨l, rest, rfl, rfl, rfl⟩ := List.map_eq_cons_iff.mp hrest
  exact ⟨front, l, rest, rfl, (Line.length_eq_codeLength address front).symm, rfl⟩

variable {C : Pieces ι}

namespace Linked

variable {L : Linked C}

theorem Follows.continues {next : Nat → Point A.Operands → Prop}
    {next' : Nat → A.Operands → Prop} {stop : Nat} {P : Point A.Operands}
    {e : Effect A.Operands} (h : L.Follows A next stop P e) (hcall : ∀ target, e ≠ .call target)
    (hnext : ∀ {k ops own passed}, next k ⟨ops, own, passed, P.inside⟩ → next' k ops) :
    e.Continues P.inside next' stop := by
  cases e with
  | constant after => exact hnext h
  | compute after => exact hnext h
  | load slot after => exact hnext h.2.2.2
  | store slot after => exact hnext h.2.2
  | jump offset after =>
      obtain ⟨target, htarget, h⟩ := h
      exact ⟨target, htarget, hnext h⟩
  | branch offset after =>
      obtain ⟨hstay, target, htarget, h⟩ := h
      exact ⟨hnext hstay, target, htarget, hnext h⟩
  | call target => exact absurd rfl (hcall target)
  | ret => exact h
  | halt => trivial

/-- In a program that consists of the lines, a check goes from line to line. -/
theorem Checked.confined (hS : A.Sound) (hD : A.Steers) (hA : A.Accepts C) {address : String → Word}
    (hcode : L.code = lines.map (Line.link address))
    (hplain : Line.Each (fun i => ∀ target, i ≠ InstructionSet.call target) lines) {n k : Nat}
    {P : Point A.Operands} (h : L.Checked A n k P) :
    Confined A lines P.inside n k P.operands := by
  induction n generalizing k P with
  | zero => trivial
  | succ n ih =>
      obtain ⟨i, e, hat, hdoes, hfollows⟩ := h
      rw [hcode] at hat
      obtain ⟨before, l, after, hlines, hk, rfl⟩ := Line.of_codeAt hat
      refine ⟨before, l, after, hlines, hk, ?_⟩
      rw [Line.width_link] at hfollows
      cases l with
      | plain i =>
          have hcall : ∀ target, e ≠ .call target := by
            rintro target rfl
            exact hplain i (by rw [hlines]; simp) target (hD.call_eq hdoes)
          exact ⟨e, hdoes, hfollows.continues hcall ih⟩
      | call name =>
          -- wherever the name leads to, control comes back behind the call
          have hrole := hS.role_eq hdoes
          rw [Line.link, hS.role_eq (hA.call (address name) P.operands)] at hrole
          cases e with
          | call target =>
              obtain ⟨_, _, -, -, -, hnext⟩ := hfollows
              exact ih hnext
          | _ => cases hrole

theorem placed_whole (lines : List (Line ι)) :
    DualMachine.Placed (lines.map (Line.link fun _ => Int32.ofInt (0 : Nat))) (fun _ => some 0) 0
      lines where
  code := ⟨[], [], by rw [List.nil_append, List.append_nil]; rfl, rfl⟩
  resolved _ _ := ⟨0, rfl⟩

/-- A function as a program of its own, in which all calls lead to itself. -/
def alone {d : Definition} (hfits : C.FunctionFits d) (scope : Scope)
    (hsmall : Line.length (C.body scope d.args d.body) < 2 ^ 31) : Linked C where
  code := (C.body scope d.args d.body).map (Line.link fun _ => Int32.ofInt (0 : Nat))
  symbols _ := some 0
  small := by rwa [← Line.length_eq_codeLength]
  complete := False
  arity _ := 0
  function := by
    rintro name address ⟨⟩
    exact ⟨scope, d, hfits, placed_whole _, False.elim⟩

end Linked

namespace Analysis.Accepts

/-- The code of a function is confined, wherever it stands. -/
theorem body_confined (hA : A.Accepts C) (hS : A.Sound) (hD : A.Steers)
    (hC : C.Each fun i => ∀ target, i ≠ InstructionSet.call target) {d : Definition}
    (hfits : C.FunctionFits d) {scope : Scope}
    (hsmall : Line.length (C.body scope d.args d.body) < 2 ^ 31) (n : Nat) :
    Confined A (C.body scope d.args d.body) true n 0 A.fresh := by
  have hentry : (Linked.alone hfits scope hsmall).Entry 0 d.args.length :=
    ⟨scope, d, rfl, hfits, Linked.placed_whole _, False.elim⟩
  exact (hA.entry_checked hentry n).confined hS hD hA rfl hC.body

/-- The code that a program begins with is confined. -/
theorem start_confined (hA : A.Accepts C) (entry : String) (n : Nat) :
    Confined A [.call entry, .plain InstructionSet.halt] false n 0 A.fresh := by
  cases n with
  | zero => trivial
  | succ n =>
      refine ⟨[], .call entry, [.plain InstructionSet.halt], rfl, rfl, ?_⟩
      cases n with
      | zero => trivial
      | succ n =>
          refine ⟨[.call entry], .plain InstructionSet.halt, [], rfl, ?_, .halt, hA.halt _, trivial⟩
          simp [Line.length]

end Analysis.Accepts

end

/-! ## The machines -/

namespace RegisterCode

/-- An instruction that neither calls nor branches. -/
def Straight (i : Register.Instr) : Prop := i.op ≠ .call ∧ i.op ≠ .jump ∧ i.op ≠ .cjump

theorem Straight.ne_call {i : Register.Instr} (h : Straight i) (target : Word) :
    i ≠ .call target := by
  rintro rfl
  exact h.1 rfl

variable {file : File}

theorem loadCode_straight {dst : UInt8} {slot : Nat} :
    ∀ i ∈ loadCode file dst slot, Straight i := by simp [loadCode, Straight, Register.Instr.op]

theorem storeCode_straight {src : UInt8} {slot : Nat} :
    ∀ i ∈ storeCode file src slot, Straight i := by simp [storeCode, Straight, Register.Instr.op]

theorem invertCode_straight {reg : UInt8} :
    ∀ i ∈ invertCode file reg, Straight i := by simp [invertCode, Straight, Register.Instr.op]

theorem saveCode_straight {first slot count : Nat} :
    ∀ i ∈ saveCode file first slot count, Straight i := by
  intro i hi
  obtain ⟨k, -, hk⟩ := List.mem_flatMap.mp hi
  exact storeCode_straight i hk

mutual

theorem exprCode_each {scope : Scope} {vars : List String} : ∀ (e : Expr) (t : Nat),
    Line.Each Straight (exprCode file scope vars e t)
  | .number n, t => by simp [exprCode, Straight, Register.Instr.op]
  | .boolean b, t => by simp [exprCode, Straight, Register.Instr.op]
  | .identifier x, t => by
      rw [exprCode, Line.Each.ofCode_iff]
      exact loadCode_straight
  | .paren inner, t => by rw [exprCode]; exact exprCode_each inner t
  | .unary op operand, t => by
      rw [exprCode, Line.Each.append_iff, Line.Each.ofCode_iff]
      refine ⟨exprCode_each operand t, ?_⟩
      cases op <;> simp [unaryCode, invertCode, Straight, Register.Instr.op]
  | .binary op left right, t => by
      simp only [exprCode, Line.Each.append_iff, Line.Each.ofCode_iff]
      refine ⟨⟨exprCode_each left t, exprCode_each right (t + 1)⟩, ?_⟩
      cases op <;> simp [binaryCode, invertCode, BinaryOp.lowered, Straight, Register.Instr.op]
  | .call f args, t => by
      simp only [exprCode, Line.Each.append_iff, Line.Each.ofCode_iff]
      refine ⟨⟨⟨saveCode_straight, exprsCode_each args t⟩, saveCode_straight, .call _⟩, ?_, ?_⟩
      · intro i hi
        rw [resultCode] at hi
        split at hi
        · cases hi
        · simp_all [Straight, Register.Instr.op]
      · intro i hi
        obtain ⟨k, -, hk⟩ := List.mem_flatMap.mp hi
        exact loadCode_straight i hk

theorem exprsCode_each {scope : Scope} {vars : List String} : ∀ (es : List Expr) (t : Nat),
    Line.Each Straight (exprsCode file scope vars es t)
  | [], t => by
      rw [exprsCode]
      exact .nil
  | e :: es, t => by
      rw [exprsCode, Line.Each.append_iff]
      exact ⟨exprCode_each e t, exprsCode_each es (t + 1)⟩

end

theorem pieces_each (file : File) :
    (pieces file).Each fun i => ∀ target, i ≠ InstructionSet.call target where
  expr := (exprCode_each _ 0).mono fun _ => Straight.ne_call
  store i hi := (storeCode_straight i hi).ne_call
  ret := by simp [pieces]
  zero := by simp [pieces]
  invert i hi := (invertCode_straight i hi).ne_call
  jump := by simp [pieces]
  cjump := by simp [pieces]

theorem analysis_steers : analysis.Steers where
  exec_eq _ := rfl
  call_eq := by
    intro i known target hdoes
    cases hdoes
    rfl
  taken_mem := by
    intro i known e before holder hdoes hdescribes
    obtain ⟨regs, rfl, -⟩ := hdescribes
    cases hdoes with
    | @cjump _ cond offset =>
        show regs[cond.toNat]?.bind _ ∈ [none, some offset]
        cases regs[cond.toNat]? with
        | none => simp
        | some c => by_cases hc : c = 0 <;> simp [hc]
    | _ => exact List.mem_singleton_self _

end RegisterCode

namespace StackCode

/-- An instruction that neither calls nor branches. -/
def Straight (i : Stack.Instr) : Prop := i.op ≠ .call ∧ i.op ≠ .jump ∧ i.op ≠ .cjump

theorem Straight.ne_call {i : Stack.Instr} (h : Straight i) (target : Word) :
    i ≠ .call target := by
  rintro rfl
  exact h.1 rfl

theorem storeCode_straight {slot : Nat} :
    ∀ i ∈ storeCode slot, Straight i := by simp [storeCode, Straight, Stack.Instr.op]

theorem invertCode_straight : ∀ i ∈ invertCode, Straight i := by
  simp [invertCode, Straight, Stack.Instr.op]

mutual

theorem exprCode_each {scope : Scope} {vars : List String} : ∀ e : Expr,
    Line.Each Straight (exprCode scope vars e)
  | .number n => by simp [exprCode, Straight, Stack.Instr.op]
  | .boolean b => by simp [exprCode, Straight, Stack.Instr.op]
  | .identifier x => by simp [exprCode, loadCode, Straight, Stack.Instr.op]
  | .paren inner => by rw [exprCode]; exact exprCode_each inner
  | .unary op operand => by
      rw [exprCode, Line.Each.append_iff, Line.Each.ofCode_iff]
      refine ⟨exprCode_each operand, ?_⟩
      cases op <;> simp [unaryCode, invertCode, Straight, Stack.Instr.op]
  | .binary op left right => by
      simp only [exprCode, Line.Each.append_iff, Line.Each.ofCode_iff]
      refine ⟨⟨exprCode_each right, exprCode_each left⟩, ?_⟩
      cases op <;> simp [binaryCode, invertCode, BinaryOp.lowered, Straight, Stack.Instr.op]
  | .call f args => by
      simp only [exprCode, Line.Each.append_iff, Line.Each.ofCode_iff]
      refine ⟨exprsCode_each args, fun i hi => ?_, .call _⟩
      obtain ⟨k, -, hk⟩ := List.mem_flatMap.mp hi
      exact storeCode_straight i hk

theorem exprsCode_each {scope : Scope} {vars : List String} : ∀ es : List Expr,
    Line.Each Straight (exprsCode scope vars es)
  | [] => by
      rw [exprsCode]
      exact .nil
  | e :: es => by
      rw [exprsCode, Line.Each.append_iff]
      exact ⟨exprCode_each e, exprsCode_each es⟩

end

theorem pieces_each : pieces.Each fun i => ∀ target, i ≠ InstructionSet.call target where
  expr := (exprCode_each _).mono fun _ => Straight.ne_call
  store i hi := (storeCode_straight i hi).ne_call
  ret := by simp [pieces]
  zero := by simp [pieces]
  invert i hi := (invertCode_straight i hi).ne_call
  jump := by simp [pieces]
  cjump := by simp [pieces]

theorem analysis_steers : analysis.Steers where
  exec_eq _ := rfl
  call_eq := by
    intro i known target hdoes
    cases hdoes
    rfl
  taken_mem := by
    intro i known e before holder hdoes hdescribes
    obtain ⟨values, below, -, rfl, hknows⟩ := hdescribes
    cases hdoes with
    | @jump _ offset =>
        obtain _ | ⟨hoffset, -⟩ := hknows
        obtain rfl := hoffset _ rfl
        exact List.mem_singleton_self _
    | @cjump _ offset cond =>
        obtain _ | ⟨hoffset, _ | ⟨-, -⟩⟩ := hknows
        obtain rfl := hoffset _ rfl
        rename_i c _
        show (if c ≠ 0 then _ else _) ∈ _
        by_cases hc : c = 0 <;> simp [hc, Effect.decisions]
    | _ => exact List.mem_singleton_self _

end StackCode

end DualMachine
