import DualMachine.Proofs.Collapse
import DualMachine.Proofs.Confinement

/-!
# Branches

A code generator measures a block before it emits the branch around it, and relies on the block
taking as many bytes when it is compiled for good. An `Emitter` names the parts of a code
generator that are involved. `Emitter.If` and `Emitter.While` are the drafts that such a statement
goes through, with the sizes that are measured and the offsets that are emitted.

Whatever function is compiled, what is measured is what is emitted, the branches of a statement
lead to where its parts begin and end, and every branch in the finished body leads to an
instruction of this body, never into the code of another branch (`branches_placed`).
-/

namespace DualMachine

open Source

/-! ## Emitters -/

/-- The parts of a code generator that lay out branches. -/
structure Emitter where
  backend : Backend
  statement : Stmt → Gen Unit
  block : List Stmt → Gen Unit
  /-- Evaluates a condition. -/
  condition : Expr → Gen Unit
  /-- Makes the value of a condition 1 if it is zero, and 0 otherwise. -/
  invert : Gen Unit
  /-- The code of a jump. Its offset counts from the end of this code. -/
  jump : Word → List Instruction
  /-- The code of a jump that is taken if a value is not zero. -/
  cjump : Word → List Instruction
  /-- The instructions that jump. -/
  branches : List Descriptor

/-- The code generator of the register machine. -/
def RegisterCode.emitter (file : File) : Emitter where
  backend := backend file
  statement := statement file
  block := block file
  condition e := expr file e 0
  invert := invert file 0
  jump offset := [Register.Instr.toInstruction (.jump offset)]
  cjump offset := [Register.Instr.toInstruction (.cjump 0 offset)]
  branches := [Register.Op.descriptor .jump, Register.Op.descriptor .cjump]

/-- The code generator of the stack machine, where a branch pops the offset that is pushed right
before it. -/
def StackCode.emitter : Emitter where
  backend := backend
  statement := statement
  block := block
  condition := expr
  invert := invert
  jump offset := [Stack.Instr.toInstruction (.push offset), Stack.Instr.toInstruction .jump]
  cjump offset := [Stack.Instr.toInstruction (.push offset), Stack.Instr.toInstruction .cjump]
  branches := [Stack.Op.descriptor .jump, Stack.Op.descriptor .cjump]

/-- The code generators there are. -/
inductive Emitter.Provided : Emitter → Prop where
  | register (file : RegisterCode.File) : Provided (RegisterCode.emitter file)
  | stack : Provided StackCode.emitter

namespace Draft

/-- Where the next instruction goes, in bytes. -/
def position (d : Draft) : Nat := Instruction.totalLength d.code.toList

/-- The draft of a function before its body is compiled. -/
def opened (scope : Scope) (d : Definition) : Draft :=
  { function := scope.define d.name, scope, vars := d.args }

/-- The draft with instructions appended. -/
def append (d : Draft) (code : List Instruction) : Draft :=
  { d with code := d.code ++ code.toArray, size := d.size + Instruction.totalLength code }

end Draft

namespace Emitter

variable (E : Emitter)

/-- The code for zero, which may be missing. -/
def otherwise : Option (List Stmt) → Gen Unit
  | none => pure ()
  | some onFalse => E.block onFalse

/-- How an `if` is compiled: the condition, a branch, the code for zero, a jump and the other
code. -/
structure If (start : Draft) (cond : Expr) (onTrue : List Stmt)
    (onFalse : Option (List Stmt)) where
  /-- After the condition, where both parts are measured. -/
  tested : Draft
  falseSize : Nat
  trueSize : Nat
  toTrue : Word
  falseStop : Draft
  toStop : Word
  stop : Draft
  run : E.statement (.if cond onTrue onFalse) start = .ok () stop
  condition : E.condition cond start = .ok () tested
  measure_false : Gen.measure (E.otherwise onFalse) tested = .ok falseSize tested
  measure_true : Gen.measure (E.block onTrue) tested = .ok trueSize tested
  otherwise : E.otherwise onFalse (tested.append (E.cjump toTrue)) = .ok () falseStop
  block : E.block onTrue (falseStop.append (E.jump toStop)) = .ok () stop
  falseStop_position : falseStop.position = (tested.append (E.cjump toTrue)).position + falseSize
  stop_position : stop.position = (falseStop.append (E.jump toStop)).position + trueSize
  /-- The branch leads to the first byte of the code for other values than zero. -/
  toTrue_eq : ((tested.append (E.cjump toTrue)).position : Int) + toTrue.toInt
    = (falseStop.append (E.jump toStop)).position
  /-- The jump leads past this code. -/
  toStop_eq : ((falseStop.append (E.jump toStop)).position : Int) + toStop.toInt = stop.position

/-- How a `while` is compiled: the condition, a branch on its inverse, the body and a jump. -/
structure While (start : Draft) (cond : Expr) (body : List Stmt) where
  tested : Draft
  /-- After the inversion, where the body is measured. -/
  inverted : Draft
  bodySize : Nat
  toStop : Word
  bodyStop : Draft
  toStart : Word
  stop : Draft
  run : E.statement (.while cond body) start = .ok () stop
  condition : E.condition cond start = .ok () tested
  invert : E.invert tested = .ok () inverted
  measure_body : Gen.measure (E.block body) inverted = .ok bodySize inverted
  block : E.block body (inverted.append (E.cjump toStop)) = .ok () bodyStop
  bodyStop_position :
    bodyStop.position = (inverted.append (E.cjump toStop)).position + bodySize
  stop_eq : stop = bodyStop.append (E.jump toStart)
  /-- The branch leads past the jump back. -/
  toStop_eq : ((inverted.append (E.cjump toStop)).position : Int) + toStop.toInt = stop.position
  /-- The jump leads to the first byte of the condition. -/
  toStart_eq : (stop.position : Int) + toStart.toInt = start.position

/-- In compiling statements from a draft on, the generator comes to a statement at another. -/
inductive Visits : (first : Draft) → List Stmt → (start : Draft) → Stmt → Prop where
  | here {first : Draft} {s : Stmt} {ss : List Stmt} : Visits first (s :: ss) first s
  | next {first mid start : Draft} {r s : Stmt} {ss : List Stmt}
      (run : E.statement r first = .ok () mid) (rest : Visits mid ss start s) :
      Visits first (r :: ss) start s
  | onTrue {first start : Draft} {cond : Expr} {onTrue : List Stmt}
      {onFalse : Option (List Stmt)} {s : Stmt} {ss : List Stmt}
      (layout : E.If first cond onTrue onFalse)
      (inside : Visits (layout.falseStop.append (E.jump layout.toStop)) onTrue start s) :
      Visits first (.if cond onTrue onFalse :: ss) start s
  | onFalse {first start : Draft} {cond : Expr} {onTrue onFalse : List Stmt} {s : Stmt}
      {ss : List Stmt} (layout : E.If first cond onTrue (some onFalse))
      (inside : Visits (layout.tested.append (E.cjump layout.toTrue)) onFalse start s) :
      Visits first (.if cond onTrue (some onFalse) :: ss) start s
  | body {first start : Draft} {cond : Expr} {body : List Stmt} {s : Stmt} {ss : List Stmt}
      (layout : E.While first cond body)
      (inside : Visits (layout.inverted.append (E.cjump layout.toStop)) body start s) :
      Visits first (.while cond body :: ss) start s

/-- The code of a branch by an offset. -/
def Branch (code : List Instruction) (offset : Word) : Prop :=
  code = E.jump offset ∨ code = E.cjump offset

/-- The branch at the end of `past` leads to between `before` and `after`. -/
structure Leads (body past before after : List Instruction) : Prop where
  code : ∃ front code offset, past = front ++ code ∧ E.Branch code offset ∧
    (Instruction.totalLength before : Int) = Instruction.totalLength past + offset.toInt
  body_eq : body = before ++ after

/-- The place between `before` and `after` is inside the code of a branch. -/
def Straddles (before after : List Instruction) : Prop :=
  ∃ offset front back, E.Branch (front ++ back) offset ∧ front ≠ [] ∧ back ≠ [] ∧
    front <:+ before ∧ back <+: after

end Emitter

/-! ## Places that branches lead to -/

namespace Emitter

variable (E : Emitter)

/-- An instruction in the code of a branch that does not begin it. -/
def Tail (i : Instruction) : Prop := ∃ code offset, E.Branch code offset ∧ i ∈ code.tail

/-- The code does not begin inside the code of a branch. -/
def Starts (code : List Instruction) : Prop := ∀ i ∈ code.head?, ¬E.Tail i

/-- There are no branches. -/
def Plain (code : List Instruction) : Prop := ∀ i ∈ code, i.descriptor ∉ E.branches

/-- What the code of branches looks like. -/
structure Regular : Prop where
  last : ∀ {code offset}, E.Branch code offset → ∃ front i, code = front ++ [i] ∧ E.Plain front
  tail : ∀ {i}, E.Tail i → i.descriptor ∈ E.branches
  starts : ∀ {code offset}, E.Branch code offset → E.Starts code

/-- The branches in `code`, which stands after `above`, lead to places of the whole. -/
def LandsIn (whole above code : List Instruction) : Prop :=
  ∀ front i rest, code = front ++ i :: rest → i.descriptor ∈ E.branches →
    ∃ before after, E.Leads whole (above ++ front ++ [i]) before after ∧ E.Starts after

/-- The branches in a piece of code lead to places of it, the end included. -/
structure Settled (code : List Instruction) : Prop where
  starts : E.Starts code
  lands : E.LandsIn code [] code

variable {E} {whole above code a b c : List Instruction} {offset exit back : Word}

theorem Straddles.not_starts {before after : List Instruction} (h : E.Straddles before after) :
    ¬E.Starts after := by
  obtain ⟨offset, front, back, hbranch, hfront, hback, -, hafter⟩ := h
  intro hstarts
  obtain ⟨i, back, rfl⟩ := List.exists_cons_of_ne_nil hback
  obtain ⟨rest, rfl⟩ := hafter
  obtain ⟨j, front, rfl⟩ := List.exists_cons_of_ne_nil hfront
  exact hstarts i (by simp) ⟨_, offset, hbranch, by simp⟩

namespace Starts

theorem append (ha : E.Starts a) (hb : E.Starts b) : E.Starts (a ++ b) := by
  intro i hi
  cases a with
  | nil => exact hb i hi
  | cons j a => exact ha i hi

theorem nil : E.Starts [] := fun i hi => by cases hi

end Starts

theorem Regular.jump_starts (hE : E.Regular) (offset : Word) : E.Starts (E.jump offset) :=
  hE.starts (.inl rfl)

theorem Regular.cjump_starts (hE : E.Regular) (offset : Word) : E.Starts (E.cjump offset) :=
  hE.starts (.inr rfl)

theorem Plain.starts (hE : E.Regular) (h : E.Plain code) : E.Starts code :=
  fun i hi htail => h i (List.mem_of_head? hi) (hE.tail htail)

namespace LandsIn

theorem append (ha : E.LandsIn whole above a) (hb : E.LandsIn whole (above ++ a) b) :
    E.LandsIn whole above (a ++ b) := by
  intro front i rest heq hi
  rcases List.append_eq_append_iff.mp heq with ⟨mid, rfl, rfl⟩ | ⟨mid, rfl, hrest⟩
  · rw [← List.append_assoc]
    exact hb mid i rest rfl hi
  · cases mid with
    | nil =>
        rw [List.append_nil] at hb
        exact (List.append_nil (above ++ front)) ▸ hb [] i rest hrest.symm hi
    | cons j mid =>
        obtain ⟨rfl, rfl⟩ := List.cons.inj hrest
        exact ha front i mid rfl hi

theorem of_plain (h : E.Plain code) : E.LandsIn whole above code := by
  rintro front i rest rfl hi
  exact absurd hi (h i (by simp))

/-- A branch is the last instruction of its code. -/
theorem of_branch (hE : E.Regular) (h : E.Branch code offset) {before after : List Instruction}
    (hwhole : whole = before ++ after) (hafter : E.Starts after)
    (hoffset : (Instruction.totalLength before : Int)
      = Instruction.totalLength (above ++ code) + offset.toInt) :
    E.LandsIn whole above code := by
  intro front i rest heq hi
  obtain ⟨init, j, hcode, hplain⟩ := hE.last h
  have hlast : front = init ∧ i = j := by
    rcases List.append_eq_append_iff.mp (heq.symm.trans hcode) with
      ⟨mid, rfl, hmid⟩ | ⟨mid, rfl, hmid⟩
    · cases mid with
      | nil => exact ⟨by simp, (List.cons.inj hmid).1⟩
      | cons k mid =>
          obtain ⟨rfl, -⟩ := List.cons.inj hmid
          exact absurd hi (hplain i (by simp))
    · cases mid with
      | nil => exact ⟨by simp, (List.cons.inj hmid).1.symm⟩
      | cons k mid => simp at hmid
  obtain ⟨rfl, rfl⟩ := hlast
  refine ⟨before, after, ⟨⟨above, code, offset, ?_, h, ?_⟩, hwhole⟩, hafter⟩
  · rw [hcode, List.append_assoc]
  · rw [hoffset, hcode, List.append_assoc]

end LandsIn

namespace Settled

theorem of_plain (hE : E.Regular) (h : E.Plain code) : E.Settled code :=
  ⟨h.starts hE, .of_plain h⟩

/-- A branch of a piece that is settled leads to the same place where other code stands
around it. -/
theorem leads (h : E.Settled code) (above below : List Instruction)
    {front rest : List Instruction} {i : Instruction} (heq : code = front ++ i :: rest)
    (hi : i.descriptor ∈ E.branches) :
    ∃ before after, E.Leads (above ++ code ++ below) (above ++ front ++ [i]) before (after ++ below)
      ∧ E.Starts after := by
  obtain ⟨before, after, ⟨⟨init, branch, offset, hpast, hbranch, hoffset⟩, hcode⟩, hafter⟩ :=
    h.lands front i rest heq hi
  rw [List.nil_append] at hpast hoffset
  refine ⟨above ++ before, after, ⟨⟨above ++ init, branch, offset, ?_, hbranch, ?_⟩, ?_⟩, hafter⟩
  · rw [List.append_assoc, hpast, List.append_assoc]
  · rw [List.append_assoc, Instruction.totalLength_append,
      Instruction.totalLength_append above (front ++ [i])]
    push_cast
    omega
  · rw [hcode]
    simp

theorem landsIn (h : E.Settled code) {below : List Instruction} (hbelow : E.Starts below)
    (hwhole : whole = above ++ code ++ below) : E.LandsIn whole above code := by
  intro front i rest heq hi
  obtain ⟨before, after, hleads, hafter⟩ := h.leads above below heq hi
  exact ⟨before, after ++ below, hwhole ▸ hleads, hafter.append hbelow⟩

theorem append (ha : E.Settled a) (hb : E.Settled b) : E.Settled (a ++ b) where
  starts := ha.starts.append hb.starts
  lands := .append (ha.landsIn hb.starts rfl) (hb.landsIn .nil (by simp))

/-- The branch leads past the jump, the jump to the end. -/
theorem conditional (hE : E.Regular) (ha : E.Settled a) (hb : E.Settled b) (hc : E.Settled c)
    (hexit : exit.toInt = Instruction.totalLength b + Instruction.totalLength (E.jump offset))
    (hoffset : offset.toInt = Instruction.totalLength c) :
    E.Settled (a ++ E.cjump exit ++ b ++ E.jump offset ++ c) where
  starts := (((ha.starts.append (hE.cjump_starts _)).append hb.starts).append
    (hE.jump_starts _)).append hc.starts
  lands := by
    refine .append (.append (.append (.append ?_ ?_) ?_) ?_) ?_
    · have hbelow : E.Starts (E.cjump exit ++ b ++ E.jump offset ++ c) :=
        (((hE.cjump_starts _).append hb.starts).append (hE.jump_starts _)).append hc.starts
      exact ha.landsIn hbelow (by simp)
    · refine .of_branch hE (.inr rfl) rfl hc.starts ?_
      simp only [Instruction.totalLength_append, List.nil_append, hexit]
      push_cast
      omega
    · exact hb.landsIn ((hE.jump_starts offset).append hc.starts) (by simp)
    · refine .of_branch hE (.inl rfl) (List.append_nil _).symm .nil ?_
      simp only [Instruction.totalLength_append, List.nil_append, hoffset]
      push_cast
      omega
    · exact hc.landsIn .nil (by simp)

/-- The branch leads to the end, the jump to the beginning. -/
theorem loop (hE : E.Regular) (ha : E.Settled a) (hb : E.Settled b)
    (hexit : exit.toInt = Instruction.totalLength b + Instruction.totalLength (E.jump back))
    (hback : back.toInt = -Instruction.totalLength (a ++ E.cjump exit ++ b ++ E.jump back)) :
    E.Settled (a ++ E.cjump exit ++ b ++ E.jump back) where
  starts := ((ha.starts.append (hE.cjump_starts _)).append hb.starts).append
    (hE.jump_starts _)
  lands := by
    have hstarts : E.Starts (a ++ E.cjump exit ++ b ++ E.jump back) :=
      ((ha.starts.append (hE.cjump_starts _)).append hb.starts).append (hE.jump_starts _)
    refine .append (.append (.append ?_ ?_) ?_) ?_
    · have hbelow : E.Starts (E.cjump exit ++ b ++ E.jump back) :=
        ((hE.cjump_starts _).append hb.starts).append (hE.jump_starts _)
      exact ha.landsIn hbelow (by simp)
    · refine .of_branch hE (.inr rfl) (List.append_nil _).symm .nil ?_
      simp only [Instruction.totalLength_append, List.nil_append, hexit]
      push_cast
      omega
    · exact hb.landsIn (hE.jump_starts back) (by simp)
    · refine .of_branch hE (.inl rfl) (List.nil_append _).symm hstarts ?_
      rw [List.nil_append, hback]
      show (0 : Int) = _
      omega

end Settled

end Emitter

/-! ## Code from pieces -/

/-- The emitter lays out the pieces of a generator. -/
structure Emitter.Follows {ι : Type} [InstructionSet ι] {C : Pieces ι} (E : Emitter)
    (G : Generator C) : Prop extends E.Regular where
  compileBody : E.backend.compileBody = G.body
  statement : E.statement = G.statement
  block : ∀ ss, E.block ss = Gen.inBlock (G.statements ss)
  condition : E.condition = G.expr
  invert : E.invert = G.invert
  jump : ∀ offset, E.jump offset = (Line.ofCode (C.jump offset)).map Line.symbolic
  cjump : ∀ offset, E.cjump offset = (Line.ofCode (C.cjump offset)).map Line.symbolic
  jumpLength : ∀ offset, Instruction.totalLength (E.jump offset) = C.jumpLength
  expr_plain : ∀ scope vars e, E.Plain ((C.expr scope vars e).map Line.symbolic)
  store_plain : ∀ slot, E.Plain ((Line.ofCode (C.store slot)).map Line.symbolic)
  ret_plain : E.Plain ((Line.ofCode C.ret).map Line.symbolic)
  zero_plain : E.Plain ((Line.ofCode C.zero).map Line.symbolic)
  invert_plain : E.Plain ((Line.ofCode C.invert).map Line.symbolic)
  ret_ne_nil : C.ret ≠ []

namespace Emitter.Follows

variable {ι : Type} [InstructionSet ι] {C : Pieces ι} {E : Emitter} {G : Generator C}
  {scope : Scope}

theorem conditional_settled (hE : E.Follows G) {cond onTrue onFalse : List (Line ι)}
    (hcond : E.Settled (cond.map Line.symbolic)) (htrue : E.Settled (onTrue.map Line.symbolic))
    (hfalse : E.Settled (onFalse.map Line.symbolic))
    (hsize : Line.length (C.conditional cond onTrue onFalse) < 2 ^ 31) :
    E.Settled ((C.conditional cond onTrue onFalse).map Line.symbolic) := by
  have hjump := hE.jumpLength (Int32.ofNat (Line.length onTrue))
  rw [hE.jump, Line.totalLength_symbolic] at hjump
  simp only [Pieces.conditional, Line.length_append, hjump] at hsize
  simp only [Pieces.conditional, List.map_append, ← hE.jump, ← hE.cjump]
  refine .conditional hE.toRegular hcond hfalse htrue ?_ ?_
  · rw [hE.jumpLength, Line.totalLength_symbolic, Int32.toInt_ofNat_of_lt (by omega)]
    push_cast
    rfl
  · rw [Line.totalLength_symbolic, Int32.toInt_ofNat_of_lt (by omega)]

theorem loop_settled (hE : E.Follows G) {cond body : List (Line ι)}
    (hcond : E.Settled (cond.map Line.symbolic)) (hbody : E.Settled (body.map Line.symbolic))
    (hsize : Line.length (C.loop cond body) < 2 ^ 31) :
    E.Settled ((C.loop cond body).map Line.symbolic) := by
  have hjump :=
    hE.jumpLength (Int32.ofInt (-(Line.length (C.round cond body) + C.jumpLength : Nat)))
  rw [hE.jump, Line.totalLength_symbolic] at hjump
  have hround : (C.round cond body).map Line.symbolic
      = (cond.map Line.symbolic ++ (Line.ofCode C.invert).map Line.symbolic)
        ++ E.cjump (Int32.ofNat (Line.length body + C.jumpLength)) ++ body.map Line.symbolic := by
    simp only [Pieces.round, List.map_append, ← hE.cjump]
  simp only [Pieces.loop, Line.length_append, hjump] at hsize
  simp only [Pieces.loop, List.map_append, ← hE.jump, hround]
  refine .loop hE.toRegular (hcond.append (.of_plain hE.toRegular hE.invert_plain)) hbody ?_ ?_
  · have hle : Line.length body ≤ Line.length (C.round cond body) := by
      simp only [Pieces.round, Line.length_append]
      omega
    rw [hE.jumpLength, Line.totalLength_symbolic, Int32.toInt_ofNat_of_lt (by omega)]
    push_cast
    rfl
  · rw [← hround, Instruction.totalLength_append, hE.jumpLength, Line.totalLength_symbolic,
      Int32.toInt_ofInt_of_le (by omega) (by omega)]

mutual

/-- The branches of a statement stay in its code. -/
theorem statement_settled (hE : E.Follows G) : ∀ (s : Stmt) (vars : List String),
    Line.length (C.statement scope vars s) < 2 ^ 31 →
      E.Settled ((C.statement scope vars s).map Line.symbolic)
  | .var x value, vars => fun _ => by
      rw [Pieces.statement, List.map_append]
      exact .append (.of_plain hE.toRegular (hE.expr_plain _ _ _))
        (.of_plain hE.toRegular (hE.store_plain _))
  | .assign x value, vars => fun _ => by
      rw [Pieces.statement, List.map_append]
      exact .append (.of_plain hE.toRegular (hE.expr_plain _ _ _))
        (.of_plain hE.toRegular (hE.store_plain _))
  | .return value, vars => fun _ => by
      rw [Pieces.statement, List.map_append]
      exact .append (.of_plain hE.toRegular (hE.expr_plain _ _ _))
        (.of_plain hE.toRegular hE.ret_plain)
  | .if cond onTrue none, vars => fun hsize => by
      rw [Pieces.statement] at hsize ⊢
      have hparts := hsize
      simp only [Pieces.conditional, Line.length_append] at hparts
      exact hE.conditional_settled (.of_plain hE.toRegular (hE.expr_plain _ _ _))
        (statements_settled hE onTrue vars (by omega))
        (.of_plain hE.toRegular fun i hi => by cases hi) hsize
  | .if cond onTrue (some onFalse), vars => fun hsize => by
      rw [Pieces.statement] at hsize ⊢
      have hparts := hsize
      simp only [Pieces.conditional, Line.length_append] at hparts
      exact hE.conditional_settled (.of_plain hE.toRegular (hE.expr_plain _ _ _))
        (statements_settled hE onTrue vars (by omega))
        (statements_settled hE onFalse vars (by omega)) hsize
  | .while cond body, vars => fun hsize => by
      rw [Pieces.statement] at hsize ⊢
      have hparts := hsize
      simp only [Pieces.loop, Pieces.round, Line.length_append] at hparts
      exact hE.loop_settled (.of_plain hE.toRegular (hE.expr_plain _ _ _))
        (statements_settled hE body vars (by omega)) hsize

theorem statements_settled (hE : E.Follows G) : ∀ (ss : List Stmt) (vars : List String),
    Line.length (C.statements scope vars ss) < 2 ^ 31 →
      E.Settled ((C.statements scope vars ss).map Line.symbolic)
  | [], vars => fun _ => by
      rw [Pieces.statements]
      exact .of_plain hE.toRegular fun i hi => by cases hi
  | s :: ss, vars => fun hsize => by
      rw [Pieces.statements] at hsize ⊢
      rw [Line.length_append] at hsize
      rw [List.map_append]
      exact .append (statement_settled hE s vars (by omega))
        (statements_settled hE ss _ (by omega))

end

/-- In a body, a branch leads to an instruction, since the last statement is followed by a
return. -/
theorem body_lands (hE : E.Follows G) {vars : List String} {body : Body}
    (hsize : Line.length (C.body scope vars body) < 2 ^ 31) {front rest : List Instruction}
    {i : Instruction} (hbody : (C.body scope vars body).map Line.symbolic = front ++ i :: rest)
    (hi : i.descriptor ∈ E.branches) :
    ∃ before after, E.Leads ((C.body scope vars body).map Line.symbolic) (front ++ [i]) before after
      ∧ after ≠ [] ∧ ¬E.Straddles before after := by
  cases body with
  | expression value =>
      have hplain : E.Plain ((C.body scope vars (.expression value)).map Line.symbolic) := by
        rw [Pieces.body, List.map_append]
        exact List.forall_mem_append.mpr ⟨hE.expr_plain _ _ _, hE.ret_plain⟩
      exact absurd hi (hplain i (by simp [hbody]))
  | block ss =>
      have hplain : E.Plain ((Line.ofCode C.zero ++ Line.ofCode C.ret).map Line.symbolic) := by
        rw [List.map_append]
        exact List.forall_mem_append.mpr ⟨hE.zero_plain, hE.ret_plain⟩
      rw [Pieces.body, List.append_assoc, Line.length_append] at hsize
      rw [Pieces.body, List.append_assoc, List.map_append] at hbody ⊢
      have hsettled : E.Settled ((C.statements scope vars ss).map Line.symbolic) :=
        hE.statements_settled ss vars (by omega)
      rcases List.append_eq_append_iff.mp hbody with ⟨mid, -, hrest⟩ | ⟨mid, hstatements, hrest⟩
      · exact absurd hi (hplain i (by simp [hrest]))
      · cases mid with
        | nil =>
            rw [List.nil_append] at hrest
            exact absurd hi (hplain i (hrest ▸ List.mem_cons_self ..))
        | cons j mid =>
            obtain ⟨rfl, rfl⟩ := List.cons.inj hrest
            obtain ⟨before, after, hleads, hafter⟩ := hsettled.leads []
              ((Line.ofCode C.zero ++ Line.ofCode C.ret).map Line.symbolic) hstatements hi
            refine ⟨before, _, hleads, ?_, fun hstraddles => ?_⟩
            · simp [Line.ofCode, hE.ret_ne_nil]
            · exact hstraddles.not_starts (hafter.append (hplain.starts hE.toRegular))

end Emitter.Follows

/-! ## Drafts of branches -/

/-- The bytes of an instruction are those of no other, if it is known by its operation. -/
theorem Analysis.Sound.bytes_injective {ι : Type} [InstructionSet ι] {A : Analysis ι} (hS : A.Sound)
    (hoperation : Function.Injective A.operation) :
    Function.Injective (InstructionSet.bytes (ι := ι)) := by
  intro i j hbytes
  have hi : At [i] i (.initial (.stack []) (codeBytes [i])) :=
    ⟨rfl, [], [], rfl, rfl⟩
  have hj : At [j] j (.initial (.stack []) (codeBytes [i])) :=
    ⟨by simp [codeBytes, hbytes, State.initial], [], [], rfl, rfl⟩
  exact hoperation (Option.some.inj ((hS.operation_eq hi).symm.trans (hS.operation_eq hj)))

/-- A line is known by its symbolic form, if an instruction is by its bytes. -/
theorem Line.symbolic_injective {ι : Type} [InstructionSet ι]
    (hinjective : Function.Injective (InstructionSet.bytes (ι := ι))) :
    Function.Injective (Line.symbolic (ι := ι)) := by
  -- a call by name cannot be resolved without addresses, an instruction has nothing to resolve
  have hdiffer : ∀ (i : ι) (name : String),
      Line.symbolic (.plain i) ≠ Line.symbolic (.call name : Line ι) := by
    intro i name heq
    have hmissing := InstructionSet.resolve_call_none (ι := ι) (fun _ => none) name rfl
    have hresolve := InstructionSet.resolve_symbolic (fun _ => none) i
    change Instruction.resolve _ (Line.symbolic (.plain i)) = _ at hresolve
    change (Instruction.resolve _ (Line.symbolic (.call name : Line ι))).2 = _ at hmissing
    rw [← heq, hresolve] at hmissing
    cases hmissing
  intro l l' heq
  cases l with
  | plain i =>
      cases l' with
      | plain j =>
          have hbytes := (InstructionSet.encode_symbolic i).symm.trans
            ((congrArg Instruction.encode heq).trans (InstructionSet.encode_symbolic j))
          exact congrArg Line.plain (hinjective (Except.ok.inj hbytes))
      | call name => exact absurd heq (hdiffer i name)
  | call name =>
      cases l' with
      | plain j => exact absurd heq.symm (hdiffer j name)
      | call name' =>
          have hname := (List.cons.inj (congrArg Instruction.operands heq)).1
          exact congrArg Line.call (Operand.symbol.inj hname)

theorem Gen.Emits.run {ι α : Type} [InstructionSet ι] {scope : Scope} {vars vars' : List String}
    {g : Gen α} {fits : Prop} {result r : α} {lines : List (Line ι)} {d d' : Draft}
    (hg : Gen.Emits scope vars g fits result lines vars') (h : g d = .ok r d')
    (hscope : d.scope = scope) (hvars : d.vars = vars) : d' = d.extend lines vars' :=
  ((hg d hscope hvars r d').mp h).2.2

namespace Draft

theorem append_position (d : Draft) (code : List Instruction) :
    (d.append code).position = d.position + Instruction.totalLength code := by
  simp [position, append, Instruction.totalLength_append]

theorem code_append (d : Draft) (code : List Instruction) :
    d.code.toList <+: (d.append code).code.toList := by
  simp [append]

theorem append_size (d : Draft) (code : List Instruction) :
    (d.append code).size = d.size + Instruction.totalLength code := rfl

variable {ι : Type} [InstructionSet ι]

theorem extend_size (d : Draft) (lines : List (Line ι)) (vars : List String) :
    (d.extend lines vars).size = d.size + Line.length lines := rfl

theorem extend_position (d : Draft) (lines : List (Line ι)) (vars : List String) :
    (d.extend lines vars).position = d.position + Line.length lines := by
  simp [position, extend, Instruction.totalLength_append, Line.totalLength_symbolic]

/-- Code is appended and stays. -/
theorem code_extend (d : Draft) (lines : List (Line ι)) (vars : List String) :
    d.code.toList <+: (d.extend lines vars).code.toList := by
  simp [extend]

theorem extend_eq_append (d : Draft) (lines : List (Line ι)) :
    d.extend lines d.vars = d.append (lines.map Line.symbolic) := by
  simp [extend, append, Line.totalLength_symbolic]

end Draft

/-- What is added to a draft whose code begins a function stands in the function. -/
theorem Placed.of_draft {ι : Type} [InstructionSet ι]
    (hinjective : Function.Injective (Line.symbolic (ι := ι))) {code : List ι}
    {symbols : String → Option Nat} {address : Nat} {body : List Instruction}
    {lines part : List (Line ι)} (hbody : body = lines.map Line.symbolic)
    (hplaced : Placed code symbols address lines) {draft : Draft} {vars : List String}
    (hcode : (draft.extend part vars).code.toList <+: body) :
    Placed code symbols (address + draft.position) part := by
  obtain ⟨rest, hrest⟩ := hcode
  rw [hbody, Draft.extend, Array.toList_append] at hrest
  obtain ⟨front, back, rfl, hfront, -⟩ := List.map_eq_append_iff.mp hrest.symm
  obtain ⟨above, part', rfl, habove, hpart⟩ := List.map_eq_append_iff.mp hfront
  obtain rfl : part' = part := List.map_injective_iff.mpr hinjective hpart
  have hposition : draft.position = Line.length above := by
    rw [Draft.position, ← habove, Line.totalLength_symbolic]
  rw [hposition]
  exact hplaced.left.right

namespace Emitter.Follows

variable {ι : Type} [InstructionSet ι] {C : Pieces ι} {E : Emitter} {G : Generator C}

theorem block_emits (hE : E.Follows G) (scope : Scope) (vars : List String) (ss : List Stmt) :
    Gen.Emits scope vars (E.block ss) (C.StatementsFit vars ss) () (C.statements scope vars ss)
      vars := by
  rw [hE.block]
  exact (G.statements_emits ss vars).inBlock

theorem otherwise_emits (hE : E.Follows G) (scope : Scope) (vars : List String)
    (onFalse : Option (List Stmt)) :
    ∃ fits lines, Gen.Emits (ι := ι) scope vars (E.otherwise onFalse) fits () lines vars := by
  cases onFalse with
  | none => exact ⟨True, [], .pure ()⟩
  | some ss => exact ⟨_, _, hE.block_emits scope vars ss⟩

theorem jump_run (hE : E.Follows G) {offset : Word} {d d' : Draft}
    (h : G.jump offset d = .ok () d') : d' = d.append (E.jump offset) := by
  obtain rfl := (G.jump_emits _ _ offset).run h rfl rfl
  rw [Draft.extend_eq_append, hE.jump]

theorem cjump_run (hE : E.Follows G) {offset : Word} {d d' : Draft}
    (h : G.cjump offset d = .ok () d') : d' = d.append (E.cjump offset) := by
  obtain rfl := (G.cjump_emits _ _ offset).run h rfl rfl
  rw [Draft.extend_eq_append, hE.cjump]

/-- A size that is measured is that of the code, wherever it is appended. -/
theorem measure_run {scope : Scope} {vars : List String} {g : Gen Unit} {fits : Prop}
    {lines : List (Line ι)} {vars' : List String} (hg : Gen.Emits scope vars g fits () lines vars')
    {d d' : Draft} {n : Nat} (hscope : d.scope = scope) (hvars : d.vars = vars)
    (h : Gen.measure g d = .ok n d') : fits ∧ n = Line.length lines ∧ d = d' := by
  obtain ⟨hfits, hn, rfl⟩ := (hg.measure d hscope hvars n d').mp h
  exact ⟨hfits, hn, by rw [← hvars, Gen.extend_nil]⟩

theorem if_run (hE : E.Follows G) (cond : Expr) (onTrue : List Stmt)
    (onFalse : Option (List Stmt)) :
    E.statement (.if cond onTrue onFalse)
      = G.conditional cond (E.block onTrue) (E.otherwise onFalse) := by
  rw [hE.statement, hE.block]
  cases onFalse with
  | none => rw [G.if_eq, otherwise]
  | some onFalse => rw [G.else_eq, otherwise, hE.block]

theorem if_layout (hE : E.Follows G) {start stop : Draft} {cond : Expr} {onTrue : List Stmt}
    {onFalse : Option (List Stmt)}
    (hrun : E.statement (.if cond onTrue onFalse) start = .ok () stop)
    (hsize : stop.position < 2 ^ 31) :
    ∃ layout : E.If start cond onTrue onFalse, layout.stop = stop := by
  have hsteps := hrun
  rw [hE.if_run, G.conditional_eq] at hsteps
  obtain ⟨_, tested, hcond, hsteps⟩ := bind_ok_iff.mp hsteps
  obtain ⟨falseSize, d₁, hfalse, hsteps⟩ := bind_ok_iff.mp hsteps
  obtain ⟨trueSize, d₂, htrue, hsteps⟩ := bind_ok_iff.mp hsteps
  obtain ⟨_, branched, hbranch, hsteps⟩ := bind_ok_iff.mp hsteps
  obtain ⟨_, falseStop, helse, hsteps⟩ := bind_ok_iff.mp hsteps
  obtain ⟨_, joined, hjump, hthen⟩ := bind_ok_iff.mp hsteps
  obtain ⟨fits, falseLines, hfalseEmits⟩ := hE.otherwise_emits tested.scope tested.vars onFalse
  have htrueEmits := hE.block_emits tested.scope tested.vars onTrue
  obtain ⟨-, rfl, rfl⟩ := measure_run hfalseEmits rfl rfl hfalse
  obtain ⟨-, rfl, rfl⟩ := measure_run htrueEmits rfl rfl htrue
  obtain rfl := hE.cjump_run hbranch
  obtain rfl := hE.jump_run hjump
  obtain rfl := hfalseEmits.run helse rfl rfl
  obtain rfl := htrueEmits.run hthen rfl rfl
  have hlength : ∀ offset, Instruction.totalLength (E.jump offset) = C.jumpLength := hE.jumpLength
  simp only [Draft.extend_position, Draft.append_position, hlength] at hsize
  refine ⟨{
    tested
    falseSize := _
    trueSize := _
    toTrue := _
    falseStop := _
    toStop := _
    stop := _
    run := hrun
    condition := by rw [hE.condition]; exact hcond
    measure_false := hfalse
    measure_true := htrue
    otherwise := helse
    block := hthen
    falseStop_position := Draft.extend_position _ _ _
    stop_position := Draft.extend_position _ _ _
    toTrue_eq := ?_
    toStop_eq := ?_ }, rfl⟩
  · simp only [Draft.extend_position, Draft.append_position, hlength]
    rw [Int32.toInt_ofNat_of_lt (by omega)]
    push_cast
    omega
  · simp only [Draft.extend_position, Draft.append_position]
    rw [Int32.toInt_ofNat_of_lt (by omega)]
    push_cast
    omega

theorem while_layout (hE : E.Follows G) {start stop : Draft} {cond : Expr} {body : List Stmt}
    (hrun : E.statement (.while cond body) start = .ok () stop) (hsize : stop.position < 2 ^ 31) :
    ∃ layout : E.While start cond body, layout.stop = stop := by
  have hsteps := hrun
  rw [hE.statement, G.while_eq, ← hE.block, G.loop_eq, Gen.get_bind] at hsteps
  obtain ⟨_, tested, hcond, hsteps⟩ := bind_ok_iff.mp hsteps
  obtain ⟨_, inverted, hinvert, hsteps⟩ := bind_ok_iff.mp hsteps
  obtain ⟨bodySize, d₁, hmeasure, hsteps⟩ := bind_ok_iff.mp hsteps
  obtain ⟨_, branched, hbranch, hsteps⟩ := bind_ok_iff.mp hsteps
  obtain ⟨_, bodyStop, hbody, hsteps⟩ := bind_ok_iff.mp hsteps
  rw [Gen.get_bind] at hsteps
  have hbodyEmits := hE.block_emits inverted.scope inverted.vars body
  obtain ⟨-, rfl, rfl⟩ := measure_run hbodyEmits rfl rfl hmeasure
  obtain rfl := hE.cjump_run hbranch
  obtain rfl := hbodyEmits.run hbody rfl rfl
  obtain rfl := hE.jump_run hsteps
  obtain rfl := (G.expr_emits _ _ cond).run hcond rfl rfl
  obtain rfl := (G.invert_emits _ _).run hinvert rfl rfl
  have hlength : ∀ offset, Instruction.totalLength (E.jump offset) = C.jumpLength := hE.jumpLength
  simp only [Draft.extend_position, Draft.append_position, hlength] at hsize
  refine ⟨{
    tested := _
    inverted := _
    bodySize := _
    toStop := _
    bodyStop := _
    toStart := _
    stop := _
    run := hrun
    condition := by rw [hE.condition]; exact hcond
    invert := by rw [hE.invert]; exact hinvert
    measure_body := hmeasure
    block := hbody
    bodyStop_position := Draft.extend_position _ _ _
    stop_eq := rfl
    toStop_eq := ?_
    toStart_eq := ?_ }, rfl⟩
  · simp only [Draft.extend_position, Draft.append_position, hlength]
    rw [Int32.toInt_ofNat_of_lt (by omega)]
    push_cast
    omega
  · simp only [Draft.extend_position, Draft.append_position, Draft.extend_size, Draft.append_size,
      hlength]
    rw [Int32.toInt_ofInt_of_le (by omega) (by omega)]
    push_cast
    omega

theorem block_code (hE : E.Follows G) {ss : List Stmt} {d d' : Draft}
    (h : E.block ss d = .ok () d') : d.code.toList <+: d'.code.toList := by
  obtain rfl := (hE.block_emits _ _ ss).run h rfl rfl
  exact Draft.code_extend _ _ _

/-- The code of a block is that of its statements. -/
theorem statements_of_block (hE : E.Follows G) {ss : List Stmt} {d d' : Draft}
    (h : E.block ss d = .ok () d') :
    ∃ last, G.statements ss d = .ok () last ∧ last.code = d'.code := by
  rw [hE.block, Gen.inBlock] at h
  cases hrun : G.statements ss d with
  | error e last => rw [hrun] at h; cases h
  | ok u last =>
      rw [hrun] at h
      obtain ⟨-, rfl⟩ := EStateM.Result.ok.inj h
      exact ⟨last, rfl, rfl⟩

/-- A statement that the generator comes to is compiled, and its code stays. -/
theorem visits_run (hE : E.Follows G) {body : List Instruction} {first start : Draft}
    {ss : List Stmt} {s : Stmt} (h : E.Visits first ss start s) {last : Draft}
    (hrun : G.statements ss first = .ok () last) (hlast : last.code.toList <+: body) :
    ∃ stop, E.statement s start = .ok () stop ∧ stop.code.toList <+: body := by
  -- a visited statement is the first, or it is visited from the draft of a nested block on
  have hhead : ∀ {first last : Draft} {r : Stmt} {rs : List Stmt},
      G.statements (r :: rs) first = .ok () last → last.code.toList <+: body →
      ∃ mid, E.statement r first = .ok () mid ∧ mid.code.toList <+: body ∧
        G.statements rs mid = .ok () last := by
    intro first last r rs hrun hlast
    rw [G.cons_eq] at hrun
    obtain ⟨_, mid, hfirst, hrest⟩ := bind_ok_iff.mp hrun
    rw [hE.statement]
    refine ⟨mid, hfirst, ?_, hrest⟩
    obtain rfl := (G.statements_emits rs _).run hrest rfl rfl
    exact (Draft.code_extend _ _ _).trans hlast
  induction h generalizing last with
  | here =>
      obtain ⟨mid, hmid, hcode, -⟩ := hhead hrun hlast
      exact ⟨mid, hmid, hcode⟩
  | next run rest ih =>
      obtain ⟨mid, hmid, -, hrest⟩ := hhead hrun hlast
      obtain ⟨-, rfl⟩ := EStateM.Result.ok.inj (run.symm.trans hmid)
      exact ih hrest hlast
  | onTrue layout inside ih =>
      obtain ⟨mid, hmid, hcode, -⟩ := hhead hrun hlast
      obtain ⟨-, rfl⟩ := EStateM.Result.ok.inj (layout.run.symm.trans hmid)
      obtain ⟨stop, hblock, hstop⟩ := hE.statements_of_block layout.block
      exact ih hblock (hstop ▸ hcode)
  | onFalse layout inside ih =>
      obtain ⟨mid, hmid, hcode, -⟩ := hhead hrun hlast
      obtain ⟨-, rfl⟩ := EStateM.Result.ok.inj (layout.run.symm.trans hmid)
      obtain ⟨stop, hblock, hstop⟩ := hE.statements_of_block layout.otherwise
      refine ih hblock (hstop ▸ ?_)
      exact ((Draft.code_append _ _).trans (hE.block_code layout.block)).trans hcode
  | body layout inside ih =>
      obtain ⟨mid, hmid, hcode, -⟩ := hhead hrun hlast
      obtain ⟨-, rfl⟩ := EStateM.Result.ok.inj (layout.run.symm.trans hmid)
      obtain ⟨stop, hblock, hstop⟩ := hE.statements_of_block layout.block
      refine ih hblock (hstop ▸ ?_)
      rw [layout.stop_eq] at hcode
      exact (Draft.code_append _ _).trans hcode

variable {scope : Scope} {d : Definition} {f : CompiledFunction}

theorem position_lt {draft : Draft} {code : List Instruction} (h : draft.code.toList <+: code)
    (hsize : Instruction.totalLength code < 2 ^ 31) : draft.position < 2 ^ 31 := by
  obtain ⟨rest, rfl⟩ := h
  rw [Instruction.totalLength_append] at hsize
  exact Nat.lt_of_le_of_lt (Nat.le_add_right _ _) hsize

/-- What a block is measured at is what it takes. -/
theorem block_of_measure (hE : E.Follows G) {ss : List Stmt} {draft draft' : Draft} {n : Nat}
    (h : Gen.measure (E.block ss) draft = .ok n draft') :
    draft' = draft ∧ ∀ later : Draft, later.scope = draft.scope → later.vars = draft.vars →
      ∃ done, E.block ss later = .ok () done ∧ done.position = later.position + n := by
  have hemits := hE.block_emits draft.scope draft.vars ss
  obtain ⟨hfits, rfl, rfl⟩ := measure_run hemits rfl rfl h
  refine ⟨rfl, fun later hscope hvars => ⟨_, ?_, Draft.extend_position _ _ draft.vars⟩⟩
  exact (hemits later hscope hvars () _).mpr ⟨hfits, rfl, rfl⟩

/-- The statements that a function's body visits are compiled into its code. -/
theorem visits_compiled (hE : E.Follows G) (h : E.backend.compileFunction scope d = .ok f)
    {ss : List Stmt} (hd : d.body = .block ss) {start : Draft} {s : Stmt}
    (hvisits : E.Visits (.opened scope d) ss start s) :
    ∃ stop, E.statement s start = .ok () stop ∧ stop.code.toList <+: f.body := by
  obtain ⟨⟨-, hfits⟩, rfl⟩ := (G.compileFunction_ok hE.compileBody).mp h
  rw [hd, Pieces.BodyFits] at hfits
  refine hE.visits_run hvisits
    ((G.statements_emits ss d.args (.opened scope d) rfl rfl () _).mpr ⟨hfits, rfl, rfl⟩) ?_
  rw [hd, Pieces.body, List.append_assoc, List.map_append]
  simp [Draft.extend, Draft.opened]

end Emitter.Follows

/-! ## The machines -/

section

variable {ι : Type} [InstructionSet ι] {E : Emitter} {P : ι → Prop} {lines : List (Line ι)}

theorem Emitter.plain_of_each (hP : ∀ i, P i → InstructionSet.descriptor i ∉ E.branches)
    (hcall : InstructionSet.callDescriptor ι ∉ E.branches) (h : Line.Each P lines) :
    E.Plain (lines.map Line.symbolic) := by
  intro i hi
  obtain ⟨l, hl, rfl⟩ := List.mem_map.mp hi
  cases l with
  | plain i =>
      rw [Line.symbolic, InstructionSet.descriptor_symbolic]
      exact hP i (h i hl)
  | call name => exact hcall

end

namespace RegisterCode

theorem Straight.descriptor_not_mem {i : Register.Instr} (h : Straight i) (file : File) :
    i.op.descriptor ∉ (emitter file).branches := by
  have hop : ∀ op : Register.Op, op ≠ .jump → op ≠ .cjump →
      op.descriptor ∉ [Register.Op.descriptor .jump, Register.Op.descriptor .cjump] := by
    intro op
    cases op with
    | alu op => cases op <;> decide
    | _ => decide
  exact hop i.op h.2.1 h.2.2

theorem emitter_follows (file : File) : (emitter file).Follows (generator file) := by
  have hsingle : ∀ {code offset}, (emitter file).Branch code offset → ∃ i, code = [i] := by
    rintro code offset (rfl | rfl) <;> exact ⟨_, rfl⟩
  have htail : ∀ {i}, ¬(emitter file).Tail i := by
    rintro i ⟨code, offset, hbranch, hi⟩
    obtain ⟨j, rfl⟩ := hsingle hbranch
    cases hi
  have hcall : Register.Op.descriptor .call ∉
      [Register.Op.descriptor .jump, Register.Op.descriptor .cjump] := by decide
  have hplain : ∀ {lines : List (Line Register.Instr)}, Line.Each Straight lines →
      (emitter file).Plain (lines.map Line.symbolic) :=
    Emitter.plain_of_each (fun i hi => hi.descriptor_not_mem file) hcall
  exact {
    last := fun h => by
      obtain ⟨i, rfl⟩ := hsingle h
      exact ⟨[], i, rfl, fun j hj => by cases hj⟩
    tail := fun h => absurd h htail
    starts := fun _ _ _ => htail
    compileBody := rfl
    statement := rfl
    block := fun _ => rfl
    condition := rfl
    invert := rfl
    jump := fun _ => rfl
    cjump := fun _ => rfl
    jumpLength := fun _ => rfl
    expr_plain := fun _ _ e => hplain (exprCode_each e 0)
    store_plain := fun _ => hplain (Line.Each.ofCode_iff.mpr storeCode_straight)
    ret_plain := hplain (by simp [pieces, Straight, Register.Instr.op])
    zero_plain := hplain (by simp [pieces, Straight, Register.Instr.op])
    invert_plain := hplain (Line.Each.ofCode_iff.mpr invertCode_straight)
    ret_ne_nil := by simp [pieces] }

end RegisterCode

namespace StackCode

theorem Straight.descriptor_not_mem {i : Stack.Instr} (h : Straight i) :
    i.op.descriptor ∉ emitter.branches := by
  have hop : ∀ op : Stack.Op, op ≠ .jump → op ≠ .cjump → op.descriptor ∉ emitter.branches := by
    intro op
    cases op with
    | alu op => cases op <;> decide
    | _ => decide
  exact hop i.op h.2.1 h.2.2

theorem emitter_follows : emitter.Follows generator := by
  -- a push, then the branch
  have hcode : ∀ {code offset}, emitter.Branch code offset →
      ∃ i, code = [Stack.Instr.toInstruction (.push offset), i] ∧
        i.descriptor ∈ emitter.branches := by
    rintro code offset (rfl | rfl)
    · exact ⟨_, rfl, by decide⟩
    · exact ⟨_, rfl, by decide⟩
  have hpush : ∀ offset, (Stack.Instr.toInstruction (.push offset)).descriptor ∉ emitter.branches :=
    fun offset =>
      Straight.descriptor_not_mem (i := .push offset) (by simp [Straight, Stack.Instr.op])
  have htail : ∀ {i}, emitter.Tail i → i.descriptor ∈ emitter.branches := by
    rintro i ⟨code, offset, hbranch, hi⟩
    obtain ⟨j, rfl, hj⟩ := hcode hbranch
    rwa [List.mem_singleton.mp hi]
  have hplain : ∀ {lines : List (Line Stack.Instr)}, Line.Each Straight lines →
      emitter.Plain (lines.map Line.symbolic) :=
    Emitter.plain_of_each (fun i hi => hi.descriptor_not_mem) (by decide)
  exact {
    last := fun {code offset} h => by
      obtain ⟨i, rfl, -⟩ := hcode h
      exact ⟨[_], i, rfl, List.forall_mem_singleton.mpr (hpush offset)⟩
    tail := htail
    starts := fun {code offset} h i hi htail' => by
      obtain ⟨j, rfl, -⟩ := hcode h
      obtain rfl := Option.some.inj hi
      exact hpush offset (htail htail')
    compileBody := rfl
    statement := rfl
    block := fun _ => rfl
    condition := rfl
    invert := rfl
    jump := fun _ => rfl
    cjump := fun _ => rfl
    jumpLength := fun _ => rfl
    expr_plain := fun _ _ e => hplain (exprCode_each e)
    store_plain := fun _ => hplain (Line.Each.ofCode_iff.mpr storeCode_straight)
    ret_plain := hplain (by simp [pieces, Straight, Stack.Instr.op])
    zero_plain := hplain (by simp [pieces, Straight, Stack.Instr.op])
    invert_plain := hplain (Line.Each.ofCode_iff.mpr invertCode_straight)
    ret_ne_nil := by simp [pieces] }

end StackCode

theorem Emitter.Provided.follows {E : Emitter} (h : E.Provided) :
    ∃ (ι : Type) (_ : InstructionSet ι) (C : Pieces ι) (G : Generator C), E.Follows G := by
  cases h with
  | register file => exact ⟨_, _, _, _, RegisterCode.emitter_follows file⟩
  | stack => exact ⟨_, _, _, _, StackCode.emitter_follows⟩

/-- What is measured is what is emitted, and branches stay put. For every function that a backend
accepts with a body of less than 2 ^ 31 bytes:

* a block that is measured takes as many bytes wherever it is compiled later;
* a branch in the body leads to an instruction of the body, and not to one inside the code of a
  branch;
* in the code of an `if`, the branch leads to the code for other values than zero and the jump past
  it, and in that of a `while`, the branch leads past the jump and the jump to the condition. -/
theorem branches_placed {E : Emitter} (hE : E.Provided) {scope : Scope} {d : Definition}
    {f : CompiledFunction} (h : E.backend.compileFunction scope d = .ok f)
    (hsize : f.length < 2 ^ 31) :
    (∀ ss draft n draft', Gen.measure (E.block ss) draft = .ok n draft' →
      draft' = draft ∧ ∀ later : Draft, later.scope = draft.scope → later.vars = draft.vars →
        ∃ done, E.block ss later = .ok () done ∧ done.position = later.position + n) ∧
    (∀ front i rest, f.body = front ++ i :: rest → i.descriptor ∈ E.branches →
      ∃ before after, E.Leads f.body (front ++ [i]) before after ∧ after ≠ [] ∧
        ¬E.Straddles before after) ∧
    ∀ ss, d.body = .block ss → ∀ start,
      (∀ cond onTrue onFalse,
        E.Visits (.opened scope d) ss start (.if cond onTrue onFalse) →
          ∃ layout : E.If start cond onTrue onFalse, layout.stop.code.toList <+: f.body) ∧
      ∀ cond body, E.Visits (.opened scope d) ss start (.while cond body) →
        ∃ layout : E.While start cond body, layout.stop.code.toList <+: f.body := by
  obtain ⟨ι, _, C, G, hF⟩ := hE.follows
  refine ⟨fun ss draft n draft' hmeasure => hF.block_of_measure hmeasure, ?_, ?_⟩
  · intro front i rest hbody hi
    obtain ⟨-, rfl⟩ := (G.compileFunction_ok hF.compileBody).mp h
    rw [CompiledFunction.length, Line.totalLength_symbolic] at hsize
    exact hF.body_lands hsize hbody hi
  · intro ss hd start
    refine ⟨fun cond onTrue onFalse hvisits => ?_, fun cond body hvisits => ?_⟩
    · obtain ⟨stop, hrun, hcode⟩ := hF.visits_compiled h hd hvisits
      obtain ⟨layout, rfl⟩ := hF.if_layout hrun (Emitter.Follows.position_lt hcode hsize)
      exact ⟨layout, hcode⟩
    · obtain ⟨stop, hrun, hcode⟩ := hF.visits_compiled h hd hvisits
      obtain ⟨layout, rfl⟩ := hF.while_layout hrun (Emitter.Follows.position_lt hcode hsize)
      exact ⟨layout, hcode⟩

/-- A branch in a loop. -/
def guarded : Definition :=
  ⟨"f", ["x"], .block [.while (.identifier "x")
    [.if (.identifier "x") [.assign "x" (.number 0)] none]]⟩

def guardedCode : CompiledFunction :=
  (StackCode.backend.compileFunction .root guarded).toOption.getD default

/-- The loop is laid out, and the jump of the branch inside it leads on. -/
theorem branches_placed_guarded :
    StackCode.emitter.backend.compileFunction .root guarded = .ok guardedCode ∧
    guardedCode.length = 74 ∧
    (∃ layout : StackCode.emitter.While (.opened .root guarded) (.identifier "x")
        [.if (.identifier "x") [.assign "x" (.number 0)] none],
      layout.stop.code.toList <+: guardedCode.body) ∧
    ∃ before after, StackCode.emitter.Leads guardedCode.body
        (guardedCode.body.take 13 ++ [Stack.Instr.toInstruction .jump]) before after ∧
      after ≠ [] ∧ ¬StackCode.emitter.Straddles before after := by
  have hcompile : StackCode.emitter.backend.compileFunction .root guarded = .ok guardedCode := by
    decide +kernel
  have hlength : guardedCode.length = 74 := by decide +kernel
  obtain ⟨-, hbranches, hlayout⟩ := branches_placed .stack hcompile (by rw [hlength]; decide)
  refine ⟨hcompile, hlength, (hlayout _ rfl _).2 _ _ .here, ?_⟩
  have hbody : guardedCode.body = guardedCode.body.take 13
      ++ Stack.Instr.toInstruction .jump :: guardedCode.body.drop 14 := by decide +kernel
  exact hbranches _ _ _ hbody (by decide)

end DualMachine
