import DualMachine.Proofs.Annotations
import DualMachine.Proofs.Branches
import DualMachine.Proofs.Faults
import DualMachine.Proofs.Safety

/-!
# Heights of the operand stack

How many values an activation has on the stack can be read off the code by going through it once
from the first byte to the last (`StackCode.known`): every expression adds one value and every
statement leaves none, so that code which is only jumped to finds what the code before it leaves.
What is read off so is an annotation of the program (`StackCode.annotated`) and holds of all its
runs. Statements begin and end where nothing is known to be on the stack (`Continues.visits`).
Together these give every offset its height (`operand_heights`).
-/

namespace DualMachine.StackCode

open Source
open Stack (Instr)

/-! ## Going through the code -/

/-- What is known of the stack after an instruction, if execution goes on there. After a return or a
halt the code of another statement or function begins. -/
def scan : Instr → List (Option Word) → List (Option Word)
  | .push w, known => some w :: known
  | .pop, known | .jump, known => known.drop 1
  | .not, known => none :: known.drop 1
  | .alu _, known | .load, known => none :: known.drop 2
  | .cjump, known => known.drop 2
  | .store, known => known.drop 3
  | .dup, known => known.head?.join :: known
  | .swap, known => (known.take 2).reverse ++ known.drop 2
  | .call _, known => none :: known
  | .ret, _ | .halt, _ => []

/-- What is known at a position, from what is known at the first. -/
def knownFrom (known : List (Option Word)) : List Instr → Nat → List (Option Word)
  | [], _ => known
  | i :: code, pc => if pc = 0 then known else knownFrom (scan i known) code (pc - width i)

theorem knownFrom_codeLength (before after : List Instr) (known : List (Option Word)) :
    knownFrom known (before ++ after) (codeLength before)
      = before.foldl (fun known i => scan i known) known := by
  induction before generalizing known with
  | nil => cases after <;> rfl
  | cons i before ih =>
      have hpos := width_pos i
      rw [List.cons_append, knownFrom, codeLength_cons, if_neg (by omega), Nat.add_sub_cancel_left,
        ih, List.foldl_cons]

theorem knownFrom_next {code : List Instr} {pc : Nat} {i : Instr} (h : CodeAt code pc [i])
    (known : List (Option Word)) :
    knownFrom known code (pc + width i) = scan i (knownFrom known code pc) := by
  obtain ⟨before, after, rfl, rfl⟩ := h
  have hnext := knownFrom_codeLength (before ++ [i]) after known
  rw [codeLength_append, codeLength_cons, codeLength_nil, Nat.add_zero, List.foldl_append] at hnext
  rw [hnext, List.append_assoc, knownFrom_codeLength]
  rfl

variable (L : Linked pieces)

/-- What is known at a position of a program. -/
def known (pc : Nat) : List (Option Word) := knownFrom [] L.code pc

theorem known_zero : known L 0 = [] := by
  rw [known]
  cases L.code <;> rfl

/-- Lines that lead from one knowledge to another. -/
def Leaves (lines : List (Line Instr)) (before after : List (Option Word)) : Prop :=
  ∀ pc, L.Placed pc lines → known L pc = before → known L (pc + Line.length lines) = after

/-- The instructions that begin from one position up to another are explained. -/
def Explained (start stop : Nat) : Prop :=
  ∀ pc i, start ≤ pc → pc < stop → CodeAt L.code pc [i] → L.Explains analysis (known L) pc i

/-- Lines that lead from one knowledge to another, and all of whose instructions are explained. -/
structure Passes (lines : List (Line Instr)) (before after : List (Option Word)) : Prop where
  leaves : Leaves L lines before after
  explained : ∀ pc, L.Placed pc lines → known L pc = before →
    Explained L pc (pc + Line.length lines)

variable {L} {pc start mid stop : Nat} {i : Instr} {k k' k'' : List (Option Word)}
  {a b cond : List (Line Instr)}

theorem Explained.append (h : Explained L start mid) (h' : Explained L mid stop) :
    Explained L start stop := by
  intro pc i hle hlt hi
  rcases Nat.lt_or_ge pc mid with hpc | hpc
  · exact h pc i hle hpc hi
  · exact h' pc i hpc hlt hi

theorem known_next (hcode : CodeAt L.code pc [i]) :
    known L (pc + width i) = scan i (known L pc) := knownFrom_next hcode []

/-- One instruction, where it is known what it does. -/
theorem explained_one (hcode : CodeAt L.code pc [i]) (hk : known L pc = k)
    {e : Effect (List (Option Word))} (hdoes : Does i k e)
    (hagrees : known L (pc + width i) = scan i k →
      L.Agrees analysis (known L) k (pc + width i) e) : Explained L pc (pc + width i) := by
  intro o j hle hlt hj
  obtain ⟨rfl, rfl⟩ := hcode.unique hj hle hlt
  subst hk
  exact ⟨e, hdoes, hagrees (known_next hcode)⟩

namespace Leaves

theorem append (ha : Leaves L a k k') (hb : Leaves L b k' k'') : Leaves L (a ++ b) k k'' := by
  intro pc hplaced hk
  rw [Line.length_append, ← Nat.add_assoc]
  exact hb _ hplaced.right (ha pc hplaced.left hk)

theorem one (i : Instr) : Leaves L (Line.ofCode [i]) k (scan i k) := by
  intro pc hplaced hk
  rw [Line.length_ofCode, codeLength_cons, codeLength_nil, Nat.add_zero, known_next hplaced.ofCode,
    hk]

theorem jump (offset : Word) : Leaves L (Line.ofCode (pieces.jump offset)) k k :=
  (one (.push offset)).append (one .jump)

theorem cjump (offset : Word) (x : Option Word) :
    Leaves L (Line.ofCode (pieces.cjump offset)) (x :: k) k :=
  (one (.push offset)).append (one .cjump)

end Leaves

namespace Passes

theorem nil : Passes L [] k k where
  leaves _ _ hk := hk
  explained _ _ _ _ _ hle hlt := absurd hlt (Nat.not_lt.mpr hle)

theorem append (ha : Passes L a k k') (hb : Passes L b k' k'') : Passes L (a ++ b) k k'' where
  leaves := ha.leaves.append hb.leaves
  explained pc hplaced hk := by
    rw [Line.length_append, ← Nat.add_assoc]
    exact (ha.explained pc hplaced.left hk).append
      (hb.explained _ hplaced.right (ha.leaves pc hplaced.left hk))

/-- One instruction that goes on to the next. -/
theorem one {e : Effect (List (Option Word))} (hdoes : Does i k e)
    (hagrees : ∀ stop, known L stop = scan i k → L.Agrees analysis (known L) k stop e) :
    Passes L (Line.ofCode [i]) k (scan i k) where
  leaves := .one i
  explained pc hplaced hk := by
    rw [Line.length_ofCode, codeLength_cons, codeLength_nil, Nat.add_zero]
    exact explained_one hplaced.ofCode hk hdoes (hagrees _)

theorem push (w : Word) : Passes L (Line.ofCode [Instr.push w]) k (some w :: k) :=
  one .push fun _ h => h

theorem alu (op : Alu) (x y : Option Word) :
    Passes L (Line.ofCode [Instr.alu op]) (x :: y :: k) (none :: k) :=
  one .alu fun _ h => h

theorem ret (x : Option Word) : Passes L (Line.ofCode [Instr.ret]) [x] [] :=
  one .ret fun _ _ => trivial

theorem load (slot : Nat) : Passes L (Line.ofCode (loadCode slot)) k (none :: k) :=
  (push (Int32.ofNat slot)).append ((push 0).append (one .load fun _ h => h))

theorem store (slot : Nat) (x : Option Word) :
    Passes L (Line.ofCode (storeCode slot)) (x :: k) k :=
  (push (Int32.ofNat slot)).append ((push 0).append (one .store fun _ h => h))

theorem constant_alu (w : Word) (op : Alu) (x : Option Word) :
    Passes L (Line.ofCode [Instr.push w, .alu op]) (x :: k) (none :: k) :=
  (push w).append (alu op (some w) x)

theorem invert (x : Option Word) : Passes L (Line.ofCode pieces.invert) (x :: k) (none :: k) :=
  constant_alu 0 .eq x

theorem unary (op : UnaryOp) (x : Option Word) :
    Passes L (Line.ofCode (unaryCode op)) (x :: k) (none :: k) := by
  cases op with
  | neg => exact constant_alu 0 .sub x
  | not => exact invert x

theorem binary (op : BinaryOp) (x y : Option Word) :
    Passes L (Line.ofCode (binaryCode op)) (x :: y :: k) (none :: k) := by
  refine (alu op.lowered.1 x y).append ?_
  cases op.lowered.2 with
  | true => exact invert none
  | false => exact nil

theorem pass (values : List (Option Word)) :
    Passes L (Line.ofCode (passCode values.length)) (values ++ k) k := by
  induction values with
  | nil => exact nil
  | cons x values ih =>
      rw [List.length_cons, passCode_succ, Line.ofCode_append]
      exact (store _ x).append ih

/-- A call adds the value that it returns with. -/
theorem call (name : String) : Passes L [.call name] k (none :: k) where
  leaves pc hplaced hk := by
    obtain ⟨address, -, -, hcode, hwidth⟩ := Linked.code_of_call hplaced
    rw [← hwidth, known_next hcode, hk]
    rfl
  explained pc hplaced hk := by
    obtain ⟨address, haddress, htarget, hcode, hwidth⟩ := Linked.code_of_call hplaced
    rw [← hwidth]
    exact explained_one hcode hk .call fun h => ⟨h, name, address, haddress, htarget⟩

end Passes

/-! ## Expressions -/

variable {scope : Scope} {vars : List String}

mutual

/-- An expression adds one value. -/
theorem expr_passes : ∀ (e : Expr) (k : List (Option Word)),
    ∃ x, Passes L (exprCode scope vars e) k (x :: k)
  | .number n, k => by
      rw [exprCode]
      exact ⟨_, .push n⟩
  | .boolean b, k => by
      rw [exprCode]
      exact ⟨_, .push (Word.ofBool b)⟩
  | .identifier x, k => by
      rw [exprCode]
      exact ⟨_, .load (vars.idxOf x)⟩
  | .paren inner, k => by
      rw [exprCode]
      exact expr_passes inner k
  | .unary op operand, k => by
      rw [exprCode]
      obtain ⟨x, hoperand⟩ := expr_passes operand k
      exact ⟨_, hoperand.append (.unary op x)⟩
  | .binary op left right, k => by
      rw [exprCode]
      obtain ⟨y, hright⟩ := expr_passes right k
      obtain ⟨x, hleft⟩ := expr_passes left (y :: k)
      exact ⟨_, (hright.append hleft).append (.binary op x y)⟩
  | .call f args, k => by
      rw [exprCode]
      obtain ⟨values, hlength, hargs⟩ := exprs_passes args k
      rw [← hlength]
      exact ⟨_, hargs.append ((Passes.pass values).append (.call _))⟩

theorem exprs_passes : ∀ (es : List Expr) (k : List (Option Word)),
    ∃ values, values.length = es.length ∧ Passes L (exprsCode scope vars es) k (values ++ k)
  | [], k => by
      rw [exprsCode]
      exact ⟨[], rfl, .nil⟩
  | e :: es, k => by
      rw [exprsCode]
      obtain ⟨x, hfirst⟩ := expr_passes e k
      obtain ⟨values, hlength, hrest⟩ := exprs_passes es (x :: k)
      refine ⟨values ++ [x], by simp [hlength], ?_⟩
      rw [List.append_assoc]
      exact hfirst.append hrest

end

/-! ## Branches -/

section

variable {offset : Word} {target : Nat} {x : Option Word}

/-- A constant is pushed for an instruction of which it is known what it does. -/
theorem explained_pushed (hcode : CodeAt L.code pc [.push offset, i]) (hk : known L pc = k)
    {e : Effect (List (Option Word))} (hdoes : Does i (some offset :: k) e)
    (hagrees : known L (pc + codeLength [.push offset, i]) = scan i (some offset :: k) →
      L.Agrees analysis (known L) (some offset :: k) (pc + codeLength [.push offset, i]) e) :
    Explained L pc (pc + codeLength [.push offset, i]) := by
  rw [codeLength_pushed, Line.length_ofCode, codeLength_cons, codeLength_nil, Nat.add_zero]
    at hagrees ⊢
  have hpushed : known L (pc + width (Instr.push offset)) = some offset :: k := by
    rw [known_next hcode.head, hk]
    rfl
  exact (explained_one hcode.head hk .push fun h => h).append
    (explained_one hcode.tail hpushed hdoes hagrees)

/-- A jump to where nothing is on the stack either. -/
theorem explained_jump (hplaced : L.Placed pc (Line.ofCode (pieces.jump offset)))
    (hk : known L pc = [])
    (htarget : (target : Int) = (pc + codeLength (pieces.jump offset) : Nat) + offset.toInt)
    (hedge : CodeAt L.code target []) (hland : known L target = []) :
    Explained L pc (pc + codeLength (pieces.jump offset)) :=
  explained_pushed hplaced.ofCode hk .jump fun _ => ⟨target, htarget, hedge, hland⟩

/-- A branch that takes the only value there is. -/
theorem explained_cjump (hplaced : L.Placed pc (Line.ofCode (pieces.cjump offset)))
    (hk : known L pc = [x])
    (htarget : (target : Int) = (pc + codeLength (pieces.cjump offset) : Nat) + offset.toInt)
    (hedge : CodeAt L.code target []) (hland : known L target = []) :
    Explained L pc (pc + codeLength (pieces.cjump offset)) :=
  explained_pushed hplaced.ofCode hk .cjump fun hstay => ⟨hstay, target, htarget, hedge, hland⟩

/-- The code for zero is come to with nothing on the stack, -/
theorem Passes.tested (hcond : Passes L cond [] [x]) (offset : Word) :
    Leaves L (cond ++ Line.ofCode (pieces.cjump offset)) [] [] :=
  hcond.leaves.append (.cjump offset x)

/-- and so is the code for other values, which stands after it. -/
theorem Passes.joined (hcond : Passes L cond [] [x]) (hb : Passes L b [] [])
    (offset offset' : Word) :
    Leaves L (cond ++ Line.ofCode (pieces.cjump offset) ++ b
      ++ Line.ofCode (pieces.jump offset')) [] [] :=
  ((hcond.tested offset).append hb.leaves).append (.jump offset')

theorem Passes.conditional (hcond : Passes L cond [] [x]) (ha : Passes L a [] [])
    (hb : Passes L b [] []) : Passes L (pieces.conditional cond a b) [] [] := by
  have hleaves : Leaves L (pieces.conditional cond a b) [] [] :=
    (hcond.joined hb _ _).append ha.leaves
  refine ⟨hleaves, fun pc hplaced hk => ?_⟩
  have hend := hplaced.end_le
  have hsmall := L.small
  have hlast := hplaced.edge_end
  have hdone := hleaves pc hplaced hk
  rw [Pieces.conditional] at hplaced hend hlast hdone ⊢
  have hplacedCond := hplaced.left.left.left.left
  have hplacedCjump := hplaced.left.left.left.right
  have hplacedFalse := hplaced.left.left.right
  have hplacedJump := hplaced.left.right
  have hplacedTrue := hplaced.right
  have hvalue := hcond.leaves pc hplacedCond hk
  have htested := hcond.tested _ pc hplaced.left.left.left hk
  have hfalse := hb.leaves _ hplacedFalse htested
  have hjoined := hcond.joined hb _ _ pc hplaced.left hk
  simp only [Line.length_append, Line.length_ofCode, ← Nat.add_assoc]
    at hplacedFalse hplacedJump hplacedTrue hend hlast hdone htested hfalse hjoined ⊢
  have hjumpLength : codeLength (pieces.jump (Int32.ofNat (Line.length a))) = pieces.jumpLength :=
    rfl
  have hfalseOffset : (Int32.ofNat (Line.length b + pieces.jumpLength)).toInt
      = (Line.length b + pieces.jumpLength : Nat) := Int32.toInt_ofNat_of_lt (by omega)
  have htrueOffset : (Int32.ofNat (Line.length a)).toInt = (Line.length a : Nat) :=
    Int32.toInt_ofNat_of_lt (by omega)
  have hcjump := explained_cjump hplacedCjump hvalue (by omega) hplacedTrue.code.edge hjoined
  have hjump := explained_jump hplacedJump hfalse (by omega) hlast hdone
  exact ((((hcond.explained pc hplacedCond hk).append hcjump).append
    (hb.explained _ hplacedFalse htested)).append hjump).append
    (ha.explained _ hplacedTrue hjoined)

theorem Passes.loop (hcond : Passes L cond [] [x]) (ha : Passes L a [] []) :
    Passes L (pieces.loop cond a) [] [] := by
  have hinverted := hcond.append (.invert x)
  have hleaves : Leaves L (pieces.loop cond a) [] [] :=
    ((hinverted.tested _).append ha.leaves).append (.jump _)
  refine ⟨hleaves, fun pc hplaced hk => ?_⟩
  have hend := hplaced.end_le
  have hsmall := L.small
  have hlast := hplaced.edge_end
  have hdone := hleaves pc hplaced hk
  rw [Pieces.loop] at hplaced hend hlast hdone ⊢
  have hplacedCond := hplaced.left.left.left
  have hplacedCjump := hplaced.left.left.right
  have hplacedBody := hplaced.left.right
  have hplacedJump := hplaced.right
  have hvalue := hinverted.leaves pc hplacedCond hk
  have htested := hinverted.tested _ pc hplaced.left.left hk
  have hlooped := ha.leaves _ hplacedBody htested
  simp only [Pieces.round, Line.length_append, Line.length_ofCode, ← Nat.add_assoc]
    at hplacedCjump hplacedBody hplacedJump hend hlast hdone hvalue htested hlooped ⊢
  have hjumpLength : ∀ offset, codeLength (pieces.jump offset) = pieces.jumpLength := fun _ => rfl
  have hexit : (Int32.ofNat (Line.length a + pieces.jumpLength)).toInt
      = (Line.length a + pieces.jumpLength : Nat) :=
    Int32.toInt_ofNat_of_lt (by rw [hjumpLength] at hend; omega)
  -- the jump back goes over code of the program, so its offset is a word
  have hback := Int32.toInt_ofInt_of_le
    (n := -(Line.length cond + codeLength pieces.invert
      + codeLength (pieces.cjump (Int32.ofNat (Line.length a + pieces.jumpLength)))
      + Line.length a + pieces.jumpLength : Nat))
    (by rw [hjumpLength] at hend; omega) (by omega)
  have hcjump := explained_cjump hplacedCjump hvalue (by rw [hjumpLength]; omega) hlast hdone
  have hjump := explained_jump hplacedJump hlooped (by rw [hjumpLength]; omega)
    hplaced.code.edge hk
  have hround := hinverted.explained pc hplacedCond hk
  rw [Line.length_append, Line.length_ofCode, ← Nat.add_assoc] at hround
  exact ((hround.append hcjump).append (ha.explained _ hplacedBody htested)).append hjump

end

/-! ## Statements and functions -/

/-- The value of an expression in a statement is the only one there is. -/
theorem value_passes (scope : Scope) (vars : List String) (e : Expr) :
    ∃ w, Passes L (pieces.expr scope vars e) [] [w] := expr_passes e []

mutual

/-- A statement leaves nothing on the stack. -/
theorem statement_passes : ∀ (s : Stmt) (vars : List String),
    Passes L (pieces.statement scope vars s) [] []
  | .var x value, vars => by
      obtain ⟨w, hvalue⟩ := value_passes (L := L) scope vars value
      rw [Pieces.statement]
      exact hvalue.append (.store _ w)
  | .assign x value, vars => by
      obtain ⟨w, hvalue⟩ := value_passes (L := L) scope vars value
      rw [Pieces.statement]
      exact hvalue.append (.store _ w)
  | .return value, vars => by
      obtain ⟨w, hvalue⟩ := value_passes (L := L) scope vars value
      rw [Pieces.statement]
      exact hvalue.append (.ret w)
  | .if cond onTrue none, vars => by
      obtain ⟨w, hcond⟩ := value_passes (L := L) scope vars cond
      rw [Pieces.statement]
      exact .conditional hcond (statements_passes onTrue vars) .nil
  | .if cond onTrue (some onFalse), vars => by
      obtain ⟨w, hcond⟩ := value_passes (L := L) scope vars cond
      rw [Pieces.statement]
      exact .conditional hcond (statements_passes onTrue vars) (statements_passes onFalse vars)
  | .while cond body, vars => by
      obtain ⟨w, hcond⟩ := value_passes (L := L) scope vars cond
      rw [Pieces.statement]
      exact .loop hcond (statements_passes body vars)

theorem statements_passes : ∀ (ss : List Stmt) (vars : List String),
    Passes L (pieces.statements scope vars ss) [] []
  | [], vars => by
      rw [Pieces.statements]
      exact .nil
  | s :: ss, vars => by
      rw [Pieces.statements]
      exact (statement_passes s vars).append (statements_passes ss (s.declared vars))

end

theorem body_passes (body : Body) : Passes L (pieces.body scope vars body) [] [] := by
  cases body with
  | block ss =>
      rw [Pieces.body]
      exact ((statements_passes ss vars).append (.push 0)).append (.ret _)
  | expression value =>
      obtain ⟨w, hvalue⟩ := value_passes (L := L) scope vars value
      rw [Pieces.body]
      exact hvalue.append (.ret w)

theorem program_passes (entry : String) (us : List (Scope × Definition)) :
    Passes L (target.programLines entry us) [] [] := by
  have hhalt : Passes L (Line.ofCode [Instr.halt]) [none] [] := .one .halt fun _ _ => trivial
  refine ((Passes.call entry).append hhalt).append ?_
  induction us with
  | nil => exact .nil
  | cons u us ih =>
      rw [List.flatMap_cons]
      exact (body_passes u.2.body).append ih

/-- What is read off the code of a session's program is an annotation of it. -/
theorem annotated {entry : String} {functions : List CompiledFunction} {program : Program}
    {us : List (Scope × Definition)} (h : target.Layout entry functions program L us) :
    L.Annotated analysis (known L) where
  start := known_zero L
  entry name address haddress := by
    obtain ⟨vs, u, ws, rfl, -, rfl⟩ := h.address name address haddress
    have hplaced := h.placed
    rw [Target.programLines_append] at hplaced
    have hleaves := (program_passes entry vs).leaves 0 hplaced.left (known_zero L)
    rwa [Nat.zero_add] at hleaves
  code pc i hcode := by
    refine (program_passes entry us).explained 0 h.placed (known_zero L) pc i (Nat.zero_le pc) ?_
      hcode
    have hend := hcode.end_le
    have hpos := width_pos i
    rw [codeLength_cons, codeLength_nil, h.length_eq] at hend
    omega

/-! ## States and instructions -/

/-- As many values as are known have been pushed in the activation. -/
theorem pushed_of_told {σ : Nat → State} {n o : Nat} (h : L.Told analysis (known L) σ n)
    (ho : Stack.table.Origin σ o n) :
    ∃ below pushed, (σ o).stack? = some below ∧ (σ n).stack? = some (pushed ++ below) ∧
      pushed.length = (known L (σ n).pc).length := by
  obtain ⟨pushed, below, hbefore, hnow, hknows⟩ := h.operands o ho
  refine ⟨below, pushed, ?_, ?_, hknows.length_eq.symm⟩
  · rw [State.stack?, hbefore]
  · rw [State.stack?, hnow]

/-- An instruction finds the operands that it pops, and a return finds one value. -/
theorem Does.pops_le {e : Effect (List (Option Word))} (h : Does i k e) :
    i.op.pops ≤ k.length ∧ (i.op = .ret → k.length = 1) := by
  cases h <;> simp [Instr.op, Stack.Op.pops]

/-! ## Boundaries of statements -/

theorem symbolic_injective : Function.Injective (Line.symbolic (ι := Instr)) :=
  Line.symbolic_injective (analysis_sound.bytes_injective fun _ _ => Operation.stack.inj)

/-- The draft goes on from another by code that leads from one knowledge to another. -/
def Continues (L : Linked pieces) (first start : Draft)
    (before after : List (Option Word)) : Prop :=
  ∃ lines vars, start = first.extend lines vars ∧ Leaves L lines before after

section

variable {first start stop : Draft} {s : Stmt} {ss : List Stmt}

namespace Continues

theorem refl (first : Draft) : Continues L first first k k :=
  ⟨[], _, (Gen.extend_nil _).symm, Passes.nil.leaves⟩

theorem trans (h : Continues L first start k k') (h' : Continues L start stop k' k'') :
    Continues L first stop k k'' := by
  obtain ⟨a, vars, rfl, ha⟩ := h
  obtain ⟨b, vars', rfl, hb⟩ := h'
  exact ⟨a ++ b, vars', Gen.extend_extend _ _ _ _ _, ha.append hb⟩

theorem code_grows (h : Continues L first stop k k') :
    first.code.toList <+: stop.code.toList := by
  obtain ⟨lines, vars, rfl, -⟩ := h
  exact Draft.code_extend _ _ _

theorem statement (h : StackCode.statement s first = .ok () stop) :
    Continues L first stop [] [] :=
  ⟨_, _, (generator.statement_emits s _).run h rfl rfl, (statement_passes s _).leaves⟩

theorem otherwise {onFalse : Option (List Stmt)}
    (h : emitter.otherwise onFalse first = .ok () stop) : Continues L first stop [] [] := by
  cases onFalse with
  | none =>
      obtain ⟨-, rfl⟩ := EStateM.Result.ok.inj h
      exact refl _
  | some ss =>
      exact ⟨_, _, (emitter_follows.block_emits _ _ ss).run h rfl rfl,
        (statements_passes ss _).leaves⟩

theorem condition {cond : Expr} (h : emitter.condition cond first = .ok () stop) :
    ∃ x, Continues L first stop [] [x] := by
  obtain ⟨x, hcond⟩ := value_passes (L := L) first.scope first.vars cond
  exact ⟨x, _, _, (generator.expr_emits _ _ cond).run h rfl rfl, hcond.leaves⟩

theorem invert {x : Option Word} (h : emitter.invert first = .ok () stop) :
    Continues L first stop [x] [none] :=
  ⟨_, _, (generator.invert_emits _ _).run h rfl rfl, (Passes.invert x).leaves⟩

theorem jump (first : Draft) (offset : Word) :
    Continues L first (first.append (emitter.jump offset)) [] [] := by
  rw [emitter_follows.jump, ← Draft.extend_eq_append]
  exact ⟨_, _, rfl, .jump offset⟩

theorem cjump (first : Draft) (offset : Word) (x : Option Word) :
    Continues L first (first.append (emitter.cjump offset)) [x] [] := by
  rw [emitter_follows.cjump, ← Draft.extend_eq_append]
  exact ⟨_, _, rfl, .cjump offset x⟩

/-- Nothing is on the stack where the code of a statement begins. -/
theorem visits (h : emitter.Visits first ss start s) : Continues L first start [] [] := by
  induction h with
  | here => exact refl _
  | next run rest ih => exact (statement run).trans ih
  | onTrue layout inside ih =>
      obtain ⟨x, hcond⟩ := condition (L := L) layout.condition
      have hfalse := (hcond.trans (cjump _ _ x)).trans (otherwise layout.otherwise)
      exact (hfalse.trans (jump _ _)).trans ih
  | onFalse layout inside ih =>
      obtain ⟨x, hcond⟩ := condition (L := L) layout.condition
      exact (hcond.trans (cjump _ _ x)).trans ih
  | body layout inside ih =>
      obtain ⟨x, hcond⟩ := condition (L := L) layout.condition
      exact ((hcond.trans (invert layout.invert)).trans (cjump _ _ none)).trans ih

end Continues

/-- What is known at a place of a function that is drafted from its first instruction on. -/
theorem known_of_continues {d : Definition} {f : CompiledFunction} {address : Nat}
    {lines : List (Line Instr)} (hbody : f.body = lines.map Line.symbolic)
    (hplaced : L.Placed address lines) (hentry : known L address = [])
    (h : Continues L (.opened scope d) stop [] k) (hcode : stop.code.toList <+: f.body) :
    known L (address + stop.position) = k := by
  obtain ⟨part, vars, rfl, hleaves⟩ := h
  have hpart := Placed.of_draft symbolic_injective hbody hplaced hcode
  rw [Draft.extend_position, ← Nat.add_assoc]
  exact hleaves _ hpart hentry

/-- A statement that is compiled into a function begins and ends with nothing on the stack. -/
theorem known_at_boundaries {d : Definition} {f : CompiledFunction} {address : Nat}
    {lines : List (Line Instr)} (hbody : f.body = lines.map Line.symbolic)
    (hplaced : L.Placed address lines) (hentry : known L address = [])
    (hcompile : backend.compileFunction scope d = .ok f) (hd : d.body = .block ss)
    (hvisits : emitter.Visits (.opened scope d) ss start s) :
    ∃ stop, statement s start = .ok () stop ∧ known L (address + start.position) = [] ∧
      known L (address + stop.position) = [] := by
  obtain ⟨stop, hrun, hcode⟩ := emitter_follows.visits_compiled hcompile hd hvisits
  have hbefore : Continues L (.opened scope d) start [] [] := .visits hvisits
  have hafter : Continues L start stop [] [] := .statement hrun
  refine ⟨stop, hrun, ?_, ?_⟩
  · exact known_of_continues hbody hplaced hentry hbefore (hafter.code_grows.trans hcode)
  · exact known_of_continues hbody hplaced hentry (hbefore.trans hafter) hcode

end

end DualMachine.StackCode

namespace DualMachine

open Source

/-- Operand stacks have static heights. In the program of a session every offset has one:

* a state that is running is at a listed instruction, and since its activation was entered as many
  values have been pushed as the offset's height says;
* an instruction finds the values that it pops, and a return finds exactly one;
* there are none where functions begin, nor where the code of a statement begins or ends. -/
theorem operand_heights {entry : String} {ps : List Package} {program : Program}
    (hfinish : (({ backend := StackCode.backend, entry } : Session).compileAll ps).finish
      = .ok program)
    (hsize : program.bytes.length < 2 ^ 31) :
    ∃ (height : Nat → Nat) (listing : List (Nat × Instruction)),
      Stack.table.disassembleWithOffsets program.bytes = .ok listing ∧
      (∀ config n σ, σ 0 = Kind.stack.machine.start config program.bytes →
        Stack.table.History n σ → ∀ i ≤ n, (σ i).running = true →
          (σ i).pc ∈ listing.map Prod.fst ∧ (∃ o, Stack.table.Origin σ o i) ∧
          ∀ o, Stack.table.Origin σ o i → ∃ below pushed, (σ o).stack? = some below ∧
            (σ i).stack? = some (pushed ++ below) ∧ pushed.length = height (σ i).pc) ∧
      (∀ o instr, (o, instr) ∈ listing → ∃ op : Stack.Op, instr.descriptor = op.descriptor ∧
        op.pops ≤ height o ∧ (op = .ret → height o = 1)) ∧
      (∀ name address, program.symbols.lookup name = some address → height address = 0) ∧
      ∀ f ∈ (({ backend := StackCode.backend, entry } : Session).compileAll ps).functions,
        ∀ address, program.symbols.lookup f.name = some address →
        ∀ scope d ss, StackCode.backend.compileFunction scope d = .ok f → d.body = .block ss →
        ∀ start s, StackCode.emitter.Visits (.opened scope d) ss start s →
          ∃ stop, StackCode.statement s start = .ok () stop ∧
            height (address + start.position) = 0 ∧ height (address + stop.position) = 0 := by
  obtain ⟨L, us, hlayout⟩ := Session.layout StackCode.compiler hfinish hsize
  obtain ⟨listing, hlisting, hoffsets, hlisted⟩ := decodeFrom_codeBytes L.code 0
  have hannotated := StackCode.annotated hlayout
  have hentry : ∀ {name address}, program.symbols.lookup name = some address →
      StackCode.known L address = [] := fun {name address} haddress =>
    hannotated.entry name address (by rw [hlayout.symbols_eq]; exact haddress)
  refine ⟨fun pc => (StackCode.known L pc).length, listing, ?_, ?_, ?_, ?_, ?_⟩
  · rw [hlayout.bytes_eq]
    exact hlisting
  · intro config n σ hstart h i hi hrunning
    have hstarts : L.Starts StackCode.analysis (σ 0) := by
      rw [hstart, hlayout.bytes_eq]
      exact StackCode.starts hlayout.placed.left (absurd · hlayout.incomplete) config
    have htold := hannotated.told StackCode.analysis_sound h hstarts i hi hrunning
    refine ⟨?_, h.exists_origin (fun k _ => hstarts.depth_le k) hi, fun o ho => ?_⟩
    · obtain ⟨instr, hat⟩ := htold.at_instr
      simpa only [Nat.zero_add] using hoffsets hat.code
    · exact StackCode.pushed_of_told htold ho
  · intro o instr hmem
    obtain ⟨pc, i, hcode, hoffset, hdescriptor⟩ := hlisted (o, instr) hmem
    obtain rfl : o = pc := hoffset.trans (Nat.zero_add pc)
    obtain ⟨e, hdoes, -⟩ := hannotated.code o i hcode
    exact ⟨i.op, hdescriptor, hdoes.pops_le⟩
  · exact fun name address haddress => congrArg List.length (hentry haddress)
  · intro f hf address haddress scope d ss hcompile hbody start s hvisits
    obtain ⟨lines, hlines, hplaced⟩ := hlayout.function_placed hf haddress
    obtain ⟨stop, hrun, hbefore, hafter⟩ := StackCode.known_at_boundaries hlines hplaced
      (hentry haddress) hcompile hbody hvisits
    exact ⟨stop, hrun, congrArg List.length hbefore, congrArg List.length hafter⟩

/-- In the recursion of `down`, two activations come to the load of `n`, each with two values
pushed. -/
theorem operand_heights_descent :
    (({ backend := StackCode.backend, entry := "main" } : Session).compileAll [descent]).finish
      = .ok descentProgram ∧
    descentProgram.bytes.length < 2 ^ 31 ∧
    (descentStates 17).depth = 2 ∧ (descentStates 17).pc = 76 ∧
    (descentStates 31).depth = 3 ∧ (descentStates 31).pc = 76 ∧
    ∃ height : Nat → Nat, height 66 = 0 ∧ height 76 = 2 ∧
      (∃ below pushed, (descentStates 14).stack? = some below ∧
        (descentStates 17).stack? = some (pushed ++ below) ∧ pushed.length = height 76) ∧
      ∃ below pushed, (descentStates 28).stack? = some below ∧
        (descentStates 31).stack? = some (pushed ++ below) ∧ pushed.length = height 76 := by
  have hfinish := descent_compiles.finish_eq
  have hsize : descentProgram.bytes.length < 2 ^ 31 := by decide +kernel
  have hhistory : Stack.table.History 41 descentStates :=
    Stack.table.history_states (by decide +kernel)
  have hplaces : (descentStates 17).depth = 2 ∧ (descentStates 17).pc = 76 ∧
      (descentStates 31).depth = 3 ∧ (descentStates 31).pc = 76 ∧
      (descentStates 17).running = true ∧ (descentStates 31).running = true ∧
      (descentStates 14).stack? = some [24] ∧ (descentStates 17).stack? = some [0, 0, 24] ∧
      descentProgram.symbols.lookup "down" = some 66 := by decide +kernel
  obtain ⟨hdepth, hpc, hdepth', hpc', hrunning, hrunning', hbefore, hnow, haddress⟩ := hplaces
  have hcalls : Stack.table.role? (descentStates 14) = some .call ∧
      Stack.table.role? (descentStates 28) = some .call ∧
      (descentStates 15).depth = (descentStates 17).depth ∧
      (descentStates 29).depth = (descentStates 31).depth ∧
      (∀ k ≤ 17, 15 ≤ k → (descentStates 15).depth ≤ (descentStates k).depth) ∧
      ∀ k ≤ 31, 29 ≤ k → (descentStates 29).depth ≤ (descentStates k).depth := by decide +kernel
  obtain ⟨hcall, hcall', hsame, hsame', hlow, hlow'⟩ := hcalls
  obtain ⟨height, listing, -, hruns, -, hentry, -⟩ := operand_heights hfinish hsize
  obtain ⟨-, -, houter⟩ := hruns {} 41 descentStates rfl hhistory 17 (by decide) hrunning
  obtain ⟨-, -, hinner⟩ := hruns {} 41 descentStates rfl hhistory 31 (by decide) hrunning'
  have hpushed := houter 14 (.inl ⟨hcall, by decide, hsame, fun k hle hge => hlow k hge hle⟩)
  have hpushed' := hinner 28 (.inl ⟨hcall', by decide, hsame', fun k hle hge => hlow' k hge hle⟩)
  rw [hpc] at hpushed
  rw [hpc'] at hpushed'
  have htwo : height 76 = 2 := by
    obtain ⟨below, pushed, hbelow, habove, hlength⟩ := hpushed
    obtain rfl := Option.some.inj (hbefore.symm.trans hbelow)
    have hvalues := congrArg List.length (Option.some.inj (hnow.symm.trans habove))
    simp only [List.length_append, List.length_cons, List.length_nil] at hvalues
    omega
  exact ⟨hfinish, hsize, hdepth, hpc, hdepth', hpc', height, hentry "down" 66 haddress, htwo,
    hpushed, hpushed'⟩

end DualMachine
