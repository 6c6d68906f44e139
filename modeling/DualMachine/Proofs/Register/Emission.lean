import DualMachine.Lowering.RegisterCode
import DualMachine.Proofs.Encoding
import DualMachine.Proofs.Statements

/-!
# The code of expressions on the register machine

`exprCode file scope vars e t` is the code that evaluates `e` into temporary `t`,
`ExprFits file vars e t` the condition on which it is generated: there are enough
temporaries, the variables are in scope, and a call has room for its arguments and
for the registers it keeps. `generator` puts this together with the other pieces
to what is generated for a function.
-/

namespace DualMachine.RegisterCode

open Source
open Register (Instr)
open Gen (Emits)

/-! ## Code -/

section

variable (file : File)

/-- Reads a slot of the frame into a register. -/
def loadCode (dst : UInt8) (slot : Nat) : List Instr :=
  [.mov file.address (Int32.ofNat slot), .mov file.flag 0, .load dst file.address file.flag]

/-- Writes a register to a slot of the frame. -/
def storeCode (src : UInt8) (slot : Nat) : List Instr :=
  [.mov file.address (Int32.ofNat slot), .mov file.flag 0, .store src file.address file.flag]

/-- Makes a register 1 if it is zero, and 0 otherwise. -/
def invertCode (reg : UInt8) : List Instr := [.mov file.flag 0, .alu .eq reg reg file.flag]

/-- Applies an operator to a register. -/
def unaryCode (reg : UInt8) : UnaryOp → List Instr
  | .neg => [.mov file.flag 0, .alu .sub reg file.flag reg]
  | .not => invertCode file reg

/-- Applies an operator to two registers. -/
def binaryCode (dst rhs : UInt8) (op : BinaryOp) : List Instr :=
  .alu op.lowered.1 dst dst rhs :: if op.lowered.2 then invertCode file dst else []

/-- Writes `count` registers from `first` on to the slots from `slot` on. -/
def saveCode (first slot count : Nat) : List Instr :=
  (List.range count).flatMap fun i => storeCode file (UInt8.ofNat (first + i)) (slot + i)

/-- Reads the registers below `count` from the slots from `slot` on. -/
def restoreCode (slot count : Nat) : List Instr :=
  (List.range count).flatMap fun i => loadCode file (UInt8.ofNat i) (slot + i)

/-- Puts the result of a call into temporary `t`. -/
def resultCode (t : Nat) : List Instr := if t = 0 then [] else [.dup (UInt8.ofNat t) 0]

variable (scope : Scope) (vars : List String)

mutual

/-- Evaluates an expression into temporary `t`. -/
def exprCode : Expr → (t : Nat) → List (Line Instr)
  | .number n, t => Line.ofCode [.mov (UInt8.ofNat t) n]
  | .boolean b, t => Line.ofCode [.mov (UInt8.ofNat t) (Word.ofBool b)]
  | .identifier x, t => Line.ofCode (loadCode file (UInt8.ofNat t) (vars.idxOf x))
  | .paren inner, t => exprCode inner t
  | .unary op operand, t =>
    exprCode operand t ++ Line.ofCode (unaryCode file (UInt8.ofNat t) op)
  | .binary op left right, t =>
    exprCode left t ++ exprCode right (t + 1)
      ++ Line.ofCode (binaryCode file (UInt8.ofNat t) (UInt8.ofNat (t + 1)) op)
  | .call f args, t =>
    Line.ofCode (saveCode file 0 vars.length t) ++ exprsCode args t
      ++ (Line.ofCode (saveCode file t frameSize args.length) ++ [.call (scope.qualify f)])
      ++ (Line.ofCode (resultCode t) ++ Line.ofCode (restoreCode file vars.length t))

/-- Evaluates expressions into temporaries from `t` on. -/
def exprsCode : List Expr → (t : Nat) → List (Line Instr)
  | [], _ => []
  | e :: es, t => exprCode e t ++ exprsCode es (t + 1)

end

mutual

/-- Whether an expression can be evaluated into temporary `t`. -/
def ExprFits : Expr → (t : Nat) → Prop
  | .number _, t | .boolean _, t => t < file.temporaries
  | .identifier x, t => t < file.temporaries ∧ x ∈ vars
  | .paren inner, t => t < file.temporaries ∧ ExprFits inner t
  | .unary _ operand, t => t < file.temporaries ∧ ExprFits operand t
  | .binary _ left right, t =>
    t + 1 < file.temporaries ∧ ExprFits left t ∧ ExprFits right (t + 1)
  | .call _ args, t =>
    t < file.temporaries ∧ args.length ≤ frameSize ∧
      (args.length ≠ 0 → t + args.length - 1 < file.temporaries) ∧
      vars.length + t ≤ frameSize ∧ ExprsFit args t

/-- Whether expressions can be evaluated into temporaries from `t` on. -/
def ExprsFit : List Expr → (t : Nat) → Prop
  | [], _ => True
  | e :: es, t => ExprFits e t ∧ ExprsFit es (t + 1)

end

end

/-! ## Emission -/

variable {file : File} {scope : Scope} {vars : List String}

theorem emit_emits (i : Instr) :
    Emits scope vars (emit i) True () (Line.ofCode [i]) vars :=
  Emits.emit (.plain i)

theorem reserve_emits (t : Nat) :
    Emits scope vars (reserve file t) (t < file.temporaries) (UInt8.ofNat t)
      ([] : List (Line Instr)) vars := by
  refine .of_ite (e := fun d => .registerPressure d.function (t + 3) file.count) _
    fun d _ hvars => ?_
  rw [← hvars, Gen.extend_nil, reserve]
  by_cases ht : t < file.temporaries
  · rw [if_pos ht, if_pos ht]
    rfl
  · rw [if_neg ht, if_neg ht]
    rfl

theorem loadSlot_emits (dst : UInt8) (slot : Nat) :
    Emits scope vars (loadSlot file dst slot) True () (Line.ofCode (loadCode file dst slot))
      vars := by
  refine .congr (.bind (emit_emits _) <| .bind (emit_emits _) (emit_emits _)) ?_ ?_
  · simp
  · rfl

theorem storeSlot_emits (src : UInt8) (slot : Nat) :
    Emits scope vars (storeSlot file src slot) True () (Line.ofCode (storeCode file src slot))
      vars := by
  refine .congr (.bind (emit_emits _) <| .bind (emit_emits _) (emit_emits _)) ?_ ?_
  · simp
  · rfl

theorem invert_emits (reg : UInt8) :
    Emits scope vars (invert file reg) True () (Line.ofCode (invertCode file reg)) vars := by
  refine .congr (.bind (emit_emits _) (emit_emits _)) ?_ ?_
  · simp
  · rfl

theorem unary_emits (op : UnaryOp) (reg : UInt8) :
    Emits scope vars (unary file op reg) True () (Line.ofCode (unaryCode file reg op)) vars := by
  cases op with
  | neg =>
      refine .congr (.bind (emit_emits _) (emit_emits _)) ?_ ?_
      · simp
      · rfl
  | not => exact invert_emits reg

theorem binary_emits (op : BinaryOp) (dst rhs : UInt8) :
    Emits scope vars (binary file op dst rhs) True ()
      (Line.ofCode (binaryCode file dst rhs op)) vars := by
  rw [binary, binaryCode]
  cases op.lowered with
  | mk alu inverted =>
      cases inverted with
      | false =>
          refine .congr (.bind (emit_emits _) (.pure ())) ?_ ?_
          · simp
          · rfl
      | true =>
          refine .congr (.bind (emit_emits _) (invert_emits dst)) ?_ ?_
          · simp
          · rfl

theorem save_emits (first slot count : Nat) :
    Emits scope vars
      ((List.range count).forM fun i => storeSlot file (UInt8.ofNat (first + i)) (slot + i))
      True () (Line.ofCode (saveCode file first slot count)) vars := by
  refine .congr (.forM (fun i => storeSlot_emits _ _) _) Iff.rfl ?_
  simp [saveCode, Line.ofCode, List.map_flatMap]

theorem restore_emits (slot count : Nat) :
    Emits scope vars
      ((List.range count).forM fun i => loadSlot file (UInt8.ofNat i) (slot + i))
      True () (Line.ofCode (restoreCode file slot count)) vars := by
  refine .congr (.forM (fun i => loadSlot_emits _ _) _) Iff.rfl ?_
  simp [restoreCode, Line.ofCode, List.map_flatMap]

theorem beginCall_emits (count t : Nat) :
    Emits scope vars (beginCall file count t)
      (count ≤ frameSize ∧ (count ≠ 0 → t + count - 1 < file.temporaries) ∧
        vars.length + t ≤ frameSize)
      vars.length (Line.ofCode (saveCode file 0 vars.length t)) vars := by
  have hspill : ∀ d : Draft, d.vars = vars →
      Emits scope vars
        (if frameSize < d.vars.length + t then do
            Gen.overflow (d.vars.length + t)
            (List.range t).forM fun live =>
              storeSlot file (UInt8.ofNat live) (d.vars.length + live)
            pure d.vars.length
          else do
            (List.range t).forM fun live =>
              storeSlot file (UInt8.ofNat live) (d.vars.length + live)
            pure d.vars.length)
        (vars.length + t ≤ frameSize) vars.length
        (Line.ofCode (saveCode file 0 vars.length t)) vars := by
    rintro d rfl
    have hsave : Emits scope d.vars
        ((List.range t).forM fun live =>
          storeSlot file (UInt8.ofNat live) (d.vars.length + live))
        True () (Line.ofCode (saveCode file 0 d.vars.length t)) d.vars := by
      simpa only [Nat.zero_add] using save_emits 0 d.vars.length t
    refine .congr (.refuse (.bind hsave (.pure d.vars.length))) ?_ ?_
    · simp
    · simp
  rw [beginCall]
  refine .congr (.refuse ?_) (by rw [Nat.not_lt]) rfl
  by_cases hcount : count ≠ 0
  · rw [if_pos hcount]
    refine .congr (.bind (reserve_emits _) (.reading hspill)) ?_ rfl
    simp [hcount]
  · rw [if_neg hcount]
    refine .congr (.reading hspill) ?_ rfl
    simp [hcount]

theorem endCall_emits (name : String) (count t base : Nat) :
    Emits scope vars (endCall file name count t base) True ()
      (Line.ofCode (saveCode file t frameSize count) ++ [.call (scope.qualify name)]
        ++ Line.ofCode (resultCode t) ++ Line.ofCode (restoreCode file base t)) vars := by
  have hcall : Emits scope vars
      (Gen.emit (.ofSymbol (Register.Op.descriptor .call) (scope.qualify name))) True ()
      [(.call (scope.qualify name) : Line Instr)] vars := Emits.emit (.call (scope.qualify name))
  have hback : Emits scope vars
      (if t ≠ 0 then do
          emit (.dup (UInt8.ofNat t) 0)
          (List.range t).forM fun live => loadSlot file (UInt8.ofNat live) (base + live)
        else (List.range t).forM fun live => loadSlot file (UInt8.ofNat live) (base + live))
      True () (Line.ofCode (resultCode t) ++ Line.ofCode (restoreCode file base t)) vars := by
    rw [resultCode]
    by_cases ht : t = 0
    · rw [if_neg (fun h => h ht), if_pos ht]
      exact restore_emits base t
    · rw [if_pos ht, if_neg ht]
      exact .congr (.bind (emit_emits _) (restore_emits base t)) (and_self_iff) rfl
  refine .congr (.bind (save_emits _ _ _) <| .bind (.callee name) <| .bind hcall hback) ?_ ?_
  · simp
  · simp

mutual

theorem expr_emits : ∀ (e : Expr) (t : Nat),
    Emits scope vars (expr file e t) (ExprFits file vars e t) () (exprCode file scope vars e t)
      vars
  | .number n, t => by
      rw [expr, ExprFits, exprCode]
      exact .congr (.bind (reserve_emits t) (emit_emits _)) (by rw [and_true]) rfl
  | .boolean b, t => by
      rw [expr, ExprFits, exprCode]
      exact .congr (.bind (reserve_emits t) (emit_emits _)) (by rw [and_true]) rfl
  | .identifier x, t => by
      rw [expr, ExprFits, exprCode]
      refine .congr (.bind (reserve_emits t) <| .bind (.slot x) (loadSlot_emits _ _)) ?_ rfl
      simp
  | .paren inner, t => by
      rw [expr, ExprFits, exprCode]
      exact .bind (reserve_emits t) (expr_emits inner t)
  | .unary op operand, t => by
      rw [expr, ExprFits, exprCode]
      refine .congr (.bind (reserve_emits t) <| .bind (expr_emits operand t) (unary_emits op _))
        ?_ rfl
      simp
  | .binary op left right, t => by
      rw [expr, ExprFits, exprCode]
      refine .congr (.bind (reserve_emits t) <| .bind (reserve_emits (t + 1)) <|
        .bind (expr_emits left t) <| .bind (expr_emits right (t + 1)) (binary_emits op _ _)) ?_ ?_
      · grind
      · simp
  | .call f args, t => by
      rw [expr, ExprFits, exprCode]
      refine .congr (.bind (reserve_emits t) <| .bind (beginCall_emits args.length t) <|
        .bind (exprs_emits args t) (endCall_emits f args.length t _)) ?_ ?_
      · simp [and_assoc]
      · simp

theorem exprs_emits : ∀ (es : List Expr) (t : Nat),
    Emits scope vars (exprs file es t) (ExprsFit file vars es t) ()
      (exprsCode file scope vars es t) vars
  | [], t => by
      rw [exprs, ExprsFit, exprsCode]
      exact .pure ()
  | e :: es, t => by
      rw [exprs, ExprsFit, exprsCode]
      exact .bind (expr_emits e t) (exprs_emits es (t + 1))

end

/-! ## Functions -/

/-- What the code for the register machine is put together from; the value of an
expression is in temporary 0. -/
def pieces (file : File) : Pieces Instr where
  expr scope vars e := exprCode file scope vars e 0
  fits vars e := ExprFits file vars e 0
  store := storeCode file 0
  ret := [.ret]
  zero := [.mov 0 0]
  invert := invertCode file 0
  jump offset := [.jump offset]
  cjump offset := [.cjump 0 offset]
  jumpLength := jumpLength

/-- The code generator of the register machine follows the common scheme. -/
def generator (file : File) : Generator (pieces file) where
  expr e := expr file e 0
  store := storeSlot file 0
  ret := emit .ret
  zero := emit (.mov 0 0)
  invert := invert file 0
  jump offset := emit (.jump offset)
  cjump offset := emit (.cjump 0 offset)
  statement := statement file
  statements := statements file
  body := body file
  expr_emits _ _ e := expr_emits e 0
  store_emits _ _ slot := storeSlot_emits 0 slot
  ret_emits _ _ := emit_emits _
  zero_emits _ _ := emit_emits _
  invert_emits _ _ := invert_emits 0
  jump_emits _ _ _ := emit_emits _
  cjump_emits _ _ _ := emit_emits _
  var_eq _ _ := by rw [statement]
  assign_eq _ _ := by rw [statement]
  return_eq _ := by rw [statement]
  conditional := conditional file
  conditional_eq _ _ _ := rfl
  loop := loop file
  loop_eq _ _ := rfl
  if_eq _ _ := by rw [statement]
  else_eq _ _ _ := by rw [statement]
  while_eq _ _ := by rw [statement]
  nil_eq := by rw [statements]
  cons_eq _ _ := by rw [statements]
  block_eq _ := rfl
  expression_eq _ := rfl

end DualMachine.RegisterCode
