import DualMachine.Lowering.StackCode
import DualMachine.Proofs.Encoding
import DualMachine.Proofs.Statements

/-!
# The code of expressions on the stack machine

`exprCode scope vars e` is the code that pushes the value of `e`. It is generated
where the variables are in scope and calls pass no more arguments than a frame has
slots (`ExprFits`); the depth of an expression is no limit here. `generator` puts
this together with the other pieces to what is generated for a function.
-/

namespace DualMachine.StackCode

open Source
open Stack (Instr)
open Gen (Emits)

/-! ## Code -/

/-- Pushes a slot of the frame. -/
def loadCode (slot : Nat) : List Instr := [.push (Int32.ofNat slot), .push 0, .load]

/-- Pops the top of the stack into a slot of the frame. -/
def storeCode (slot : Nat) : List Instr := [.push (Int32.ofNat slot), .push 0, .store]

/-- Makes the top 1 if it is zero, and 0 otherwise. -/
def invertCode : List Instr := [.push 0, .alu .eq]

/-- Applies an operator to the top. -/
def unaryCode : UnaryOp → List Instr
  | .neg => [.push 0, .alu .sub]
  | .not => invertCode

/-- Applies an operator to the two topmost values. -/
def binaryCode (op : BinaryOp) : List Instr :=
  .alu op.lowered.1 :: if op.lowered.2 then invertCode else []

/-- Pops the `count` topmost values, the top into the last slot after the frame. -/
def passCode (count : Nat) : List Instr :=
  (List.range count).reverse.flatMap fun i => storeCode (frameSize + i)

section

variable (scope : Scope) (vars : List String)

mutual

/-- Pushes the value of an expression. -/
def exprCode : Expr → List (Line Instr)
  | .number n => Line.ofCode [.push n]
  | .boolean b => Line.ofCode [.push (Word.ofBool b)]
  | .identifier x => Line.ofCode (loadCode (vars.idxOf x))
  | .paren inner => exprCode inner
  | .unary op operand => exprCode operand ++ Line.ofCode (unaryCode op)
  | .binary op left right => exprCode right ++ exprCode left ++ Line.ofCode (binaryCode op)
  | .call f args =>
    exprsCode args ++ (Line.ofCode (passCode args.length) ++ [.call (scope.qualify f)])

/-- Pushes the values of expressions, one after the other. -/
def exprsCode : List Expr → List (Line Instr)
  | [] => []
  | e :: es => exprCode e ++ exprsCode es

end

mutual

/-- Whether an expression can be evaluated. -/
def ExprFits : Expr → Prop
  | .number _ | .boolean _ => True
  | .identifier x => x ∈ vars
  | .paren inner => ExprFits inner
  | .unary _ operand => ExprFits operand
  | .binary _ left right => ExprFits right ∧ ExprFits left
  | .call _ args => args.length ≤ frameSize ∧ ExprsFit args

/-- Whether expressions can be evaluated. -/
def ExprsFit : List Expr → Prop
  | [] => True
  | e :: es => ExprFits e ∧ ExprsFit es

end

end

/-! ## Emission -/

variable {scope : Scope} {vars : List String}

theorem emit_emits (i : Instr) :
    Emits scope vars (emit i) True () (Line.ofCode [i]) vars :=
  Emits.emit (.plain i)

/-- A word is pushed for the instruction that follows. -/
theorem push_emit_emits (w : Word) (i : Instr) :
    Emits scope vars (do push w; emit i) True () (Line.ofCode [.push w, i]) vars := by
  refine .congr (.bind (emit_emits _) (emit_emits _)) ?_ ?_
  · simp
  · rfl

theorem loadSlot_emits (slot : Nat) :
    Emits scope vars (loadSlot slot) True () (Line.ofCode (loadCode slot)) vars := by
  refine .congr (.bind (emit_emits _) (push_emit_emits 0 .load)) ?_ ?_
  · simp
  · rfl

theorem storeSlot_emits (slot : Nat) :
    Emits scope vars (storeSlot slot) True () (Line.ofCode (storeCode slot)) vars := by
  refine .congr (.bind (emit_emits _) (push_emit_emits 0 .store)) ?_ ?_
  · simp
  · rfl

theorem unary_emits (op : UnaryOp) :
    Emits scope vars (unary op) True () (Line.ofCode (unaryCode op)) vars := by
  cases op with
  | neg => exact push_emit_emits 0 (.alu .sub)
  | not => exact push_emit_emits 0 (.alu .eq)

theorem binary_emits (op : BinaryOp) :
    Emits scope vars (binary op) True () (Line.ofCode (binaryCode op)) vars := by
  rw [binary, binaryCode]
  cases op.lowered with
  | mk alu inverted =>
      cases inverted with
      | false =>
          refine .congr (.bind (emit_emits _) (.pure ())) ?_ ?_
          · simp
          · rfl
      | true =>
          refine .congr (.bind (emit_emits _) (push_emit_emits 0 (.alu .eq))) ?_ ?_
          · simp
          · rfl

theorem pass_emits (count : Nat) :
    Emits scope vars ((List.range count).reverse.forM fun i => storeSlot (frameSize + i)) True ()
      (Line.ofCode (passCode count)) vars := by
  refine .congr (.forM (fun i => storeSlot_emits _) _) Iff.rfl ?_
  simp [passCode, Line.ofCode, List.map_flatMap]

theorem endCall_emits (name : String) (count : Nat) :
    Emits scope vars (endCall name count) True ()
      (Line.ofCode (passCode count) ++ [.call (scope.qualify name)]) vars := by
  have hcall : Emits scope vars
      (Gen.emit (.ofSymbol (Stack.Op.descriptor .call) (scope.qualify name))) True ()
      [(.call (scope.qualify name) : Line Instr)] vars := Emits.emit (.call (scope.qualify name))
  refine .congr (.bind (pass_emits count) <| .bind (.callee name) hcall) ?_ ?_
  · simp
  · simp

mutual

theorem expr_emits : ∀ e : Expr,
    Emits scope vars (expr e) (ExprFits vars e) () (exprCode scope vars e) vars
  | .number n => by
      rw [expr, ExprFits, exprCode]
      exact emit_emits _
  | .boolean b => by
      rw [expr, ExprFits, exprCode]
      exact emit_emits _
  | .identifier x => by
      rw [expr, ExprFits, exprCode]
      exact .congr (.bind (.slot x) (loadSlot_emits _)) (by rw [and_true]) rfl
  | .paren inner => by
      rw [expr, ExprFits, exprCode]
      exact expr_emits inner
  | .unary op operand => by
      rw [expr, ExprFits, exprCode]
      exact .congr (.bind (expr_emits operand) (unary_emits op)) (by rw [and_true]) rfl
  | .binary op left right => by
      rw [expr, ExprFits, exprCode]
      refine .congr (.bind (expr_emits right) <| .bind (expr_emits left) (binary_emits op)) ?_ ?_
      · simp
      · simp
  | .call f args => by
      rw [expr, ExprFits, exprCode]
      refine .congr (.refuse (.bind (exprs_emits args) (endCall_emits f args.length))) ?_ rfl
      simp

theorem exprs_emits : ∀ es : List Expr,
    Emits scope vars (exprs es) (ExprsFit vars es) () (exprsCode scope vars es) vars
  | [] => by
      rw [exprs, ExprsFit, exprsCode]
      exact .pure ()
  | e :: es => by
      rw [exprs, ExprsFit, exprsCode]
      exact .bind (expr_emits e) (exprs_emits es)

end

/-! ## Functions -/

/-- What the code for the stack machine is put together from; the value of an
expression is on top of the stack. -/
def pieces : Pieces Instr where
  expr scope vars e := exprCode scope vars e
  fits vars e := ExprFits vars e
  store := storeCode
  ret := [.ret]
  zero := [.push 0]
  invert := invertCode
  jump offset := [.push offset, .jump]
  cjump offset := [.push offset, .cjump]
  jumpLength := jumpLength

/-- The code generator of the stack machine follows the common scheme. -/
def generator : Generator pieces where
  expr := expr
  store := storeSlot
  ret := emit .ret
  zero := push 0
  invert := invert
  jump offset := do push offset; emit .jump
  cjump offset := do push offset; emit .cjump
  statement := statement
  statements := statements
  body := body
  expr_emits _ _ e := expr_emits e
  store_emits _ _ slot := storeSlot_emits slot
  ret_emits _ _ := emit_emits _
  zero_emits _ _ := emit_emits _
  invert_emits _ _ := push_emit_emits 0 (.alu .eq)
  jump_emits _ _ offset := push_emit_emits offset .jump
  cjump_emits _ _ offset := push_emit_emits offset .cjump
  var_eq _ _ := by rw [statement]
  assign_eq _ _ := by rw [statement]
  return_eq _ := by rw [statement]
  conditional := conditional
  conditional_eq _ _ _ := by simp only [conditional, bind_assoc]; rfl
  loop := loop
  loop_eq _ _ := by simp only [loop, bind_assoc]; rfl
  if_eq _ _ := by rw [statement]
  else_eq _ _ _ := by rw [statement]
  while_eq _ _ := by rw [statement]
  nil_eq := by rw [statements]
  cons_eq _ _ := by rw [statements]
  block_eq _ := rfl
  expression_eq _ := rfl

end DualMachine.StackCode
