import DualMachine.Proofs.Recording
import DualMachine.Proofs.Stack.Emission

/-!
# Points of compilation for the stack machine

The recorded form of the code generator for expressions follows the generator
(`recordExpr_follows`), keeps the table and goes to the frame only for variables and arguments
(`recordExpr_steady`): between the parts of an expression, values are on the stack.
-/

namespace DualMachine.StackCode

open Source
open Stack (Instr)
open Recorded (code)

/-- `endCall`, recorded. -/
def recordEndCall (name : String) (count : Nat) : Recorded Unit := do
  code (passCode count)
  let callee ← Recorded.callee name
  Recorded.emitAll [.ofSymbol (Stack.Op.descriptor .call) callee]

mutual

/-- `expr`, recorded. -/
def recordExpr : Expr → Recorded Unit
  | .number n => code [Instr.push n]
  | .boolean b => code [Instr.push (Word.ofBool b)]
  | .identifier x => do
    code (loadCode (← Recorded.slot x))
  | .paren inner => recordExpr inner
  | .unary op operand => do
    recordExpr operand
    code (unaryCode op)
  | .binary op left right => do
    recordExpr right
    recordExpr left
    code (binaryCode op)
  | .call name args => do
    if frameSize < args.length then Recorded.overflow args.length
    recordExprs args
    recordEndCall name args.length

/-- `exprs`, recorded. -/
def recordExprs : List Expr → Recorded Unit
  | [] => pure ()
  | e :: es => do
    recordExpr e
    recordExprs es

end

/-! ## Following the generator -/

theorem emit_follows (i : Instr) : (code [i]).Follows (emit i) := .code fun _ _ => emit_emits i

theorem load_follows (slot : Nat) : (code (loadCode slot)).Follows (loadSlot slot) :=
  .code fun _ _ => loadSlot_emits slot

theorem unary_follows (op : UnaryOp) : (code (unaryCode op)).Follows (unary op) :=
  .code fun _ _ => unary_emits op

theorem binary_follows (op : BinaryOp) : (code (binaryCode op)).Follows (binary op) :=
  .code fun _ _ => binary_emits op

theorem recordEndCall_follows (name : String) (count : Nat) :
    (recordEndCall name count).Follows (endCall name count) := by
  have hpass : (code (passCode count)).Follows
      ((List.range count).reverse.forM fun i => storeSlot (frameSize + i)) :=
    .code fun _ _ => pass_emits count
  have hcall (callee : String) : (Recorded.emitAll
      [.ofSymbol (Stack.Op.descriptor .call) callee]).Follows
      (Gen.emit (.ofSymbol (Stack.Op.descriptor .call) callee)) :=
    .emitAll fun _ _ => Gen.Emits.emit (.call callee : Line Instr)
  exact .bind hpass fun _ => .bind (.callee name) hcall

mutual

theorem recordExpr_follows : ∀ e : Expr, (recordExpr e).Follows (expr e)
  | .number n => by
      rw [recordExpr, expr]
      exact emit_follows _
  | .boolean b => by
      rw [recordExpr, expr]
      exact emit_follows _
  | .identifier x => by
      rw [recordExpr, expr]
      exact .bind (.slot x) load_follows
  | .paren inner => by
      rw [recordExpr, expr]
      exact recordExpr_follows inner
  | .unary op operand => by
      rw [recordExpr, expr]
      exact .bind (recordExpr_follows operand) fun _ => unary_follows op
  | .binary op left right => by
      rw [recordExpr, expr]
      refine .bind (recordExpr_follows right) fun _ => ?_
      exact .bind (recordExpr_follows left) fun _ => binary_follows op
  | .call name args => by
      have hcall := (recordExprs_follows args).bind fun _ =>
        recordEndCall_follows name args.length
      rw [recordExpr, expr]
      exact .ite (.bind (.overflow _) fun _ => hcall) hcall

theorem recordExprs_follows : ∀ es : List Expr, (recordExprs es).Follows (exprs es)
  | [] => by
      rw [recordExprs, exprs]
      exact .pure ()
  | e :: es => by
      rw [recordExprs, exprs]
      exact .bind (recordExpr_follows e) fun _ => recordExprs_follows es

end

/-! ## Loads and stores -/

/-- The address of a load or store is pushed, and then the flag. -/
def frameAddressing : Addressing where
  loadOp := Stack.Op.descriptor .load
  storeOp := Stack.Op.descriptor .store
  lead slot := [Instr.toInstruction (.push (Int32.ofNat slot)), Instr.toInstruction (.push 0)]
  load _ := Instr.toInstruction .load
  store _ := Instr.toInstruction .store
  spills := False

variable {table : List (String × Nat)}

theorem not_accesses {i : Instr} (hload : i.op ≠ .load) (hstore : i.op ≠ .store) :
    ¬frameAddressing.Accesses i.toInstruction := by
  have hop : ∀ op : Stack.Op, op.descriptor = Stack.Op.descriptor .load ∨
      op.descriptor = Stack.Op.descriptor .store → op = .load ∨ op = .store := by
    intro op
    cases op with
    | alu op => cases op <;> decide
    | _ => decide
  exact fun h => (hop i.op h).elim hload hstore

theorem placed_plain {is : List Instr} (h : ∀ i ∈ is, i.op ≠ .load ∧ i.op ≠ .store) :
    frameAddressing.Placed table ((Line.ofCode is).map Line.symbolic) :=
  Addressing.placed_ofCode fun i hi => not_accesses (h i hi).1 (h i hi).2

theorem lead_not_accesses (slot : Nat) :
    ∀ i ∈ frameAddressing.lead slot, ¬frameAddressing.Accesses i := by
  refine List.forall_mem_cons.mpr ⟨?_, List.forall_mem_singleton.mpr ?_⟩
  all_goals exact not_accesses (by simp [Instr.op]) (by simp [Instr.op])

theorem placed_load {slot : Nat} (h : frameAddressing.Reaches table (frameAddressing.load 0) slot) :
    frameAddressing.Placed table ((Line.ofCode (loadCode slot)).map Line.symbolic) :=
  Addressing.placed_access (lead_not_accesses slot) h

theorem placed_store {slot : Nat}
    (h : frameAddressing.Reaches table (frameAddressing.store 0) slot) :
    frameAddressing.Placed table ((Line.ofCode (storeCode slot)).map Line.symbolic) :=
  Addressing.placed_access (lead_not_accesses slot) h

theorem placed_pass {count : Nat} (h : count ≤ frameSize) :
    frameAddressing.Placed table ((Line.ofCode (passCode count)).map Line.symbolic) := by
  rw [passCode, Line.ofCode, List.map_flatMap, List.map_flatMap]
  refine .flatMap fun i hi => placed_store (.pass 0 ?_)
  exact (List.mem_range.mp (List.mem_reverse.mp hi)).trans_le h

/-! ## Order -/

open Recorded (InOrder Steady)

theorem recordEndCall_steady (name : String) {count : Nat} (hcount : count ≤ frameSize) :
    Steady frameAddressing table (recordEndCall name count) := by
  have hcall (callee : String) : frameAddressing.Placed table
      [.ofSymbol (Stack.Op.descriptor .call) callee] :=
    Addressing.placed_of_not <| List.forall_mem_singleton.mpr <|
      not_or.mpr ⟨(by decide : Stack.Op.descriptor .call ≠ Stack.Op.descriptor .load),
        (by decide : Stack.Op.descriptor .call ≠ Stack.Op.descriptor .store)⟩
  rw [recordEndCall]
  refine .bind_steady (.emitAll (placed_pass hcount)) fun _ => ?_
  exact .bind_steady (InOrder.look.mono fun _ _ h => h.1) fun callee => .emitAll (hcall callee)

mutual

theorem recordExpr_steady : ∀ e : Expr, Steady frameAddressing table (recordExpr e)
  | .number n => by
      rw [recordExpr]
      exact .emitAll (placed_plain (by simp [Instr.op]))
  | .boolean b => by
      rw [recordExpr]
      exact .emitAll (placed_plain (by simp [Instr.op]))
  | .identifier x => by
      rw [recordExpr]
      refine (InOrder.slot x).bind_keeping ?_
      exact fun slot hslot => .emitAll (placed_load (.read 0 hslot))
  | .paren inner => by
      rw [recordExpr]
      exact recordExpr_steady inner
  | .unary op operand => by
      rw [recordExpr]
      refine .bind_steady (recordExpr_steady operand) fun _ => .emitAll (placed_plain ?_)
      cases op <;> simp [unaryCode, invertCode, Instr.op]
  | .binary op left right => by
      rw [recordExpr]
      refine .bind_steady (recordExpr_steady right) fun _ => ?_
      refine .bind_steady (recordExpr_steady left) fun _ => .emitAll (placed_plain ?_)
      cases hlowered : op.lowered.2 <;> simp [binaryCode, invertCode, hlowered, Instr.op]
  | .call name args => by
      rw [recordExpr]
      refine .ite (fun _ => .overflow) fun hcount => ?_
      exact .bind_steady (recordExprs_steady args) fun _ =>
        recordEndCall_steady name (not_lt.mp hcount)

theorem recordExprs_steady : ∀ es : List Expr, Steady frameAddressing table (recordExprs es)
  | [] => by
      rw [recordExprs]
      exact .pure rfl
  | e :: es => by
      rw [recordExprs]
      exact .bind_steady (recordExpr_steady e) fun _ => recordExprs_steady es

end

/-- The code generator of the stack machine, recorded. -/
def recorder : Recorder generator where
  expr := recordExpr
  expr_follows := recordExpr_follows

theorem recorder_inOrder : recorder.InOrder frameAddressing where
  expr _ e := recordExpr_steady e
  store _ _ _ h := placed_store (.write 0 h)
  ret _ := placed_plain (by simp [pieces, Instr.op])
  zero _ := placed_plain (by simp [pieces, Instr.op])
  invert _ := placed_plain (by simp [pieces, invertCode, Instr.op])
  jump _ _ := placed_plain (by simp [pieces, Instr.op])
  cjump _ _ := placed_plain (by simp [pieces, Instr.op])

end DualMachine.StackCode
