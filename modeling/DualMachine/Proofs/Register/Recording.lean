import DualMachine.Proofs.Recording
import DualMachine.Proofs.Register.Emission

/-!
# Points of compilation for the register machine

The recorded form of the code generator for expressions is written like the generator itself, with
code that is always appended as a list of instructions. It follows the generator
(`recordExpr_follows`) and keeps the table (`recordExpr_steady`). A call keeps registers above the
variables that are in scope when it begins; they are still in scope when it ends, so the
registers come back from where they are kept.
-/

namespace DualMachine.RegisterCode

open Source
open Register (Instr)
open Recorded (code)

variable {file : File}

section

variable (file)

/-- `reserve`, recorded. -/
def recordReserve (t : Nat) : Recorded UInt8 :=
  if t < file.temporaries then pure (UInt8.ofNat t)
  else Recorded.refuse (.registerPressure · (t + 3) file.count)

/-- Keeps the registers below `t` above the variables, recorded. -/
def recordSpill (t : Nat) : Recorded Nat := do
  let base ← Recorded.count
  if frameSize < base + t then Recorded.overflow (base + t)
  code (saveCode file 0 base t)
  return base

/-- `beginCall`, recorded. -/
def recordBeginCall (count t : Nat) : Recorded Nat := do
  if frameSize < count then Recorded.overflow count
  if count ≠ 0 then
    let _ ← recordReserve file (t + count - 1)
  recordSpill file t

/-- `endCall`, recorded. -/
def recordEndCall (name : String) (count t base : Nat) : Recorded Unit := do
  code (saveCode file t frameSize count)
  let callee ← Recorded.callee name
  Recorded.emitAll [.ofSymbol (Register.Op.descriptor .call) callee]
  if t ≠ 0 then code [Instr.dup (UInt8.ofNat t) 0]
  code (restoreCode file base t)

mutual

/-- `expr`, recorded. -/
def recordExpr : Expr → (t : Nat) → Recorded Unit
  | .number n, t => do
    code [Instr.mov (← recordReserve file t) n]
  | .boolean b, t => do
    code [Instr.mov (← recordReserve file t) (Word.ofBool b)]
  | .identifier x, t => do
    let dst ← recordReserve file t
    code (loadCode file dst (← Recorded.slot x))
  | .paren inner, t => do
    let _ ← recordReserve file t
    recordExpr inner t
  | .unary op operand, t => do
    let dst ← recordReserve file t
    recordExpr operand t
    code (unaryCode file dst op)
  | .binary op left right, t => do
    let dst ← recordReserve file t
    let rhs ← recordReserve file (t + 1)
    recordExpr left t
    recordExpr right (t + 1)
    code (binaryCode file dst rhs op)
  | .call name args, t => do
    let _ ← recordReserve file t
    let base ← recordBeginCall file args.length t
    recordExprs args t
    recordEndCall file name args.length t base

/-- `exprs`, recorded. -/
def recordExprs : List Expr → (t : Nat) → Recorded Unit
  | [], _ => pure ()
  | e :: es, t => do
    recordExpr e t
    recordExprs es (t + 1)

end

end

/-! ## Following the generator -/

theorem recordReserve_follows (t : Nat) : (recordReserve file t).Follows (reserve file t) :=
  .ite (.pure _) fun _ => rfl

theorem save_follows (first slot count : Nat) : (code (saveCode file first slot count)).Follows
    ((List.range count).forM fun i => storeSlot file (UInt8.ofNat (first + i)) (slot + i)) :=
  .code fun _ _ => save_emits first slot count

theorem restore_follows (slot count : Nat) : (code (restoreCode file slot count)).Follows
    ((List.range count).forM fun i => loadSlot file (UInt8.ofNat i) (slot + i)) :=
  .code fun _ _ => restore_emits slot count

theorem emit_follows (i : Instr) : (code [i]).Follows (emit i) := .code fun _ _ => emit_emits i

theorem load_follows (dst : UInt8) (slot : Nat) :
    (code (loadCode file dst slot)).Follows (loadSlot file dst slot) :=
  .code fun _ _ => loadSlot_emits dst slot

theorem unary_follows (op : UnaryOp) (dst : UInt8) :
    (code (unaryCode file dst op)).Follows (unary file op dst) :=
  .code fun _ _ => unary_emits op dst

theorem binary_follows (op : BinaryOp) (dst rhs : UInt8) :
    (code (binaryCode file dst rhs op)).Follows (binary file op dst rhs) :=
  .code fun _ _ => binary_emits op dst rhs

theorem recordSpill_follows (t : Nat) : (recordSpill file t).Follows (do
    let base := (← get).vars.length
    if frameSize < base + t then Gen.overflow (base + t)
    (List.range t).forM fun live => storeSlot file (UInt8.ofNat live) (base + live)
    return base) := by
  refine .count fun d => ?_
  have hsave := @save_follows file 0 d.vars.length t
  simp only [Nat.zero_add] at hsave
  have hkeep := hsave.bind fun _ => .pure d.vars.length
  exact .ite (.bind (.overflow _) fun _ => hkeep) hkeep

theorem recordBeginCall_follows (count t : Nat) :
    (recordBeginCall file count t).Follows (beginCall file count t) := by
  have hspill := @recordSpill_follows file t
  have hreserve : (if count ≠ 0 then
      recordReserve file (t + count - 1) >>= fun _ => recordSpill file t
      else recordSpill file t).Follows _ :=
    .ite (.bind (recordReserve_follows _) fun _ => hspill) hspill
  exact .ite (.bind (.overflow _) fun _ => hreserve) hreserve

theorem recordEndCall_follows (name : String) (count t base : Nat) :
    (recordEndCall file name count t base).Follows (endCall file name count t base) := by
  have hcall (callee : String) : (Recorded.emitAll
      [.ofSymbol (Register.Op.descriptor .call) callee]).Follows
      (Gen.emit (.ofSymbol (Register.Op.descriptor .call) callee)) :=
    .emitAll fun _ _ => Gen.Emits.emit (.call callee : Line Instr)
  have hrestore := @restore_follows file base t
  refine .bind (save_follows t frameSize count) fun _ => .bind (.callee name) fun callee => ?_
  exact .bind (hcall callee) fun _ => .ite (.bind (emit_follows _) fun _ => hrestore) hrestore

mutual

theorem recordExpr_follows : ∀ (e : Expr) (t : Nat), (recordExpr file e t).Follows (expr file e t)
  | .number n, t => by
      rw [recordExpr, expr]
      exact .bind (recordReserve_follows t) fun _ => emit_follows _
  | .boolean b, t => by
      rw [recordExpr, expr]
      exact .bind (recordReserve_follows t) fun _ => emit_follows _
  | .identifier x, t => by
      rw [recordExpr, expr]
      refine .bind (recordReserve_follows t) fun _ => ?_
      exact .bind (.slot x) fun _ => load_follows _ _
  | .paren inner, t => by
      rw [recordExpr, expr]
      exact .bind (recordReserve_follows t) fun _ => recordExpr_follows inner t
  | .unary op operand, t => by
      rw [recordExpr, expr]
      refine .bind (recordReserve_follows t) fun _ => ?_
      exact .bind (recordExpr_follows operand t) fun _ => unary_follows op _
  | .binary op left right, t => by
      rw [recordExpr, expr]
      refine .bind (recordReserve_follows t) fun _ => .bind (recordReserve_follows _) fun _ => ?_
      refine .bind (recordExpr_follows left t) fun _ => ?_
      exact .bind (recordExpr_follows right (t + 1)) fun _ => binary_follows op _ _
  | .call name args, t => by
      rw [recordExpr, expr]
      refine .bind (recordReserve_follows t) fun _ => ?_
      refine .bind (recordBeginCall_follows _ t) fun _ => ?_
      exact .bind (recordExprs_follows args t) fun _ => recordEndCall_follows name _ t _

theorem recordExprs_follows : ∀ (es : List Expr) (t : Nat),
    (recordExprs file es t).Follows (exprs file es t)
  | [], t => by
      rw [recordExprs, exprs]
      exact .pure ()
  | e :: es, t => by
      rw [recordExprs, exprs]
      exact .bind (recordExpr_follows e t) fun _ => recordExprs_follows es (t + 1)

end

/-! ## Loads and stores -/

/-- The address of a load or store is moved into one register and the flag into another. -/
def frameAddressing (file : File) : Addressing where
  loadOp := Register.Op.descriptor .load
  storeOp := Register.Op.descriptor .store
  lead slot := [Instr.toInstruction (.mov file.address (Int32.ofNat slot)),
    Instr.toInstruction (.mov file.flag 0)]
  load register := Instr.toInstruction (.load (UInt8.ofNat register) file.address file.flag)
  store register := Instr.toInstruction (.store (UInt8.ofNat register) file.address file.flag)
  spills := True

variable {table : List (String × Nat)}

theorem not_accesses {i : Instr} (hload : i.op ≠ .load) (hstore : i.op ≠ .store) :
    ¬(frameAddressing file).Accesses i.toInstruction := by
  have hop : ∀ op : Register.Op, op.descriptor = Register.Op.descriptor .load ∨
      op.descriptor = Register.Op.descriptor .store → op = .load ∨ op = .store := by
    intro op
    cases op with
    | alu op => cases op <;> decide
    | _ => decide
  exact fun h => (hop i.op h).elim hload hstore

theorem placed_plain {is : List Instr} (h : ∀ i ∈ is, i.op ≠ .load ∧ i.op ≠ .store) :
    (frameAddressing file).Placed table ((Line.ofCode is).map Line.symbolic) :=
  Addressing.placed_ofCode fun i hi => not_accesses (h i hi).1 (h i hi).2

theorem lead_not_accesses (slot : Nat) :
    ∀ i ∈ (frameAddressing file).lead slot, ¬(frameAddressing file).Accesses i := by
  refine List.forall_mem_cons.mpr ⟨?_, List.forall_mem_singleton.mpr ?_⟩
  all_goals exact not_accesses (by simp [Instr.op]) (by simp [Instr.op])

theorem placed_load {register slot : Nat}
    (h : (frameAddressing file).Reaches table ((frameAddressing file).load register) slot) :
    (frameAddressing file).Placed table
      ((Line.ofCode (loadCode file (UInt8.ofNat register) slot)).map Line.symbolic) :=
  Addressing.placed_access (lead_not_accesses slot) h

theorem placed_store {register slot : Nat}
    (h : (frameAddressing file).Reaches table ((frameAddressing file).store register) slot) :
    (frameAddressing file).Placed table
      ((Line.ofCode (storeCode file (UInt8.ofNat register) slot)).map Line.symbolic) :=
  Addressing.placed_access (lead_not_accesses slot) h

theorem placed_save {first slot count : Nat} (h : ∀ i < count,
      (frameAddressing file).Reaches table ((frameAddressing file).store (first + i)) (slot + i)) :
    (frameAddressing file).Placed table
      ((Line.ofCode (saveCode file first slot count)).map Line.symbolic) := by
  rw [saveCode, Line.ofCode, List.map_flatMap, List.map_flatMap]
  exact .flatMap fun i hi => placed_store (h i (List.mem_range.mp hi))

theorem placed_restore {slot count : Nat} (h : ∀ i < count,
      (frameAddressing file).Reaches table ((frameAddressing file).load i) (slot + i)) :
    (frameAddressing file).Placed table
      ((Line.ofCode (restoreCode file slot count)).map Line.symbolic) := by
  rw [restoreCode, Line.ofCode, List.map_flatMap, List.map_flatMap]
  exact .flatMap fun i hi => placed_load (h i (List.mem_range.mp hi))

/-! ## Order -/

open Recorded (InOrder Steady)

theorem recordReserve_inOrder (t : Nat) :
    InOrder (frameAddressing file) table (recordReserve file t) fun r table' =>
      table' = table ∧ r = UInt8.ofNat t :=
  .ite (fun _ => .pure ⟨rfl, rfl⟩) fun _ => .refuse

theorem recordSpill_inOrder (t : Nat) :
    InOrder (frameAddressing file) table (recordSpill file t) fun base table' =>
      table' = table ∧ base = table.length ∧ table.length + t ≤ frameSize := by
  rw [recordSpill]
  refine InOrder.count.bind_keeping ?_
  rintro _ rfl
  refine .ite (fun _ => .overflow) fun hroom => ?_
  refine .bind_steady (.emitAll (placed_save fun i hi => ?_)) fun _ => .pure ⟨rfl, rfl, by omega⟩
  rw [Nat.zero_add]
  exact .keep trivial (by omega)

theorem recordBeginCall_inOrder (count t : Nat) :
    InOrder (frameAddressing file) table (recordBeginCall file count t) fun base table' =>
      table' = table ∧ base = table.length ∧ table.length + t ≤ frameSize ∧ count ≤ frameSize := by
  rw [recordBeginCall]
  refine .ite (fun _ => .overflow) fun hcount => ?_
  have hspill : InOrder (frameAddressing file) table (recordSpill file t) fun base table' =>
      table' = table ∧ base = table.length ∧ table.length + t ≤ frameSize ∧ count ≤ frameSize :=
    (recordSpill_inOrder t).mono fun _ _ h => ⟨h.1, h.2.1, h.2.2, not_lt.mp hcount⟩
  exact .ite (fun _ => (recordReserve_inOrder _).bind_keeping fun _ _ => hspill) fun _ => hspill

theorem recordEndCall_steady (name : String) {count t : Nat} (hcount : count ≤ frameSize)
    (hroom : table.length + t ≤ frameSize) :
    Steady (frameAddressing file) table (recordEndCall file name count t table.length) := by
  have hcall (callee : String) : (frameAddressing file).Placed table
      [.ofSymbol (Register.Op.descriptor .call) callee] :=
    Addressing.placed_of_not <| List.forall_mem_singleton.mpr <|
      not_or.mpr ⟨(by decide : Register.Op.descriptor .call ≠ Register.Op.descriptor .load),
        (by decide : Register.Op.descriptor .call ≠ Register.Op.descriptor .store)⟩
  have hrestore : Steady (frameAddressing file) table (code (restoreCode file table.length t)) :=
    .emitAll (placed_restore fun i hi => .restore trivial (by omega))
  rw [recordEndCall]
  refine .bind_steady (.emitAll (placed_save fun i hi => .pass _ (by omega))) fun _ => ?_
  refine .bind_steady (InOrder.look.mono fun _ _ h => h.1) fun callee => ?_
  refine .bind_steady (.emitAll (hcall callee)) fun _ => .ite (fun _ => ?_) fun _ => hrestore
  exact .bind_steady (.emitAll (placed_plain (by simp [Instr.op]))) fun _ => hrestore

mutual

theorem recordExpr_steady : ∀ (e : Expr) (t : Nat),
    Steady (frameAddressing file) table (recordExpr file e t)
  | .number n, t => by
      rw [recordExpr]
      refine (recordReserve_inOrder t).bind_keeping fun dst _ => ?_
      exact .emitAll (placed_plain (by simp [Instr.op]))
  | .boolean b, t => by
      rw [recordExpr]
      refine (recordReserve_inOrder t).bind_keeping fun dst _ => ?_
      exact .emitAll (placed_plain (by simp [Instr.op]))
  | .identifier x, t => by
      rw [recordExpr]
      refine (recordReserve_inOrder t).bind_keeping ?_
      rintro _ rfl
      refine (InOrder.slot x).bind_keeping ?_
      exact fun slot hslot => .emitAll (placed_load (.read t hslot))
  | .paren inner, t => by
      rw [recordExpr]
      exact (recordReserve_inOrder t).bind_keeping fun _ _ => recordExpr_steady inner t
  | .unary op operand, t => by
      rw [recordExpr]
      refine (recordReserve_inOrder t).bind_keeping fun dst _ => ?_
      refine .bind_steady (recordExpr_steady operand t) fun _ => .emitAll (placed_plain ?_)
      cases op <;> simp [unaryCode, invertCode, Instr.op]
  | .binary op left right, t => by
      rw [recordExpr]
      refine (recordReserve_inOrder t).bind_keeping fun dst _ => ?_
      refine (recordReserve_inOrder (t + 1)).bind_keeping fun rhs _ => ?_
      refine .bind_steady (recordExpr_steady left t) fun _ => ?_
      refine .bind_steady (recordExpr_steady right (t + 1)) fun _ => .emitAll (placed_plain ?_)
      cases hlowered : op.lowered.2 <;> simp [binaryCode, invertCode, hlowered, Instr.op]
  | .call name args, t => by
      rw [recordExpr]
      refine (recordReserve_inOrder t).bind_keeping fun _ _ => ?_
      refine (recordBeginCall_inOrder args.length t).bind_keeping ?_
      rintro _ ⟨rfl, hroom, hcount⟩
      exact .bind_steady (recordExprs_steady args t) fun _ =>
        recordEndCall_steady name hcount hroom

theorem recordExprs_steady : ∀ (es : List Expr) (t : Nat),
    Steady (frameAddressing file) table (recordExprs file es t)
  | [], t => by
      rw [recordExprs]
      exact .pure rfl
  | e :: es, t => by
      rw [recordExprs]
      exact .bind_steady (recordExpr_steady e t) fun _ => recordExprs_steady es (t + 1)

end

/-- The code generator of the register machine, recorded. -/
def recorder (file : File) : Recorder (generator file) where
  expr e := recordExpr file e 0
  expr_follows e := recordExpr_follows e 0

theorem recorder_inOrder (file : File) : (recorder file).InOrder (frameAddressing file) where
  expr _ e := recordExpr_steady e 0
  store table _ slot h := @placed_store file table 0 slot (.write 0 h)
  ret _ := placed_plain (by simp [pieces, Instr.op])
  zero _ := placed_plain (by simp [pieces, Instr.op])
  invert _ := placed_plain (by simp [pieces, invertCode, Instr.op])
  jump _ _ := placed_plain (by simp [pieces, Instr.op])
  cjump _ _ := placed_plain (by simp [pieces, Instr.op])

end DualMachine.RegisterCode
