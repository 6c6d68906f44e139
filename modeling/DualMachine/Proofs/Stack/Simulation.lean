import DualMachine.Proofs.Activation
import DualMachine.Proofs.Stack.Emission

/-!
# Expressions on the stack machine

The code of an expression pushes its value and leaves what was on the stack and
the frame of the activation alone, so an activation keeps the stack it began with.
Arguments are on the stack with the last one on top and are stored from there to the
slots after the frame (`passCode_trace`); that is the only access that can
leave memory although the activation's own frame is in it.
-/

namespace DualMachine

namespace StackCode

open Source
open Stack (Instr)

variable {code : List Instr} {s : State} {values : List Word}

/-! ## Instructions -/

theorem push_trace {w : Word} {part : List Instr} (hreads : Reads code s (.push w :: part))
    (hstack : s.holder = .stack values) :
    ∃ s', Trace code 1 s s' ∧ Reads code s' part ∧ s' = { s with
      holder := .stack (w :: values)
      pc := s.pc + width (Instr.push w) } :=
  ⟨_, hreads.step (Exec.push_eq (s := s.skip _) hstack w), hreads.next rfl rfl, rfl⟩

theorem alu_trace {op : Alu} {a b w : Word} {part : List Instr}
    (hreads : Reads code s (.alu op :: part)) (hstack : s.holder = .stack (a :: b :: values))
    (hw : op.eval a b = some w) :
    ∃ s', Trace code 1 s s' ∧ Reads code s' part ∧ s' = { s with
      holder := .stack (w :: values)
      pc := s.pc + width (Instr.alu op) } := by
  have hexec : Instr.exec (.alu op) (s.skip (width (Instr.alu op)))
      = .ok () { s with
        holder := .stack (w :: values)
        pc := s.pc + width (Instr.alu op) } := by
    rw [Instr.exec, Exec.bind_eq (Exec.pop_eq (s := s.skip _) hstack),
      Exec.bind_eq (Exec.pop_eq (by rfl)), Exec.bind_eq (Exec.compute_eq hw),
      Exec.push_eq (by rfl)]
    rfl
  exact ⟨_, hreads.step hexec, hreads.next rfl rfl, rfl⟩

theorem alu_faults {op : Alu} {a b : Word} {part : List Instr}
    (hreads : Reads code s (.alu op :: part)) (hstack : s.holder = .stack (a :: b :: values))
    (hw : op.eval a b = none) : Faults code .divisionByZero s := by
  have hexec : Instr.exec (.alu op) (s.skip (width (Instr.alu op)))
      = .error .divisionByZero
        { s.skip (width (Instr.alu op)) with holder := .stack values } := by
    rw [Instr.exec, Exec.bind_eq (Exec.pop_eq (s := s.skip _) hstack),
      Exec.bind_eq (Exec.pop_eq (by rfl)), Exec.bind_error_eq (Exec.compute_error hw)]
  exact hreads.faults hexec

/-! ## Slots -/

/-- The two instructions before every load and store. -/
theorem address_trace {slot : Nat} {part : List Instr}
    (hreads : Reads code s (.push (Int32.ofNat slot) :: .push 0 :: part))
    (hstack : s.holder = .stack values) :
    ∃ s', Trace code 2 s s' ∧ Reads code s' part ∧ s' = { s with
      holder := .stack (0 :: Int32.ofNat slot :: values)
      pc := s.pc + width (Instr.push (Int32.ofNat slot)) + width (Instr.push 0) } := by
  obtain ⟨s₁, hfirst, hreads₁, rfl⟩ := push_trace hreads hstack
  obtain ⟨s₂, hsecond, hreads₂, rfl⟩ := push_trace hreads₁ rfl
  exact ⟨_, hfirst.trans hsecond, hreads₂, rfl⟩

section

variable {base slot : Nat} (hstack : s.holder = .stack (0 :: Int32.ofNat slot :: values))
  (hbase : s.frameBase false = base) (hslot : slot < 2 ^ 31)

include hstack hbase hslot

theorem exec_load {w : Word} (hw : s.memory[base + slot]? = some w) :
    Instr.exec .load s = .ok () { s with holder := .stack (w :: values) } := by
  rw [Instr.exec, Exec.bind_eq (Exec.pop_eq hstack), Exec.bind_eq (Exec.pop_eq (by rfl))]
  exact Eq.trans (Exec.bind_eq (Exec.load_eq (by exact hbase) hslot (by exact hw)) _)
    (Exec.push_eq (by rfl) w)

theorem exec_load_error (hle : memorySize ≤ base + slot) :
    Instr.exec .load s = .error (.addressOutOfRange (base + slot : Nat))
      { s with holder := .stack values } := by
  rw [Instr.exec, Exec.bind_eq (Exec.pop_eq hstack), Exec.bind_eq (Exec.pop_eq (by rfl))]
  exact Exec.bind_error_eq (Exec.load_error (by exact hbase) hslot hle) _

end

section

variable {base slot : Nat} {w : Word}
  (hstack : s.holder = .stack (0 :: Int32.ofNat slot :: w :: values))
  (hbase : s.frameBase false = base) (hslot : slot < 2 ^ 31)

include hstack hbase hslot

theorem exec_store (hlt : base + slot < memorySize) :
    Instr.exec .store s = .ok () { s with
      holder := .stack values
      memory := s.memory.setIfInBounds (base + slot) w } := by
  rw [Instr.exec, Exec.bind_eq (Exec.pop_eq hstack), Exec.bind_eq (Exec.pop_eq (by rfl)),
    Exec.bind_eq (Exec.pop_eq (by rfl))]
  exact Exec.store_eq (by exact hbase) hslot hlt w

theorem exec_store_error (hle : memorySize ≤ base + slot) :
    Instr.exec .store s = .error (.addressOutOfRange (base + slot : Nat))
      { s with holder := .stack values } := by
  rw [Instr.exec, Exec.bind_eq (Exec.pop_eq hstack), Exec.bind_eq (Exec.pop_eq (by rfl)),
    Exec.bind_eq (Exec.pop_eq (by rfl))]
  exact Exec.store_error (by exact hbase) hslot hle w

end

theorem loadCode_trace {slot : Nat} {w : Word} (hreads : Reads code s (loadCode slot))
    (hstack : s.holder = .stack values) (hslot : slot < 2 ^ 31)
    (hw : s.memory[s.frameBase false + slot]? = some w) :
    Trace code 3 s { s with
      holder := .stack (w :: values)
      pc := s.pc + codeLength (loadCode slot) } := by
  obtain ⟨s₁, htrace, hreads₁, rfl⟩ := address_trace hreads hstack
  refine htrace.trans (hreads₁.step ?_)
  refine Eq.trans (exec_load (by rfl) (by rfl) hslot (by exact hw)) ?_
  simp only [State.skip, loadCode, codeLength_cons, codeLength_nil, Nat.add_zero, Nat.add_assoc]

theorem loadCode_faults {slot : Nat} (hreads : Reads code s (loadCode slot))
    (hstack : s.holder = .stack values) (hslot : slot < 2 ^ 31)
    (hle : memorySize ≤ s.frameBase false + slot) :
    ∃ k s', Trace code k s s' ∧ s'.calls = s.calls ∧
      Faults code (.addressOutOfRange (s.frameBase false + slot : Nat)) s' := by
  obtain ⟨s₁, htrace, hreads₁, rfl⟩ := address_trace hreads hstack
  exact ⟨2, _, htrace, rfl, hreads₁.faults (exec_load_error (by rfl) (by rfl) hslot hle)⟩

theorem storeCode_trace {slot : Nat} {w : Word} (hreads : Reads code s (storeCode slot))
    (hstack : s.holder = .stack (w :: values)) (hslot : slot < 2 ^ 31)
    (hlt : s.frameBase false + slot < memorySize) :
    Trace code 3 s { s with
      holder := .stack values
      memory := s.memory.setIfInBounds (s.frameBase false + slot) w
      pc := s.pc + codeLength (storeCode slot) } := by
  obtain ⟨s₁, htrace, hreads₁, rfl⟩ := address_trace hreads hstack
  refine htrace.trans (hreads₁.step ?_)
  refine Eq.trans (exec_store (by rfl) (by rfl) hslot hlt) ?_
  simp only [State.skip, storeCode, codeLength_cons, codeLength_nil, Nat.add_zero, Nat.add_assoc]

theorem storeCode_faults {slot : Nat} {w : Word} (hreads : Reads code s (storeCode slot))
    (hstack : s.holder = .stack (w :: values)) (hslot : slot < 2 ^ 31)
    (hle : memorySize ≤ s.frameBase false + slot) :
    ∃ k s', Trace code k s s' ∧ s'.calls = s.calls ∧
      Faults code (.addressOutOfRange (s.frameBase false + slot : Nat)) s' := by
  obtain ⟨s₁, htrace, hreads₁, rfl⟩ := address_trace hreads hstack
  exact ⟨2, _, htrace, rfl, hreads₁.faults (exec_store_error (by rfl) (by rfl) hslot hle)⟩

/-! ## Operators -/

/-- An operation with a constant on top. -/
theorem constant_alu_trace {op : Alu} {a b w : Word}
    (hreads : Reads code s [.push a, .alu op]) (hstack : s.holder = .stack (b :: values))
    (hw : op.eval a b = some w) :
    Trace code 2 s { s with
      holder := .stack (w :: values)
      pc := s.pc + codeLength [Instr.push a, .alu op] } := by
  obtain ⟨s₁, hpush, hreads₁, rfl⟩ := push_trace hreads hstack
  obtain ⟨s₂, halu, -, rfl⟩ := alu_trace hreads₁ rfl hw
  exact hpush.trans halu

theorem invertCode_trace {a : Word} (hreads : Reads code s invertCode)
    (hstack : s.holder = .stack (a :: values)) :
    Trace code 2 s { s with
      holder := .stack (Word.ofBool (a == 0) :: values)
      pc := s.pc + codeLength invertCode } := by
  refine constant_alu_trace hreads hstack ?_
  rw [Alu.eval, Bool.beq_comm]

theorem unaryCode_trace {op : UnaryOp} {a : Word} (hreads : Reads code s (unaryCode op))
    (hstack : s.holder = .stack (a :: values)) :
    Trace code 2 s { s with
      holder := .stack (op.apply a :: values)
      pc := s.pc + codeLength (unaryCode op) } := by
  cases op with
  | neg => exact constant_alu_trace hreads hstack (UnaryOp.apply_neg a)
  | not => exact invertCode_trace hreads hstack

theorem binaryCode_trace {op : BinaryOp} {a b w : Word} (hreads : Reads code s (binaryCode op))
    (hstack : s.holder = .stack (a :: b :: values)) (hw : op.apply a b = some w) :
    ∃ k, Trace code k s { s with
      holder := .stack (w :: values)
      pc := s.pc + codeLength (binaryCode op) } := by
  rw [op.apply_eq] at hw
  obtain ⟨r, hr, hw⟩ := Option.map_eq_some_iff.mp hw
  rw [binaryCode] at hreads ⊢
  obtain ⟨s₁, halu, hreads₁, rfl⟩ := alu_trace hreads hstack hr
  cases hinverted : op.lowered.2 with
  | false =>
      rw [hinverted] at hw
      obtain rfl : r = w := hw
      exact ⟨1, halu⟩
  | true =>
      rw [hinverted] at hw hreads₁
      obtain rfl : Word.ofBool (r == 0) = w := hw
      have h := halu.trans (invertCode_trace hreads₁ rfl)
      rw [Nat.add_assoc] at h
      exact ⟨3, h⟩

theorem binaryCode_faults {op : BinaryOp} {a b : Word} (hreads : Reads code s (binaryCode op))
    (hstack : s.holder = .stack (a :: b :: values)) (hw : op.apply a b = none) :
    Faults code .divisionByZero s := by
  rw [op.apply_eq] at hw
  exact alu_faults hreads hstack (Option.map_eq_none_iff.mp hw)

/-! ## Arguments -/

theorem passCode_succ (count : Nat) :
    passCode (count + 1) = storeCode (frameSize + count) ++ passCode count := by
  simp [passCode, List.range_succ]

/-- The topmost values, from the last argument down, get to the slots after the frame. -/
theorem passCode_trace {args : List Word} (hreads : Reads code s (passCode args.length))
    (hstack : s.holder = .stack (args ++ values)) (hslot : frameSize + args.length < 2 ^ 31)
    (hlt : args = [] ∨ s.frameBase false + frameSize + args.length ≤ memorySize) :
    ∃ k memory, Trace code k s { s with
        holder := .stack values
        memory
        pc := s.pc + codeLength (passCode args.length) } ∧
      (∀ i w, args.reverse[i]? = some w →
        memory[s.frameBase false + frameSize + i]? = some w) ∧
      ∀ a, a < s.frameBase false + frameSize ∨ s.frameBase false + frameSize + args.length ≤ a →
        memory[a]? = s.memory[a]? := by
  induction args generalizing s with
  | nil =>
      refine ⟨0, s.memory, ?_, fun i w hi => ?_, fun _ _ => rfl⟩
      · rw [show Holder.stack values = s.holder from hstack.symm]
        exact .refl s
      · cases hi
  | cons arg args ih =>
      -- the last argument is on top and goes to the highest slot
      rw [List.length_cons] at hreads hslot hlt ⊢
      rw [passCode_succ] at hreads ⊢
      have hroom : s.frameBase false + frameSize + (args.length + 1) ≤ memorySize :=
        hlt.resolve_left (List.cons_ne_nil arg args)
      have hstore := storeCode_trace hreads.left hstack (by omega) (by omega)
      rw [← Nat.add_assoc] at hstore
      have hreads₁ : Reads code { s with
          holder := .stack (args ++ values)
          memory := s.memory.setIfInBounds (s.frameBase false + frameSize + args.length) arg
          pc := s.pc + codeLength (storeCode (frameSize + args.length)) } (passCode args.length) :=
        hreads.right rfl rfl
      have hrest : s.frameBase false + frameSize + args.length ≤ memorySize := by omega
      obtain ⟨k, memory, htrace, hpassed, hother⟩ := ih hreads₁ rfl (by omega) (.inr hrest)
      refine ⟨3 + k, memory, ?_, fun i w hi => ?_, fun a ha => ?_⟩
      · rw [codeLength_append, ← Nat.add_assoc]
        exact hstore.trans htrace
      · rw [List.reverse_cons, List.getElem?_append, List.length_reverse] at hi
        by_cases hlast : i < args.length
        · rw [if_pos hlast] at hi
          exact hpassed i w hi
        · rw [if_neg hlast] at hi
          obtain ⟨hindex, rfl⟩ := List.getElem?_eq_some_iff.mp hi
          rw [List.length_singleton] at hindex
          obtain rfl : i = args.length := by omega
          rw [List.getElem_singleton]
          refine (hother _ (.inr (Nat.le_refl _))).trans ?_
          exact Vector.getElem?_setIfInBounds_self_of_lt (by omega)
      · refine (hother a ?_).trans (Vector.getElem?_setIfInBounds_ne (by omega))
        show a < s.frameBase false + frameSize ∨ s.frameBase false + frameSize + args.length ≤ a
        omega

/-- Where memory has no next frame, the last argument faults. -/
theorem passCode_faults {args : List Word} (hreads : Reads code s (passCode args.length))
    (hstack : s.holder = .stack (args ++ values)) (hslot : frameSize + args.length < 2 ^ 31)
    (hargs : args ≠ []) (hle : memorySize ≤ s.frameBase false + frameSize) :
    ∃ k s' address, Trace code k s s' ∧ s'.calls = s.calls ∧
      Faults code (.addressOutOfRange address) s' := by
  cases args with
  | nil => exact absurd rfl hargs
  | cons arg args =>
      rw [List.length_cons] at hreads hslot
      rw [passCode_succ] at hreads
      obtain ⟨k, s', htrace, hcalls, hfault⟩ :=
        storeCode_faults hreads.left hstack (by omega) (by omega)
      exact ⟨k, s', _, htrace, hcalls, hfault⟩

/-! ## Expressions -/

/-- The stack machine as a target: an activation keeps the stack it began with, and
values are returned on top of it. -/
def target : Target Instr where
  toPieces := pieces
  Kept := List Word
  idle values holder := holder = .stack values
  value values w holder := holder = .stack (w :: values)
  rightFirst := true
  spills := false

section

variable {W : World target} {F : Frame W.strict} {env : Env} {n : Nat}

theorem constant_runs {v : Word} (hin : W.Inside F env (target.idle values) s)
    (hplaced : W.Placed s.pc (Line.ofCode [.push v])) :
    W.Runs n s (pure v) fun w s' =>
      W.Inside F env (target.value values w) s' ∧
      s'.pc = s.pc + Line.length (Line.ofCode [Instr.push v]) := by
  obtain ⟨s₁, hpush, -, rfl⟩ := push_trace (hin.reads hplaced) hin.holder
  refine .after hpush (.pure ⟨hin.operands rfl, ?_⟩) (Nat.le_add_right n 1)
  rw [Line.length_ofCode]
  rfl

theorem identifier_runs {scope : Scope} {x : String} (hx : x ∈ env.map Prod.fst)
    (hin : W.Inside F env (target.idle values) s)
    (hplaced : W.Placed s.pc (Line.ofCode (loadCode ((env.map Prod.fst).idxOf x)))) :
    W.Runs n s ((Expr.identifier x).eval (W.context F scope n) env) fun w s' =>
      W.Inside F env (target.value values w) s' ∧
      s'.pc = s.pc + Line.length (Line.ofCode (loadCode ((env.map Prod.fst).idxOf x))) := by
  have hbase := hin.frameBase_eq
  have hslot : (env.map Prod.fst).idxOf x < 2 ^ 31 :=
    slot_lt (Nat.le_add_right_of_le (Nat.le_of_lt (hin.idxOf_lt hx)))
  refine World.lookup_runs hin hx (fun w hw => ?_) fun hle => ?_
  · rw [← hbase] at hw
    refine .after (loadCode_trace (hin.reads hplaced) hin.holder hslot hw)
      (.pure ⟨hin.operands rfl, ?_⟩) (Nat.le_add_right n 3)
    rw [Line.length_ofCode]
  · rw [← hbase] at hle
    obtain ⟨k, s', htrace, hcalls, hfault⟩ :=
      loadCode_faults (hin.reads hplaced) hin.holder hslot hle
    exact ⟨k, s', _, htrace, hcalls, hfault⟩

/-- Operands from right to left: the left one ends on top. -/
theorem operands_runs {x y : May Word} {pc : Nat} (length : Nat)
    (hy : W.Runs n s y fun w s' => W.Inside F env (target.value values w) s' ∧ s'.pc = pc)
    (hx : ∀ b s₁, W.Inside F env (target.value values b) s₁ → s₁.pc = pc →
      W.Runs n s₁ x fun w s' =>
        W.Inside F env (target.value (b :: values) w) s' ∧ s'.pc = s₁.pc + length) :
    W.Runs n s (inOrder target.rightFirst x y) fun ab s' =>
      W.Inside F env (target.value (ab.2 :: values) ab.1) s' ∧ s'.pc = pc + length := by
  refine .bind hy ?_
  rintro b s₁ ⟨hin₁, hpc₁⟩
  refine .bind (hx b s₁ hin₁ hpc₁) ?_
  rintro a s₂ ⟨hin₂, hpc₂⟩
  exact .pure ⟨hin₂, by rw [hpc₂, hpc₁]⟩

theorem operator_runs {op : BinaryOp} {a b : Word}
    (hin : W.Inside F env (target.value (b :: values) a) s)
    (hplaced : W.Placed s.pc (Line.ofCode (binaryCode op))) :
    W.Runs n s (valueOr .divisionByZero (op.apply a b)) fun w s' =>
      W.Inside F env (target.value values w) s' ∧
      s'.pc = s.pc + Line.length (Line.ofCode (binaryCode op)) := by
  rw [Line.length_ofCode]
  cases hw : op.apply a b with
  | none => exact .divides (binaryCode_faults (hin.reads hplaced) hin.holder hw)
  | some w =>
      obtain ⟨k, htrace⟩ := binaryCode_trace (hin.reads hplaced) hin.holder hw
      exact .after htrace (.pure ⟨hin.operands rfl, rfl⟩) (Nat.le_add_right n k)

/-- Arguments, the last one on top, are passed and the function is called. -/
theorem call_runs (hcalls : W.Calls n) {scope : Scope} {f : String} {ws : List Word}
    (hin : W.Inside F env (target.idle (ws.reverse ++ values)) s) (hlen : ws.length ≤ frameSize)
    (hplaced : W.Placed s.pc
      (Line.ofCode (passCode ws.length) ++ [.call (scope.qualify f)])) :
    W.Runs n s ((W.context F scope n).call f ws) fun w s' =>
      W.Inside F env (target.value values w) s' ∧
      s'.pc = s.pc + Line.length
        (Line.ofCode (passCode ws.length) ++ [.call (scope.qualify f)]) := by
  have hbase := hin.frameBase_eq
  have hreads := hin.reads hplaced.left
  rw [← List.length_reverse] at hreads
  have hsmall : frameSize + ws.reverse.length < 2 ^ 31 := by
    rw [List.length_reverse]
    exact slot_lt (Nat.add_le_add_left hlen frameSize)
  by_cases henter : F.depth < frameCount ∨ W.strict = false ∧ ws.length = 0
  · have hroom : ws.reverse = [] ∨
        s.frameBase false + frameSize + ws.reverse.length ≤ memorySize := by
      rw [hbase, List.reverse_eq_nil_iff, ← List.length_eq_zero_iff, List.length_reverse]
      exact World.room_of_enter henter hlen
    obtain ⟨k, memory, htrace, hpassed, hother⟩ := passCode_trace hreads hin.holder hsmall hroom
    rw [hbase, List.reverse_reverse] at hpassed
    rw [hbase] at hother
    rw [List.length_reverse] at htrace
    have hvars := hin.length_le
    have hin₁ : W.Inside F env (target.idle values) { s with
        holder := .stack values
        memory
        pc := s.pc + codeLength (passCode ws.length) } :=
      hin.of_below rfl rfl rfl fun a ha => hother a (.inl (by omega))
    have hcode := hplaced.right
    rw [Line.length_ofCode] at hcode
    refine .after htrace ((World.passed_runs hcalls hin₁ (fun i w hi _ => hpassed i w hi) hcode
      henter).mono fun w s' hcalled => ⟨?_, ?_⟩) (Nat.le_add_right n k)
    · exact hin₁.of_below hcalled.program hcalled.calls hcalled.holder fun a ha =>
        hin₁.below_called hcalled (by omega)
    · rw [hcalled.pc, Line.length_append, Line.length_ofCode, Nat.add_assoc]
      rfl
  · refine World.refused_runs hin henter fun hsome hle => ?_
    rw [← hbase] at hle
    rw [← List.length_reverse] at hsome
    exact passCode_faults hreads hin.holder hsmall (List.ne_nil_of_length_pos hsome) hle

mutual

theorem expr_runs (hcalls : W.Calls n) {scope : Scope} :
    ∀ (e : Expr) (s : State) (values : List Word), ExprFits (env.map Prod.fst) e →
      W.Inside F env (target.idle values) s →
      W.Placed s.pc (exprCode scope (env.map Prod.fst) e) →
      W.Runs n s (e.eval (W.context F scope n) env) fun w s' =>
        W.Inside F env (target.value values w) s' ∧
        s'.pc = s.pc + Line.length (exprCode scope (env.map Prod.fst) e)
  | .number v, s, values, _, hin, hplaced => by
      rw [exprCode] at hplaced ⊢
      rw [Expr.eval]
      exact constant_runs hin hplaced
  | .boolean b, s, values, _, hin, hplaced => by
      rw [exprCode] at hplaced ⊢
      rw [Expr.eval]
      exact constant_runs hin hplaced
  | .identifier x, s, values, hfits, hin, hplaced => by
      rw [ExprFits] at hfits
      rw [exprCode] at hplaced ⊢
      exact identifier_runs hfits hin hplaced
  | .paren inner, s, values, hfits, hin, hplaced => by
      rw [ExprFits] at hfits
      rw [exprCode] at hplaced ⊢
      rw [Expr.eval]
      exact expr_runs hcalls inner s values hfits hin hplaced
  | .unary op operand, s, values, hfits, hin, hplaced => by
      rw [ExprFits] at hfits
      rw [exprCode] at hplaced ⊢
      rw [Expr.eval]
      refine .bind (expr_runs hcalls operand s values hfits hin hplaced.left) ?_
      rintro a s₁ ⟨hin₁, hpc₁⟩
      have hop := hplaced.right
      rw [← hpc₁] at hop
      refine .after (unaryCode_trace (hin₁.reads hop) hin₁.holder)
        (.pure ⟨hin₁.operands rfl, ?_⟩) (Nat.le_add_right n 2)
      show s₁.pc + _ = _
      rw [hpc₁, Line.length_append, Line.length_ofCode, Nat.add_assoc]
  | .binary op left right, s, values, hfits, hin, hplaced => by
      rw [ExprFits] at hfits
      rw [exprCode] at hplaced ⊢
      rw [Expr.eval, W.context_rightFirst]
      refine .bind (operands_runs (Line.length (exprCode scope (env.map Prod.fst) left))
        (expr_runs hcalls right s values hfits.1 hin hplaced.left.left)
        fun b s₁ hin₁ hpc₁ => ?_) ?_
      · have hplaced₁ := hplaced.left.right
        rw [← hpc₁] at hplaced₁
        exact expr_runs hcalls left s₁ (b :: values) hfits.2 hin₁ hplaced₁
      · rintro ⟨a, b⟩ s₂ ⟨hin₂, hpc₂⟩
        have hop := hplaced.right
        rw [Line.length_append, ← Nat.add_assoc, ← hpc₂] at hop
        refine (operator_runs hin₂ hop).mono ?_
        rintro w s₃ ⟨hin₃, hpc₃⟩
        refine ⟨hin₃, ?_⟩
        rw [hpc₃, hpc₂]
        simp only [Line.length_append, Nat.add_assoc]
  | .call f args, s, values, hfits, hin, hplaced => by
      rw [ExprFits] at hfits
      rw [exprCode] at hplaced ⊢
      rw [Expr.eval]
      refine .bind (exprs_runs hcalls args s values hfits.2 hin hplaced.left) ?_
      rintro ws s₁ ⟨hin₁, hlen, hpc₁⟩
      have hcall := hplaced.right
      rw [← hpc₁, ← hlen] at hcall
      refine (call_runs hcalls hin₁ (hlen ▸ hfits.1) hcall).mono ?_
      rintro w s₂ ⟨hin₂, hpc₂⟩
      exact ⟨hin₂, by rw [hpc₂, hpc₁, hlen, Line.length_append (exprsCode _ _ _), Nat.add_assoc]⟩

theorem exprs_runs (hcalls : W.Calls n) {scope : Scope} :
    ∀ (es : List Expr) (s : State) (values : List Word), ExprsFit (env.map Prod.fst) es →
      W.Inside F env (target.idle values) s →
      W.Placed s.pc (exprsCode scope (env.map Prod.fst) es) →
      W.Runs n s (Expr.evalAll (W.context F scope n) env es) fun ws s' =>
        W.Inside F env (target.idle (ws.reverse ++ values)) s' ∧ ws.length = es.length ∧
        s'.pc = s.pc + Line.length (exprsCode scope (env.map Prod.fst) es)
  | [], s, values, _, hin, _ => by
      rw [Expr.evalAll, exprsCode]
      exact .pure ⟨hin, rfl, rfl⟩
  | e :: es, s, values, hfits, hin, hplaced => by
      rw [ExprsFit] at hfits
      rw [exprsCode] at hplaced ⊢
      rw [Expr.evalAll]
      refine .bind (expr_runs hcalls e s values hfits.1 hin hplaced.left) ?_
      rintro w s₁ ⟨hin₁, hpc₁⟩
      have hplaced₁ := hplaced.right
      rw [← hpc₁] at hplaced₁
      refine .bind (exprs_runs hcalls es s₁ (w :: values) hfits.2 hin₁ hplaced₁) ?_
      rintro ws s₂ ⟨hin₂, hlen, hpc₂⟩
      refine .pure ⟨?_, ?_, ?_⟩
      · rw [List.reverse_cons, List.append_assoc]
        exact hin₂
      · rw [List.length_cons, List.length_cons, hlen]
      · rw [hpc₂, hpc₁, Line.length_append, Nat.add_assoc]

end

end

/-! ## The target -/

theorem target_piecesSound : target.PiecesSound where
  jumpLength_eq _ := rfl
  zero := by
    intro code s values hreads hstack
    obtain ⟨s₁, hpush, -, rfl⟩ := push_trace hreads hstack
    exact ⟨1, _, Nat.one_pos, hpush, rfl⟩
  invert := by
    intro code s values w hreads hstack
    exact ⟨2, _, Nat.two_pos, invertCode_trace hreads hstack, rfl⟩
  jump := by
    intro code s values offset dest hreads hstack hdest hle
    obtain ⟨s₁, hpush, hreads₁, rfl⟩ := push_trace hreads hstack
    have hlength : codeLength (target.jump offset)
      = width (Instr.push offset) + width Instr.jump := rfl
    refine ⟨2, .stack values, Nat.two_pos, hpush.trans (hreads₁.step ?_), rfl⟩
    show Instr.exec .jump _ = _
    rw [Instr.exec, Exec.bind_eq (Exec.pop_eq (by rfl))]
    refine Exec.jumpBy_eq ?_ (hreads.size_eq.symm ▸ hle)
    -- the jump counts from its own end, and the push before it belongs to its length
    show (dest : Int) = (s.pc + width (Instr.push offset) + width Instr.jump : Nat) + _
    rw [hdest, hlength]
    omega
  cjump := by
    intro code s values w offset dest hreads hstack hdest hle
    obtain ⟨s₁, hpush, hreads₁, rfl⟩ := push_trace hreads hstack
    have hlength : codeLength (target.cjump offset)
      = width (Instr.push offset) + width Instr.cjump := rfl
    refine ⟨2, .stack values, Nat.two_pos, hpush.trans (hreads₁.step ?_), rfl⟩
    show Instr.exec .cjump _ = _
    rw [Instr.exec, Exec.bind_eq (Exec.pop_eq (by rfl)), Exec.bind_eq (Exec.pop_eq (by rfl))]
    by_cases hzero : w = 0
    · rw [if_neg (not_not_intro hzero), if_pos hzero, hlength, ← Nat.add_assoc]
      rfl
    · rw [if_pos hzero, if_neg hzero]
      refine Exec.jumpBy_eq ?_ (hreads.size_eq.symm ▸ hle)
      show (dest : Int) = (s.pc + width (Instr.push offset) + width Instr.cjump : Nat) + _
      rw [hdest, hlength]
      omega
  ret := by
    intro code s values w back rest hreads _ hcalls
    exact ⟨1, hreads.step (Exec.ret_eq hcalls)⟩
  store := by
    intro code s values w slot hreads hstack hlt hslot
    exact ⟨3, _, rfl, storeCode_trace hreads hstack (slot_lt (by omega)) hlt⟩
  store_fault := by
    intro code s values w slot hreads hstack hle hslot
    exact storeCode_faults hreads hstack (slot_lt (by omega)) hle

theorem target_sound : target.Sound where
  toPiecesSound := target_piecesSound
  expr := by
    intro W n hcalls scope F values e env s hfits hin hplaced
    exact expr_runs hcalls e s values hfits hin hplaced

end StackCode

end DualMachine
