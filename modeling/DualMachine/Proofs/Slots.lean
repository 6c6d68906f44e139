import DualMachine.Proofs.Register.Recording
import DualMachine.Proofs.Stack.Recording

/-!
# Slots during compilation

A backend is `Observed` together with the recorded form of its code generator. What is recorded is
the compilation itself: it comes to the same function or error, and every instruction of the
function was appended at a recorded moment. At each of them, inside blocks and measurements and
after a failure too, the ledger is tidy, and a load or store that is appended goes to the slot that
the table has for a variable, to a register that is kept above the variables, or to an argument
behind the frame (`slots_in_order`).
-/

namespace DualMachine

open Source

/-- A backend with the recorded form of its code generator. -/
structure Observed where
  backend : Backend
  block : List Stmt → Gen Unit
  /-- Compiles a body, recorded. -/
  recordBody : Body → Recorded Unit
  /-- Compiles a block, recorded. -/
  recordBlock : List Stmt → Recorded Unit
  frameAddressing : Addressing

def RegisterCode.observed (file : File) : Observed where
  backend := backend file
  block := block file
  recordBody := (recorder file).body
  recordBlock := (recorder file).block
  frameAddressing := frameAddressing file

def StackCode.observed : Observed where
  backend := backend
  block := block
  recordBody := recorder.body
  recordBlock := recorder.block
  frameAddressing := frameAddressing

/-- The function that a recorded compilation comes to. -/
def Recording.function (r : Recording Unit) (name : String) (arity : Nat) :
    Except CompileError CompiledFunction :=
  match r.result with
  | .ok _ ledger => .ok { name, arity, body := ledger.code.toList }
  | .error e _ => .error e

namespace Observed

/-- The backends there are. -/
inductive Provided : Observed → Prop where
  | register (file : RegisterCode.File) : Provided (RegisterCode.observed file)
  | stack : Provided StackCode.observed

/-- The recorded form follows the backend, and goes through moments in order. -/
structure Faithful (O : Observed) : Prop where
  body_follows : ∀ b, (O.recordBody b).Follows (O.backend.compileBody b)
  body_steady : ∀ table b, Recorded.Steady O.frameAddressing table (O.recordBody b)
  block_follows : ∀ ss, (O.recordBlock ss).Follows (O.block ss)
  block_eq : ∀ ss, ∃ x, O.recordBlock ss = Recorded.inBlock x

theorem Provided.faithful {O : Observed} (h : O.Provided) : O.Faithful := by
  cases h with
  | register file =>
      exact ⟨(RegisterCode.recorder file).body_follows,
        fun table b => Recorder.body_steady (RegisterCode.recorder_inOrder file) b table,
        (RegisterCode.recorder file).block_follows, fun ss => ⟨_, rfl⟩⟩
  | stack =>
      exact ⟨StackCode.recorder.body_follows,
        fun table b => Recorder.body_steady StackCode.recorder_inOrder b table,
        StackCode.recorder.block_follows, fun ss => ⟨_, rfl⟩⟩

variable (O : Observed) (scope : Scope) (d : Definition)

/-- The code of a function: its arguments take the first slots. -/
def generate : Recorded Unit := do
  Recorded.declareAll d.args
  O.recordBody d.body

/-- The recorded compilation of a function. -/
def compile : Recording Unit := (O.generate d).run { function := scope.define d.name, scope }

variable {O}

theorem Faithful.compileFunction_eq (hO : O.Faithful) :
    O.backend.compileFunction scope d
      = (O.compile scope d).function (scope.define d.name) d.args.length := by
  have hfollows : (O.generate d).Follows (do
      d.args.forM fun arg => do let _ ← Gen.declare arg
      O.backend.compileBody d.body) :=
    .bind (.declareAll d.args) fun _ => hO.body_follows d.body
  -- both begin with no variables
  have hrun : (O.compile scope d).result = _ :=
    hfollows { function := scope.define d.name, scope }
  rw [Backend.compileFunction, Recording.function]
  split
  case h_1 u draft hok =>
      rw [hrun, hok]
      rfl
  case h_2 e draft herror =>
      rw [hrun, herror]
      rfl

theorem Faithful.compile_inOrder (hO : O.Faithful) :
    (∀ m ∈ (O.compile scope d).moments, m.InOrder O.frameAddressing) ∧
      (Ledger.left (O.compile scope d).result).Tidy := by
  have hgenerate : Recorded.InOrder O.frameAddressing [] (O.generate d) fun _ _ => True :=
    (Recorded.InOrder.declareAll d.args []).bind fun _ table _ =>
      (hO.body_steady table d.body).mono fun _ _ _ => trivial
  obtain ⟨hmoments, hleft, -⟩ := hgenerate _ rfl (Ledger.tidy_empty (scope.define d.name) scope)
  exact ⟨hmoments, hleft⟩

/-- The instructions of a function are appended at moments of its compilation. -/
theorem exists_moment {f : CompiledFunction} {name : String} {arity : Nat}
    (h : (O.compile scope d).function name arity = .ok f) {front back : List Instruction}
    {i : Instruction} (hbody : f.body = front ++ i :: back) :
    ∃ m ∈ (O.compile scope d).moments, m.next = some i ∧ m.ledger.code.toList = front := by
  obtain ⟨added, hcode, hadded⟩ :=
    (O.generate d).accounts { function := scope.define d.name, scope }
  change (Ledger.left (O.compile scope d).result).code.toList = [] ++ added at hcode
  rw [Recording.function] at h
  cases hresult : (O.compile scope d).result with
  | error e ledger =>
      rw [hresult] at h
      cases h
  | ok u ledger =>
      rw [hresult] at h hcode
      obtain rfl := Except.ok.inj h
      exact hadded front i back (hcode.symm.trans hbody)

end Observed

/-- Slots stay in order while a function is compiled, whether it is accepted or not:

* the recorded compilation comes to the same function or error;
* at each of its moments, the table relates the variables in scope one to one with the slots from 0
  to their number, the frame has room for them, the size is that of the code, and a load or store
  that is appended goes to the slot that the table has for a variable, to one above all of them
  where a register is kept, or to an argument behind the frame;
* so is the ledger that is left, also by a failure;
* each instruction of the function is appended at one of the moments;
* a block, which on the ledger of a draft does what the backend does, leaves the table exactly as
  it found it, also when it fails. -/
theorem slots_in_order {O : Observed} (hO : O.Provided) (scope : Scope) (d : Definition) :
    O.backend.compileFunction scope d
      = (O.compile scope d).function (scope.define d.name) d.args.length ∧
    (∀ m ∈ (O.compile scope d).moments, m.InOrder O.frameAddressing) ∧
    (Ledger.left (O.compile scope d).result).Tidy ∧
    (∀ f, O.backend.compileFunction scope d = .ok f →
      ∀ front i back, f.body = front ++ i :: back →
        ∃ m ∈ (O.compile scope d).moments, m.next = some i ∧ m.ledger.code.toList = front) ∧
    ∀ ss, (O.recordBlock ss).Follows (O.block ss) ∧
      ∀ c, (Ledger.left ((O.recordBlock ss).run c).result).table = c.table := by
  have hF := hO.faithful
  have hcompile := hF.compileFunction_eq scope d
  obtain ⟨hmoments, hleft⟩ := hF.compile_inOrder scope d
  refine ⟨hcompile, hmoments, hleft, fun f hf front i back hbody => ?_,
    fun ss => ⟨hF.block_follows ss, fun c => ?_⟩⟩
  · exact Observed.exists_moment scope d (hcompile.symm.trans hf) hbody
  · obtain ⟨x, hx⟩ := hF.block_eq ss
    rw [hx]
    exact Recorded.table_inBlock x c

/-- A variable that is declared twice in a loop, after a call in the middle of an expression. -/
def redeclared : Definition :=
  ⟨"f", ["a"], .block [.while (.identifier "a")
    [.var "x" (.binary .add (.number 1) (.call "g" [.identifier "a"])), .var "x" (.number 2)]]⟩

/-- The body of the loop fails while it is measured, after a register has been kept above `a`. -/
theorem slots_in_order_redeclared :
    (RegisterCode.backend .standard).compileFunction .root redeclared
      = .error (.duplicateVariable "f" "x") ∧
    (∃ m ∈ ((RegisterCode.observed .standard).compile .root redeclared).moments,
      m.next = some ((RegisterCode.frameAddressing .standard).store 0) ∧
      m.ledger.table = [("a", 0)] ∧ m.InOrder (RegisterCode.frameAddressing .standard)) ∧
    (Ledger.left ((RegisterCode.observed .standard).compile .root redeclared).result).table
      = [("a", 0)] ∧
    (Ledger.left ((RegisterCode.observed .standard).compile .root redeclared).result).Tidy := by
  obtain ⟨-, hmoments, hleft, -, -⟩ :=
    slots_in_order (.register .standard) .root redeclared
  have hany : ((RegisterCode.observed .standard).compile .root redeclared).moments.any
      (fun m => m.next = some ((RegisterCode.frameAddressing .standard).store 0) &&
        m.ledger.table = [("a", 0)]) = true := by decide +kernel
  obtain ⟨m, hm, hkept⟩ := List.any_eq_true.mp hany
  obtain ⟨hnext, htable⟩ : m.next = some ((RegisterCode.frameAddressing .standard).store 0) ∧
      m.ledger.table = [("a", 0)] := by simpa using hkept
  exact ⟨by decide +kernel, ⟨m, hm, hnext, htable, hmoments m hm⟩, by decide +kernel, hleft⟩

end DualMachine
