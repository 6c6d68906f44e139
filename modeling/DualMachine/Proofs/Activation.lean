import DualMachine.Proofs.Target

/-!
# Activations follow their evaluation

For a sound target and a linked program, code does what the evaluation of its
source says: statements (`statement_runs`), by induction over the syntax, with a
second induction over the rounds of a loop (`loop_runs`); bodies (`body_runs`); and
calls (`calls_run`), by induction over the fuel. A call with fuel `n + 1` makes a
step into a body that runs with fuel `n`, and the body relies on calls with
fuel `n` in turn.

Parameters without an argument have the words that the frame already holds, which
is one of the answers of an evaluation where missing arguments can be any words.
-/

namespace DualMachine

open Source

/-! ## Variables -/

namespace Source.Env

theorem lookup_eq (env : Env) (x : String) :
    env.lookup x = (env.map Prod.snd)[(env.map Prod.fst).idxOf x]? := by
  induction env with
  | nil => rfl
  | cons entry env ih =>
      obtain ⟨y, v⟩ := entry
      rw [List.map_cons, List.map_cons, List.idxOf_cons, List.lookup_cons]
      by_cases hxy : x = y
      · subst hxy
        simp
      · have hyx : (y == x) = false := beq_false_of_ne (Ne.symm hxy)
        have hxy' : (x == y) = false := beq_false_of_ne hxy
        simp only [hyx, hxy', cond_false, List.getElem?_cons_succ]
        exact ih

/-- Assignment changes the value of the slot and no name. -/
theorem assign_eq {env : Env} {x : String} (hx : x ∈ env.map Prod.fst) (w : Word) :
    ∃ env', env.assign x w = some env' ∧ env'.map Prod.fst = env.map Prod.fst ∧
      env'.map Prod.snd = (env.map Prod.snd).set ((env.map Prod.fst).idxOf x) w := by
  induction env with
  | nil => cases hx
  | cons entry env ih =>
      obtain ⟨y, v⟩ := entry
      rw [Env.assign]
      by_cases hxy : x = y
      · subst hxy
        exact ⟨(x, w) :: env, if_pos rfl, rfl, by simp⟩
      · have hmem : x ∈ env.map Prod.fst := by simpa [hxy] using hx
        obtain ⟨env', hassign, hfst, hsnd⟩ := ih hmem
        have hyx : (y == x) = false := beq_false_of_ne (Ne.symm hxy)
        refine ⟨(y, v) :: env', ?_, ?_, ?_⟩
        · rw [if_neg hxy, hassign]
          rfl
        · rw [List.map_cons, hfst, List.map_cons]
        · simp only [List.map_cons, hsnd, List.idxOf_cons, hyx, cond_false, List.set_cons_succ]

/-- The variables `env'` are those of `env` but for the value `w` in one slot, which
can be a new one. -/
def Updates (slot : Nat) (w : Word) (env env' : Env) : Prop :=
  ∀ i v, (env'.map Prod.snd)[i]? = some v →
    i = slot ∧ v = w ∨ i ≠ slot ∧ (env.map Prod.snd)[i]? = some v

theorem updates_declare (env : Env) (x : String) (w : Word) :
    Updates env.length w env (env ++ [(x, w)]) := by
  intro i v hi
  rw [List.map_append, List.getElem?_append, List.length_map] at hi
  by_cases hlt : i < env.length
  · rw [if_pos hlt] at hi
    exact .inr ⟨Nat.ne_of_lt hlt, hi⟩
  · rw [if_neg hlt, List.map_singleton] at hi
    obtain ⟨hindex, rfl⟩ := List.getElem?_eq_some_iff.mp hi
    rw [List.length_singleton] at hindex
    exact .inl ⟨by omega, List.getElem_singleton hindex⟩

theorem updates_set {env env' : Env} {slot : Nat} {w : Word}
    (h : env'.map Prod.snd = (env.map Prod.snd).set slot w) : Updates slot w env env' := by
  intro i v hi
  rw [h] at hi
  by_cases hslot : slot = i
  · subst hslot
    rw [List.getElem?_set_self'] at hi
    obtain ⟨_, -, rfl⟩ := Option.map_eq_some_iff.mp hi
    exact .inl ⟨rfl, rfl⟩
  · rw [List.getElem?_set_ne hslot] at hi
    exact .inr ⟨Ne.symm hslot, hi⟩

end Source.Env

theorem Source.Stmt.prefix_declared (vars : List String) (s : Stmt) : vars <+: s.declared vars := by
  cases s with
  | var x value => exact List.prefix_append vars [x]
  | _ => exact List.prefix_rfl

theorem Source.Stmt.prefix_foldl_declared (vars : List String) (ss : List Stmt) :
    vars <+: ss.foldl Stmt.declared vars := by
  induction ss generalizing vars with
  | nil => exact List.prefix_rfl
  | cons s ss ih => exact (s.prefix_declared vars).trans (ih _)

/-! ## Words in memory -/

namespace HoldsWords

variable {memory : Vector Word memorySize} {base slot : Nat} {ws ws' : List Word} {w : Word}

theorem take (h : HoldsWords memory base ws) (n : Nat) : HoldsWords memory base (ws.take n) := by
  intro i v hi hlt
  rw [List.getElem?_take] at hi
  by_cases hin : i < n
  · rw [if_pos hin] at hi
    exact h i v hi hlt
  · rw [if_neg hin] at hi
    cases hi

theorem of_eq {memory' : Vector Word memorySize} (h : HoldsWords memory base ws)
    (hmem : ∀ i < ws.length, memory'[base + i]? = memory[base + i]?) :
    HoldsWords memory' base ws := by
  intro i v hi hlt
  obtain ⟨hlen, -⟩ := List.getElem?_eq_some_iff.mp hi
  rw [hmem i hlen]
  exact h i v hi hlt

/-- A word written to a slot. -/
theorem store (h : HoldsWords memory base ws)
    (hws : ∀ i v, ws'[i]? = some v → i = slot ∧ v = w ∨ i ≠ slot ∧ ws[i]? = some v) :
    HoldsWords (memory.setIfInBounds (base + slot) w) base ws' := by
  intro i v hi hlt
  rw [Vector.getElem?_setIfInBounds]
  rcases hws i v hi with ⟨rfl, rfl⟩ | ⟨hne, hold⟩
  · rw [if_pos rfl, if_pos hlt]
  · rw [if_neg (by omega)]
    exact h i v hold hlt

end HoldsWords

section

variable {ι : Type} [InstructionSet ι]

/-! ## Placed code -/

namespace Placed

variable {code : List ι} {symbols : String → Option Nat} {pc : Nat} {a b : List (Line ι)}

theorem left (h : Placed code symbols pc (a ++ b)) : Placed code symbols pc a where
  code := by
    have := h.code
    rw [List.map_append] at this
    exact this.left
  resolved name hname := h.resolved name (List.mem_append_left b hname)

theorem right (h : Placed code symbols pc (a ++ b)) :
    Placed code symbols (pc + Line.length a) b where
  code := by
    have := h.code
    rw [List.map_append] at this
    rw [Line.length_eq_codeLength]
    exact this.right
  resolved name hname := h.resolved name (List.mem_append_right a hname)

theorem end_le (h : Placed code symbols pc a) : pc + Line.length a ≤ codeLength code := by
  rw [Line.length_eq_codeLength]
  exact h.code.end_le

theorem ofCode {part : List ι} (h : Placed code symbols pc (Line.ofCode part)) :
    CodeAt code pc part := by
  have := h.code
  rw [Line.ofCode, List.map_map] at this
  rwa [show (Line.link _ ∘ Line.plain : ι → ι) = id from rfl, List.map_id] at this

end Placed

/-! ## The invariant of an activation -/

namespace World

variable {T : Target ι} {W : World T} {F : Frame W.strict} {env : Env} {P P' : Holder → Prop}
  {s : State} {n pc : Nat}

namespace Inside

theorem reads {part : List ι} (h : W.Inside F env P s)
    (hplaced : W.Placed s.pc (Line.ofCode part)) : Reads W.code s part :=
  ⟨h.program, hplaced.ofCode⟩

theorem frameBase_eq (h : W.Inside F env P s) : s.frameBase false = F.base := by
  rw [State.frameBase, State.depth, h.calls]
  rfl

theorem depth_eq (h : W.Inside F env P s) : s.depth = F.depth := by
  rw [State.depth, h.calls]
  rfl

/-- Code may use the memory above the variables. -/
theorem of_below {s' : State} (h : W.Inside F env P s) (hprogram : s'.program = s.program)
    (hcalls : s'.calls = s.calls) (hholder : P' s'.holder)
    (hmemory : ∀ a < F.base + env.length, s'.memory[a]? = s.memory[a]?) :
    W.Inside F env P' s' where
  program := hprogram.trans h.program
  calls := hcalls.trans h.calls
  holder := hholder
  length_le := h.length_le
  env := by
    refine h.env.of_eq fun i hi => hmemory _ ?_
    rw [List.length_map] at hi
    omega
  below a ha := (hmemory a (by omega)).trans (h.below a ha)

theorem operands {holder : Holder} (h : W.Inside F env P s) (hholder : P' holder) :
    W.Inside F env P' { s with holder, pc } :=
  h.of_below rfl rfl hholder fun _ _ => rfl

theorem idxOf_lt (h : W.Inside F env P s) {x : String} (hx : x ∈ env.map Prod.fst) :
    (env.map Prod.fst).idxOf x < frameSize := by
  have hindex := List.idxOf_lt_length_of_mem hx
  rw [List.length_map] at hindex
  exact Nat.lt_of_lt_of_le hindex h.length_le

/-- Between two pieces of code. -/
theorem moves (h : W.Inside F env P s) (hmoves : Moves W.code s pc P') :
    ∃ k s', 0 < k ∧ Trace W.code k s s' ∧ W.Inside F env P' s' ∧ s'.pc = pc := by
  obtain ⟨k, holder, hk, htrace, hholder⟩ := hmoves
  exact ⟨k, _, hk, htrace, h.operands hholder, rfl⟩

/-- A call leaves the frame of its caller alone. -/
theorem below_called {kept : T.Kept} {w : Word} {s' : State} (h : W.Inside F env P s)
    (hcalled : T.Called kept s w s') {a : Nat} (ha : a < F.base + frameSize) :
    s'.memory[a]? = s.memory[a]? := by
  refine hcalled.below a ?_
  rw [h.depth_eq, Frame.depth, Nat.succ_mul]
  exact ha

/-- Accesses at such a depth fault for want of a frame. -/
theorem frameFault {s' : State} {address : Int} (h : W.Inside F env P s)
    (hdepth : frameCount ≤ F.depth) (hcalls : s'.calls = s.calls)
    (hfault : Faults W.code (.addressOutOfRange address) s') : FrameFault W.code s' := by
  refine ⟨?_, address, hfault⟩
  rwa [State.depth, hcalls, ← State.depth, h.depth_eq]

/-- At the end of a block. -/
theorem take (h : W.Inside F env P s) (count : Nat) : W.Inside F (env.take count) P s where
  program := h.program
  calls := h.calls
  holder := h.holder
  length_le := Nat.le_trans (List.length_take_le' count env) h.length_le
  env := by
    rw [List.map_take]
    exact h.env.take count
  below := h.below

/-- The value of an activation is returned. -/
theorem returns (hT : T.PiecesSound) {kept : T.Kept} {w : Word}
    (h : W.Inside F env (T.value kept w) s) (hplaced : W.Placed s.pc (Line.ofCode T.ret)) :
    ∃ k s', Trace W.code k s s' ∧ W.Returned F (T.value kept w) s' := by
  obtain ⟨k, htrace⟩ := hT.ret (h.reads hplaced) h.holder h.calls
  exact ⟨k, _, htrace, h.program, rfl, rfl, h.holder, h.below⟩

end Inside

/-- How a statement leaves the activation: with the variables `vars` and the counter
at `pc`, or with its value returned. -/
def Flows (W : World T) (F : Frame W.strict) (kept : T.Kept) (vars : List String) (pc : Nat) :
    Flow → State → Prop
  | .next env, s =>
    env.map Prod.fst = vars ∧ W.Inside F env (T.idle kept) s ∧ s.pc = pc
  | .done w, s => W.Returned F (T.value kept w) s

/-! ## Variables beyond memory -/

theorem context_rightFirst (W : World T) (F : Frame W.strict) (scope : Scope) :
    (W.context F scope n).rightFirst = T.rightFirst := by
  show W.rules.rightFirst = T.rightFirst
  rw [World.rules]
  cases W.strict <;> rfl

theorem rules_touch (W : World T) (depth : Nat) :
    W.rules.touch depth = (W.strict || decide (depth ≤ frameCount)) := by
  rw [World.rules]
  cases W.strict <;> rfl

theorem touch_eq (W : World T) {F : Frame W.strict} (scope : Scope)
    (hdepth : F.depth ≤ frameCount) : (W.context F scope n).touch = pure () := by
  have htouch : W.rules.touch F.depth = true := by
    rw [rules_touch, decide_eq_true hdepth, Bool.or_true]
  exact if_pos htouch

theorem strict_eq_false {F : Frame W.strict} (hdepth : frameCount < F.depth) :
    W.strict = false := by
  refine Bool.eq_false_iff.mpr fun hstrict => ?_
  have := F.nested hstrict
  rw [Frame.depth] at hdepth
  omega

theorem touch_refused (W : World T) {F : Frame W.strict} (scope : Scope)
    (hdepth : frameCount < F.depth) : (W.context F scope n).touch = stop .refused := by
  have htouch : ¬W.rules.touch F.depth = true := by
    rw [rules_touch, decide_eq_false (by omega), Bool.or_false, strict_eq_false hdepth]
    exact Bool.false_ne_true
  exact if_neg htouch

theorem rules_enter (W : World T) (depth args : Nat) :
    W.rules.enter depth args = true ↔ depth < frameCount ∨ W.strict = false ∧ args = 0 := by
  rw [World.rules]
  cases W.strict with
  | true => simp [Rules.nesting]
  | false => simp [Rules.frames, or_comm]

/-- The frame of an activation is in memory, or all of it is beyond. -/
theorem frame_le {strict : Bool} {F : Frame strict} (hdepth : F.depth ≤ frameCount) :
    F.base + frameSize ≤ memorySize := by
  rw [Frame.depth, frameCount] at hdepth
  rw [Frame.base]
  rw [frameSize, memorySize] at *
  omega

theorem le_frame {strict : Bool} {F : Frame strict} (hdepth : frameCount < F.depth) :
    memorySize ≤ F.base := by
  rw [Frame.depth, frameCount] at hdepth
  rw [Frame.base]
  rw [frameSize, memorySize] at *
  omega

/-- The next frame, where arguments are passed, is in memory or beyond. -/
theorem next_frame_le {strict : Bool} {F : Frame strict} (hdepth : F.depth < frameCount) :
    F.base + frameSize + frameSize ≤ memorySize := by
  rw [Frame.depth, frameCount] at hdepth
  rw [Frame.base]
  rw [frameSize, memorySize] at *
  omega

theorem le_next_frame {strict : Bool} {F : Frame strict} (hdepth : frameCount ≤ F.depth) :
    memorySize ≤ F.base + frameSize := by
  rw [Frame.depth, frameCount] at hdepth
  rw [Frame.base]
  rw [frameSize, memorySize] at *
  omega

/-- A value is put into a slot, or there is no frame for it. -/
theorem store_runs (hT : T.PiecesSound) {kept : T.Kept} {w : Word} {slot : Nat} {scope : Scope}
    (hin : W.Inside F env (T.value kept w) s)
    (hplaced : W.Placed s.pc (Line.ofCode (T.store slot))) (hslot : slot < frameSize) :
    W.Runs n s (W.context F scope n).touch fun _ s' =>
      s'.pc = s.pc + codeLength (T.store slot) ∧
      ∀ env' : Env, env'.length ≤ frameSize → Env.Updates slot w env env' →
        W.Inside F env' (T.idle kept) s' := by
  have hbase := hin.frameBase_eq
  by_cases hdepth : F.depth ≤ frameCount
  · have hframe := frame_le hdepth
    have hlt : s.frameBase false + slot < memorySize := by omega
    obtain ⟨k, holder, hidle, htrace⟩ := hT.store (hin.reads hplaced) hin.holder hlt hslot
    rw [W.touch_eq scope hdepth]
    refine .after htrace (.pure ⟨rfl, fun env' hlen hupdate => ?_⟩) (Nat.le_add_right n k)
    refine ⟨hin.program, hin.calls, hidle, hlen, ?_, fun a ha => ?_⟩
    · rw [hbase]
      exact hin.env.store hupdate
    · rw [← hin.below a ha, hbase]
      exact Vector.getElem?_setIfInBounds_ne (by omega)
  · have hframe := le_frame (F := F) (by omega)
    have hle : memorySize ≤ s.frameBase false + slot := by omega
    obtain ⟨k, s', htrace, hcalls, hfault⟩ :=
      hT.store_fault (hin.reads hplaced) hin.holder hle hslot
    rw [W.touch_refused scope (by omega)]
    exact .after htrace (.refused (.inr (hin.frameFault (by omega) hcalls hfault)))
      (Nat.le_add_right n k)

/-- A variable is read where the machine can load its slot. -/
theorem lookup_runs {scope : Scope} {x : String} {Q : Word → State → Prop}
    (hin : W.Inside F env P s) (hx : x ∈ env.map Prod.fst)
    (hload : ∀ w, s.memory[F.base + (env.map Prod.fst).idxOf x]? = some w →
      W.Runs n s (pure w) Q)
    (hfault : memorySize ≤ F.base + (env.map Prod.fst).idxOf x →
      ∃ k s' address, Trace W.code k s s' ∧ s'.calls = s.calls ∧
        Faults W.code (.addressOutOfRange address) s') :
    W.Runs n s ((Expr.identifier x).eval (W.context F scope n) env) Q := by
  have hslot := hin.idxOf_lt hx
  rw [Expr.eval]
  by_cases hdepth : F.depth ≤ frameCount
  · have hframe := frame_le hdepth
    obtain ⟨w, hw⟩ : ∃ w, (env.map Prod.snd)[(env.map Prod.fst).idxOf x]? = some w := by
      refine ⟨_, List.getElem?_eq_getElem ?_⟩
      have := List.idxOf_lt_length_of_mem hx
      rwa [List.length_map] at this ⊢
    rw [W.touch_eq scope hdepth, Env.lookup_eq, hw]
    exact .pure_bind (hload w (hin.env _ w hw (by omega)))
  · have hframe := le_frame (F := F) (by omega)
    obtain ⟨k, s', address, htrace, hcalls, hfaults⟩ := hfault (by omega)
    rw [W.touch_refused scope (by omega)]
    exact .after htrace (.refused_bind (.inr (hin.frameFault (by omega) hcalls hfaults)))
      (Nat.le_add_right n k)

/-! ## Calls from an activation -/

theorem call_eq (W : World T) (F : Frame W.strict) (scope : Scope) (f : String)
    (ws : List Word) :
    (W.context F scope n).call f ws
      = if F.depth < frameCount ∨ W.strict = false ∧ ws.length = 0
        then W.activate n (F.depth + 1) (scope.qualify f) ws else stop .refused := by
  show (if W.rules.enter F.depth ws.length then _ else _) = _
  simp only [rules_enter]

/-- A call whose arguments are in the next frame. -/
theorem passed_runs (hcalls : W.Calls n) {scope : Scope} {f : String} {ws : List Word}
    {kept : T.Kept} (hin : W.Inside F env (T.idle kept) s)
    (hargs : HoldsWords s.memory (F.base + frameSize) ws)
    (hplaced : W.Placed s.pc [.call (scope.qualify f)])
    (henter : F.depth < frameCount ∨ W.strict = false ∧ ws.length = 0) :
    W.Runs n s ((W.context F scope n).call f ws) (T.Called kept s) := by
  obtain ⟨address, haddress⟩ := hplaced.resolved (scope.qualify f) (List.mem_singleton.mpr rfl)
  have hcode := hplaced.code
  rw [List.map_singleton, Line.link, haddress] at hcode
  have hnested : W.strict = true → s.depth < frameCount := fun hstrict => by
    rw [hin.depth_eq]
    exact henter.resolve_right fun h => Bool.false_ne_true (h.1.symm.trans hstrict)
  have hnext : s.depth * frameSize = F.base + frameSize := by
    rw [hin.depth_eq, Frame.depth, Frame.base, Nat.succ_mul]
  rw [W.call_eq, if_pos henter, ← hin.depth_eq]
  exact hcalls haddress ⟨hin.program, hcode⟩ hin.holder hnested (hnext ▸ hargs)

/-- Arguments that can be passed have their place in memory. -/
theorem room_of_enter {args : Nat}
    (henter : F.depth < frameCount ∨ W.strict = false ∧ args = 0) (hargs : args ≤ frameSize) :
    args = 0 ∨ F.base + frameSize + args ≤ memorySize := by
  rcases henter with hdepth | ⟨-, hnone⟩
  · have := next_frame_le hdepth
    exact .inr (by omega)
  · exact .inl hnone

/-- Where a call is refused, the nest is too deep or the machine cannot pass arguments. -/
theorem refused_runs {scope : Scope} {f : String} {ws : List Word} {Q : Word → State → Prop}
    (hin : W.Inside F env P s)
    (henter : ¬(F.depth < frameCount ∨ W.strict = false ∧ ws.length = 0))
    (hfault : 0 < ws.length → memorySize ≤ F.base + frameSize →
      ∃ k s' address, Trace W.code k s s' ∧ s'.calls = s.calls ∧
        Faults W.code (.addressOutOfRange address) s') :
    W.Runs n s ((W.context F scope n).call f ws) Q := by
  rw [W.call_eq, if_neg henter]
  -- a strict world answers for no refusal; in the others the machine faults
  cases hstrict : W.strict with
  | true => exact .refused (.inl hstrict)
  | false =>
      have hdepth : frameCount ≤ F.depth := by omega
      have hsome : 0 < ws.length :=
        Nat.pos_of_ne_zero fun hnone => henter (.inr ⟨hstrict, hnone⟩)
      obtain ⟨k, s', address, htrace, hcalls, hfaults⟩ := hfault hsome (le_next_frame hdepth)
      exact .after htrace (.refused (.inr (hin.frameFault hdepth hcalls hfaults)))
        (Nat.le_add_right n k)

/-! ## Branches and loops -/

theorem conditional_runs (hT : T.PiecesSound) {kept : T.Kept} {vars : List String}
    {cond a b : List (Line ι)} {test : May Word} {onTrue onFalse : May Flow}
    (hplaced : W.Placed s.pc (T.conditional cond a b))
    (htest : W.Runs n s test fun w s' =>
      W.Inside F env (T.value kept w) s' ∧ s'.pc = s.pc + Line.length cond)
    (htrue : ∀ s', W.Inside F env (T.idle kept) s' → W.Placed s'.pc a →
      W.Runs n s' onTrue (W.Flows F kept vars (s'.pc + Line.length a)))
    (hfalse : ∀ s', W.Inside F env (T.idle kept) s' → W.Placed s'.pc b →
      W.Runs n s' onFalse (W.Flows F kept vars (s'.pc + Line.length b))) :
    W.Runs n s (test >>= fun w => if w = 0 then onFalse else onTrue)
      (W.Flows F kept vars (s.pc + Line.length (T.conditional cond a b))) := by
  have hend := hplaced.end_le
  have hsmall := W.small
  rw [Pieces.conditional] at hplaced hend ⊢
  have hcjump := hplaced.left.left.left.right
  have hb := hplaced.left.left.right
  have hjump := hplaced.left.right
  have ha := hplaced.right
  -- both offsets are lengths of parts of the program, so they are not negative as words
  simp only [Line.length_append, Line.length_ofCode, hT.jumpLength_eq] at hb hjump ha hend ⊢
  have hfalseOffset : (Int32.ofNat (Line.length b + T.jumpLength)).toInt
      = (Line.length b + T.jumpLength : Nat) := Int32.toInt_ofNat_of_lt (by omega)
  have htrueOffset : (Int32.ofNat (Line.length a)).toInt = (Line.length a : Nat) :=
    Int32.toInt_ofNat_of_lt (by omega)
  refine .bind htest ?_
  rintro w s₁ ⟨hin₁, hpc₁⟩
  rw [← hpc₁] at hcjump
  obtain ⟨k, s₂, -, htrace, hin₂, hpc₂⟩ := hin₁.moves (hT.cjump
    (s.pc + (Line.length cond
      + codeLength (T.cjump (Int32.ofNat (Line.length b + T.jumpLength)))
      + Line.length b + T.jumpLength))
    (hin₁.reads hcjump) hin₁.holder (by omega) (by omega))
  refine .after htrace ?_ (Nat.le_add_right n k)
  by_cases hw : w = 0
  · rw [if_pos hw] at hpc₂ ⊢
    rw [hpc₁, Nat.add_assoc] at hpc₂
    rw [← hpc₂] at hb
    refine (hfalse s₂ hin₂ hb).andThen fun flow s₃ hflow => ?_
    cases flow with
    | done v => exact ⟨0, s₃, .refl s₃, hflow⟩
    | next env' =>
        obtain ⟨hvars, hin₃, hpc₃⟩ := hflow
        rw [hpc₂, Nat.add_assoc] at hpc₃
        rw [← hpc₃] at hjump
        obtain ⟨k, s₄, -, htrace, hin₄, hpc₄⟩ := hin₃.moves (hT.jump
          (s.pc + (Line.length cond
            + codeLength (T.cjump (Int32.ofNat (Line.length b + T.jumpLength)))
            + Line.length b + T.jumpLength + Line.length a))
          (hin₃.reads hjump) hin₃.holder (by rw [hT.jumpLength_eq]; omega) (by omega))
        exact ⟨k, s₄, htrace, hvars, hin₄, hpc₄⟩
  · rw [if_neg hw] at hpc₂ ⊢
    rw [← hpc₂] at ha
    refine (htrue s₂ hin₂ ha).mono fun flow s₃ hflow => ?_
    rwa [hpc₂, Nat.add_assoc] at hflow

theorem loop_runs (hT : T.PiecesSound) {kept : T.Kept} (vars : List String)
    {cond body : List (Line ι)} {test : Env → May Word} {round : Env → May Flow} {start : Nat}
    (hplaced : W.Placed start (T.loop cond body))
    (htest : ∀ env s, env.map Prod.fst = vars → W.Inside F env (T.idle kept) s →
      W.Placed s.pc cond → W.Runs n s (test env) fun w s' =>
        W.Inside F env (T.value kept w) s' ∧ s'.pc = s.pc + Line.length cond)
    (hround : ∀ env s, env.map Prod.fst = vars → W.Inside F env (T.idle kept) s →
      W.Placed s.pc body →
      W.Runs n s (round env) (W.Flows F kept vars (s.pc + Line.length body))) :
    ∀ (m : Nat) (env : Env) (s : State), m ≤ n → env.map Prod.fst = vars →
      W.Inside F env (T.idle kept) s → s.pc = start →
      W.Runs m s (Source.loop test round m env)
        (W.Flows F kept vars (start + Line.length (T.loop cond body)))
  | 0, _, _, _, _, _, _ => .unfinished
  | m + 1, env, s, hm, hvars, hin, hpc => by
      have hrest := loop_runs hT vars hplaced htest hround m
      have hend := hplaced.end_le
      have hsmall := W.small
      rw [Pieces.loop] at hplaced hend hrest ⊢
      have hjump := hplaced.right
      have hcond := hplaced.left.left.left.left
      have hinvert := hplaced.left.left.left.right
      have hcjump := hplaced.left.left.right
      have hbody := hplaced.left.right
      simp only [Pieces.round, Line.length_append, Line.length_ofCode, hT.jumpLength_eq]
        at hcjump hbody hjump hend hrest ⊢
      have hexit : (Int32.ofNat (Line.length body + T.jumpLength)).toInt
          = (Line.length body + T.jumpLength : Nat) := Int32.toInt_ofNat_of_lt (by omega)
      -- the jump back goes over code of the program, so its offset is a word
      have hback := Int32.toInt_ofInt_of_le
        (n := -(Line.length cond + codeLength T.invert
          + codeLength (T.cjump (Int32.ofNat (Line.length body + T.jumpLength)))
          + Line.length body + T.jumpLength : Nat)) (by omega) (by omega)
      refine .bind ((htest env s hvars hin (hpc ▸ hcond)).weaken hm) ?_
      rintro w s₁ ⟨hin₁, hpc₁⟩
      rw [hpc] at hpc₁
      rw [← hpc₁] at hinvert
      obtain ⟨k₂, s₂, -, htrace₂, hin₂, hpc₂⟩ :=
        hin₁.moves (hT.invert (hin₁.reads hinvert) hin₁.holder)
      rw [hpc₁, Nat.add_assoc] at hpc₂
      rw [← hpc₂] at hcjump
      obtain ⟨k₃, s₃, -, htrace₃, hin₃, hpc₃⟩ := hin₂.moves (hT.cjump
        (start + (Line.length cond + codeLength T.invert
          + codeLength (T.cjump (Int32.ofNat (Line.length body + T.jumpLength)))
          + Line.length body + T.jumpLength))
        (hin₂.reads hcjump) hin₂.holder (by omega) (by omega))
      refine .after (htrace₂.trans htrace₃) ?_ (Nat.le_add_right _ _)
      by_cases hw : w = 0
      · rw [hw] at hpc₃
        rw [if_pos hw]
        exact .pure ⟨hvars, hin₃, hpc₃⟩
      · rw [beq_false_of_ne hw] at hpc₃
        rw [if_neg hw]
        replace hpc₃ : s₃.pc = s₂.pc
            + codeLength (T.cjump (Int32.ofNat (Line.length body + T.jumpLength))) := hpc₃
        rw [hpc₂, Nat.add_assoc] at hpc₃
        rw [← hpc₃] at hbody
        refine .bind ((hround env s₃ hvars hin₃ hbody).weaken hm) fun flow s₄ hflow => ?_
        cases flow with
        | done v => exact .pure hflow
        | next env' =>
            obtain ⟨hvars', hin₄, hpc₄⟩ := hflow
            rw [hpc₃, Nat.add_assoc] at hpc₄
            rw [← hpc₄] at hjump
            obtain ⟨k, s₅, hk, htrace, hin₅, hpc₅⟩ := hin₄.moves (hT.jump start
              (hin₄.reads hjump) hin₄.holder (by rw [hT.jumpLength_eq]; omega) (by omega))
            -- the jump back is a step, which makes up for the fuel of the round
            exact .after htrace (hrest env' s₅ (by omega) hvars' hin₅ hpc₅) (by omega)

/-! ## Statements -/

/-- What statements declare is dropped at the end of their block. -/
theorem inBlock_runs {kept : T.Kept} {ss : List Stmt} {statements : Env → May Flow}
    (h : W.Runs n s (statements env)
      (W.Flows F kept (ss.foldl Stmt.declared (env.map Prod.fst)) pc)) :
    W.Runs n s (Source.inBlock statements env) (W.Flows F kept (env.map Prod.fst) pc) := by
  refine .bind h fun flow s' hflow => .pure ?_
  cases flow with
  | done w => exact hflow
  | next env' =>
      obtain ⟨hvars, hin, hpc⟩ := hflow
      refine ⟨?_, hin.take env.length, hpc⟩
      -- the variables of the block stand after those outside, which are cut off again
      have htake := List.prefix_iff_eq_take.mp (Stmt.prefix_foldl_declared (env.map Prod.fst) ss)
      rw [List.map_take, hvars]
      rw [List.length_map] at htake
      exact htake.symm

mutual

theorem statement_runs (hT : T.Sound) (hcalls : W.Calls n) {scope : Scope} {kept : T.Kept} :
    ∀ (st : Stmt) (env : Env) (s : State), T.StatementFits (env.map Prod.fst) st →
      W.Inside F env (T.idle kept) s →
      W.Placed s.pc (T.statement scope (env.map Prod.fst) st) →
      W.Runs n s (st.exec (W.context F scope n) n env)
        (W.Flows F kept (st.declared (env.map Prod.fst))
          (s.pc + Line.length (T.statement scope (env.map Prod.fst) st)))
  | .var x value, env, s, hfits, hin, hplaced => by
      rw [Pieces.StatementFits] at hfits
      rw [Pieces.statement] at hplaced ⊢
      rw [Stmt.exec]
      have hlen : env.length < frameSize := by
        have := hfits.2.2
        rwa [List.length_map] at this
      refine .bind (hT.expr hcalls hfits.1 hin hplaced.left) ?_
      rintro w s₁ ⟨hin₁, hpc₁⟩
      have hstore := hplaced.right
      rw [← hpc₁] at hstore
      refine .bind (store_runs hT.toPiecesSound hin₁ hstore (by rwa [List.length_map])) ?_
      rintro _ s₂ ⟨hpc₂, hin₂⟩
      refine .pure ⟨?_, hin₂ _ ?_ ?_, ?_⟩
      · rw [List.map_append]
        rfl
      · rw [List.length_append]
        exact hlen
      · rw [List.length_map]
        exact Env.updates_declare env x w
      · rw [hpc₂, hpc₁, Line.length_append, Line.length_ofCode, Nat.add_assoc]
  | .assign x value, env, s, hfits, hin, hplaced => by
      rw [Pieces.StatementFits] at hfits
      rw [Pieces.statement] at hplaced ⊢
      rw [Stmt.exec]
      obtain ⟨hfits, hx⟩ := hfits
      refine .bind (hT.expr hcalls hfits hin hplaced.left) ?_
      rintro w s₁ ⟨hin₁, hpc₁⟩
      have hstore := hplaced.right
      rw [← hpc₁] at hstore
      obtain ⟨env', hassign, hfst, hsnd⟩ := Env.assign_eq hx w
      refine .bind (store_runs hT.toPiecesSound hin₁ hstore (hin.idxOf_lt hx)) ?_
      rintro _ s₂ ⟨hpc₂, hin₂⟩
      rw [hassign]
      refine .pure ⟨hfst, hin₂ env' ?_ (Env.updates_set hsnd), ?_⟩
      · rw [← List.length_map (f := Prod.fst), hfst, List.length_map]
        exact hin.length_le
      · rw [hpc₂, hpc₁, Line.length_append, Line.length_ofCode, Nat.add_assoc]
  | .return value, env, s, hfits, hin, hplaced => by
      rw [Pieces.StatementFits] at hfits
      rw [Pieces.statement] at hplaced
      rw [Stmt.exec]
      refine .bind (hT.expr hcalls hfits hin hplaced.left) ?_
      rintro w s₁ ⟨hin₁, hpc₁⟩
      have hret := hplaced.right
      rw [← hpc₁] at hret
      obtain ⟨k, s₂, htrace, hreturned⟩ := hin₁.returns hT.toPiecesSound hret
      exact .after htrace (.pure hreturned) (Nat.le_add_right n k)
  | .if cond onTrue none, env, s, hfits, hin, hplaced => by
      rw [Pieces.StatementFits] at hfits
      rw [Pieces.statement] at hplaced ⊢
      rw [Stmt.exec]
      exact conditional_runs hT.toPiecesSound hplaced
        (hT.expr hcalls hfits.1 hin hplaced.left.left.left.left)
        (fun s' hin' hplaced' =>
          inBlock_runs (statements_runs hT hcalls onTrue env s' hfits.2 hin' hplaced'))
        (fun s' hin' _ => .pure ⟨rfl, hin', rfl⟩)
  | .if cond onTrue (some onFalse), env, s, hfits, hin, hplaced => by
      rw [Pieces.StatementFits] at hfits
      rw [Pieces.statement] at hplaced ⊢
      rw [Stmt.exec]
      exact conditional_runs hT.toPiecesSound hplaced
        (hT.expr hcalls hfits.1 hin hplaced.left.left.left.left)
        (fun s' hin' hplaced' =>
          inBlock_runs (statements_runs hT hcalls onTrue env s' hfits.2.1 hin' hplaced'))
        (fun s' hin' hplaced' =>
          inBlock_runs (statements_runs hT hcalls onFalse env s' hfits.2.2 hin' hplaced'))
  | .while cond body, env, s, hfits, hin, hplaced => by
      rw [Pieces.StatementFits] at hfits
      rw [Pieces.statement] at hplaced ⊢
      rw [Stmt.exec]
      refine loop_runs hT.toPiecesSound (env.map Prod.fst) hplaced
        (fun env' s' hvars hin' hplaced' => ?_) (fun env' s' hvars hin' hplaced' => ?_)
        n env s (Nat.le_refl n) rfl hin rfl
      · rw [← hvars] at hfits hplaced' ⊢
        exact hT.expr hcalls hfits.1 hin' hplaced'
      · rw [← hvars] at hfits hplaced' ⊢
        exact inBlock_runs (statements_runs hT hcalls body env' s' hfits.2 hin' hplaced')

theorem statements_runs (hT : T.Sound) (hcalls : W.Calls n) {scope : Scope} {kept : T.Kept} :
    ∀ (ss : List Stmt) (env : Env) (s : State), T.StatementsFit (env.map Prod.fst) ss →
      W.Inside F env (T.idle kept) s →
      W.Placed s.pc (T.statements scope (env.map Prod.fst) ss) →
      W.Runs n s (Stmt.execAll (W.context F scope n) n ss env)
        (W.Flows F kept (ss.foldl Stmt.declared (env.map Prod.fst))
          (s.pc + Line.length (T.statements scope (env.map Prod.fst) ss)))
  | [], env, s, _, hin, _ => by
      rw [Stmt.execAll, Pieces.statements]
      exact .pure ⟨rfl, hin, rfl⟩
  | st :: ss, env, s, hfits, hin, hplaced => by
      rw [Pieces.StatementsFit] at hfits
      rw [Pieces.statements] at hplaced ⊢
      rw [Stmt.execAll]
      refine .bind (statement_runs hT hcalls st env s hfits.1 hin hplaced.left)
        fun flow s₁ hflow => ?_
      cases flow with
      | done w => exact .pure hflow
      | next env' =>
          obtain ⟨hvars, hin₁, hpc₁⟩ := hflow
          have hplaced₁ := hplaced.right
          have hfits₁ := hfits.2
          rw [← hpc₁, ← hvars] at hplaced₁
          rw [← hvars] at hfits₁
          have h := statements_runs hT hcalls ss env' s₁ hfits₁ hin₁ hplaced₁
          rw [hpc₁, Nat.add_assoc, hvars] at h
          rw [Line.length_append]
          exact h

end

/-! ## Functions -/

theorem body_runs (hT : T.Sound) (hcalls : W.Calls n) (scope : Scope) (body : Body)
    {kept : T.Kept} (hfits : T.BodyFits (env.map Prod.fst) body)
    (hin : W.Inside F env (T.idle kept) s)
    (hplaced : W.Placed s.pc (T.body scope (env.map Prod.fst) body)) :
    W.Runs n s (body.run (W.context F scope n) n env)
      fun w s' => W.Returned F (T.value kept w) s' := by
  cases body with
  | expression value =>
      rw [Pieces.body] at hplaced
      have heval := hT.expr hcalls hfits hin hplaced.left
      refine heval.andThen ?_
      rintro w s₁ ⟨hin₁, hpc₁⟩
      have hret := hplaced.right
      rw [← hpc₁] at hret
      exact hin₁.returns hT.toPiecesSound hret
  | block ss =>
      rw [Pieces.body] at hplaced
      refine .bind (statements_runs hT hcalls ss env s hfits hin hplaced.left.left)
        fun flow s₁ hflow => ?_
      cases flow with
      | done w => exact .pure hflow
      | next env' =>
          obtain ⟨-, hin₁, hpc₁⟩ := hflow
          have hzero := hplaced.left.right
          have hret := hplaced.right
          rw [← hpc₁] at hzero
          rw [Line.length_append, ← Nat.add_assoc, ← hpc₁, Line.length_ofCode] at hret
          obtain ⟨k, s₂, -, htrace, hin₂, hpc₂⟩ :=
            hin₁.moves (hT.zero (hin₁.reads hzero) hin₁.holder)
          rw [← hpc₂] at hret
          obtain ⟨j, s₃, htrace', hreturned⟩ := hin₂.returns hT.toPiecesSound hret
          exact .after (htrace.trans htrace') (.pure hreturned) (Nat.le_add_right n (k + j))

/-- A call instruction goes to the first byte of its function. -/
theorem call_step {address : Nat} (hreads : Reads W.code s [InstructionSet.call
    (Int32.ofInt address)]) (haddress : address ≤ codeLength W.code) :
    Trace W.code 1 s { s with
      pc := address
      calls := (s.pc + (InstructionSet.callDescriptor ι).length) :: s.calls } := by
  have hsmall := W.small
  have htarget : (Int32.ofInt (address : Int)).toInt = address :=
    Int32.toInt_ofInt_of_le (by omega) (by omega)
  refine .one ⟨hreads.program, hreads.code⟩ ?_
  rw [InstructionSet.exec_call, width_eq, InstructionSet.descriptor_call, Exec.call_eq htarget]
  · rfl
  · show address ≤ s.program.size
    rwa [hreads.size_eq]

/-- The words that a frame holds where arguments are missing. -/
def frameWords (memory : Vector Word memorySize) (base : Nat) (first count : Nat) : List Word :=
  (List.range count).map fun i => memory[base + (first + i)]?.getD 0

theorem holdsWords_frameWords {memory : Vector Word memorySize} {base : Nat} {args : List Word}
    (h : HoldsWords memory base args) (count : Nat) :
    HoldsWords memory base (args ++ frameWords memory base args.length count) := by
  intro i w hi hlt
  rw [List.getElem?_append] at hi
  by_cases harg : i < args.length
  · rw [if_pos harg] at hi
    exact h i w hi hlt
  · rw [if_neg harg, frameWords, List.getElem?_map] at hi
    obtain ⟨j, hj, rfl⟩ := Option.map_eq_some_iff.mp hi
    obtain ⟨-, rfl⟩ := List.getElem?_eq_some_iff.mp hj
    have hindex : base + (args.length + (List.range count)[i - args.length]) = base + i := by
      rw [List.getElem_range]
      omega
    rw [hindex, Vector.getElem?_eq_getElem hlt]
    rfl

/-- Calls do what their evaluation says, with any fuel. -/
theorem calls_run (hT : T.Sound) (W : World T) (n : Nat) : W.Calls n := by
  induction n with
  | zero => exact fun _ _ _ _ _ => .unfinished
  | succ n ih =>
      intro name address args kept s hname hreads hidle hnested hargs
      obtain ⟨scope, d, hfind, hfits, hplaced⟩ := W.function name address hname
      have hle : address ≤ codeLength W.code := Nat.le_trans (Nat.le_add_right _ _) hplaced.end_le
      -- the call is a step, which makes up for the fuel of the activation
      refine .after (call_step hreads hle) ?_ (Nat.le_refl (n + 1))
      let F : Frame W.strict :=
        ⟨s.pc + (InstructionSet.callDescriptor ι).length, s.calls, s.memory, hnested⟩
      let words := args ++ frameWords s.memory F.base args.length (d.args.length - args.length)
      rw [World.activate, Package.activate, hfind]
      -- parameters without an argument have the words of the frame, one of many answers
      refine .bind (P := fun rest s' => args ++ rest = words ∧ s' = { s with
          pc := address
          calls := F.back :: F.rest }) (.value ⟨_, ?_, rfl⟩ ⟨rfl, rfl⟩) ?_
      · simp [frameWords]
      · rintro rest s' ⟨hrest, rfl⟩
        rw [hrest]
        have hlen : d.args.length ≤ words.length := by
          simp [words, frameWords]
          omega
        have hvars : (d.args.zip words).map Prod.fst = d.args := List.map_fst_zip hlen
        have hin : W.Inside F (d.args.zip words) (T.idle kept)
            { s with pc := address, calls := F.back :: F.rest } := by
          refine ⟨hreads.program, rfl, hidle, ?_, ?_, fun _ _ => rfl⟩
          · rw [List.length_zip]
            exact Nat.le_trans (Nat.min_le_left _ _)
              (hfits.1.length_le (Nat.zero_le frameSize))
          · intro i w hi hlt
            rw [List.getElem?_map] at hi
            obtain ⟨⟨x, w⟩, hzip, rfl⟩ := Option.map_eq_some_iff.mp hi
            exact holdsWords_frameWords hargs _ i w (List.getElem?_zip_eq_some.mp hzip).2 hlt
        have hbody := body_runs hT ih scope d.body (hvars.symm ▸ hfits.2) hin (hvars.symm ▸ hplaced)
        exact hbody.mono fun w s' hret =>
          ⟨hret.program.trans hreads.program.symm, hret.pc, hret.calls, hret.holder, hret.below⟩

end World

end

end DualMachine
