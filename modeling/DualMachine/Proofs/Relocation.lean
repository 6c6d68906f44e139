import DualMachine.Proofs.Confinement
import DualMachine.Proofs.Frames
import DualMachine.Proofs.Reach

/-!
# Programs with their functions in other places

Linking decides where the functions of a program stand and which are left out. Both make
no difference to what a program does: two programs with the same functions, at
addresses of their own, run in lock step (`Relocation.Aligned.step`). At every step the counters are
at the same place of the same function, the pending calls return to the same places of
the same functions, and operands and memory are equal; addresses are nowhere else.

A step sees nothing but that (`Exec.Local`), a jump stays in its function (`Confined`), and
a call goes to the function with the name. So two sessions that need the same functions make
programs that end alike (`layout_irrelevant`).
-/

namespace DualMachine

open Source

section

variable {ι : Type} [InstructionSet ι]

open InstructionSet

/-! ## Layouts -/

/-- Code in which functions have addresses. -/
structure Layout (ι : Type) [InstructionSet ι] where
  code : List ι
  symbols : String → Option Nat
  small : codeLength code < 2 ^ 31

namespace Layout

/-- Lines of the code at a position. -/
abbrev Placed (P : Layout ι) (pc : Nat) (lines : List (Line ι)) : Prop :=
  DualMachine.Placed P.code P.symbols pc lines

/-- The instruction of a line. -/
def instr (P : Layout ι) (l : Line ι) : ι :=
  l.link fun name => Int32.ofInt ((P.symbols name).getD 0 : Nat)

/-- A state runs the code, with its counter at byte `k` of lines that stand at `a`. -/
structure Within (P : Layout ι) (lines : List (Line ι)) (a k : Nat) (s : State) : Prop where
  placed : P.Placed a lines
  program : s.program = (codeBytes P.code).toArray
  pc : s.pc = a + k

namespace Within

variable {P : Layout ι} {lines : List (Line ι)} {a k : Nat} {s : State}

theorem size_eq (h : P.Within lines a k s) : s.program.size = codeLength P.code := by
  rw [h.program, List.size_toArray, length_codeBytes]

theorem skip (h : P.Within lines a k s) (count : Nat) :
    P.Within lines a (k + count) (s.skip count) :=
  ⟨h.placed, h.program, by rw [State.skip, h.pc, Nat.add_assoc]⟩

theorem at_line (h : P.Within lines a k s) {before after : List (Line ι)} {l : Line ι}
    (hlines : lines = before ++ l :: after) (hk : k = Line.length before) :
    At P.code (P.instr l) s := by
  refine ⟨h.program, ?_⟩
  have hplaced := h.placed
  rw [hlines] at hplaced
  rw [h.pc, hk]
  exact hplaced.right.code.head

/-- A step of the counter inside the lines. -/
theorem follow_eq (h : P.Within lines a k s) {decision : Option Word} {target : Nat}
    (htarget : (target : Int) = k + decision.elim 0 (·.toInt))
    (hbound : target ≤ Line.length lines) :
    Exec.follow decision s = .ok () { s with pc := a + target } := by
  have hpc := h.pc
  cases decision with
  | none =>
      obtain rfl : target = k := by simpa using htarget
      rw [← h.pc]
      rfl
  | some offset =>
      have hend := h.placed.end_le
      have hsize := h.size_eq
      rw [Option.elim_some] at htarget
      exact Exec.jumpBy_eq (by omega) (by omega)

/-- A named call goes to the address of the name. -/
theorem call_eq (h : P.Within lines a k s) {name : String} {address : Nat}
    (haddress : P.symbols name = some address) {body : List (Line ι)}
    (hbody : P.Placed address body) :
    exec (P.instr (.call name)) s
      = .ok () { s with pc := address, calls := (a + k) :: s.calls } := by
  have hend := hbody.end_le
  have hsmall := P.small
  have hsize := h.size_eq
  have htarget : (Int32.ofInt (address : Nat)).toInt = address :=
    Int32.toInt_ofInt_of_le (by omega) (by omega)
  rw [instr, Line.link, haddress, Option.getD_some, exec_call, Exec.call_eq htarget (by omega),
    h.pc]

end Within

end Layout

/-- Two programs with the same functions, which stay where they are. -/
structure Relocation (A : Analysis ι) where
  left : Layout ι
  right : Layout ι
  function : ∀ name address address', left.symbols name = some address →
    right.symbols name = some address' → ∃ lines, left.Placed address lines ∧
      right.Placed address' lines ∧ ∀ n, Confined A lines true n 0 A.fresh

namespace Relocation

variable {A : Analysis ι}

/-! ## The relation between two runs -/

/-- Pending calls that return to the same places of the same lines; `before` are the operands
when the innermost activation began. -/
inductive Pending (R : Relocation A) (n : Nat) : Bool → Holder → List Nat → List Nat → Prop where
  | none {before : Holder} : R.Pending n false before [] []
  | call {lines : List (Line ι)} {a a' k : Nat} {inside : Bool} {ops : A.Operands}
      {outer before : Holder} {calls calls' : List Nat} (hplaced : R.left.Placed a lines)
      (hplaced' : R.right.Placed a' lines)
      (hconfined : Confined A lines inside n k (A.resumed ops))
      (hdescribes : A.Describes ops outer before)
      (hrest : R.Pending n inside outer calls calls') :
      R.Pending n true before ((a + k) :: calls) ((a' + k) :: calls')

/-- Two states at the same place of the same lines. -/
structure Beside (R : Relocation A) (n : Nat) (lines : List (Line ι)) (a a' k : Nat)
    (inside : Bool) (outer : Holder) (s s' : State) : Prop where
  left : R.left.Within lines a k s
  right : R.right.Within lines a' k s'
  holder : s'.holder = s.holder
  memory : s'.memory = s.memory
  pending : R.Pending n inside outer s.calls s'.calls

/-- Two states from which both programs go on in the same way for `n` steps. -/
def Aligned (R : Relocation A) (n : Nat) (s s' : State) : Prop :=
  ∃ lines a a' k inside ops outer, R.Beside n lines a a' k inside outer s s' ∧
    Confined A lines inside n k ops ∧ A.Describes ops outer s.holder

/-- Two steps with the same outcome. -/
inductive Meets (R : Relocation A) (n : Nat) :
    EStateM.Result Fault State Unit → EStateM.Result Fault State Unit → Prop where
  | on {t t' : State} (h : R.Aligned n t t') : R.Meets n (.ok () t) (.ok () t')
  | stop {t t' : State} (hstop : t.running = false) (hstop' : t'.running = false)
      (hholder : t'.holder = t.holder) (hmemory : t'.memory = t.memory) :
      R.Meets n (.ok () t) (.ok () t')
  | fault {fault : Fault} {t t' : State} (hholder : t'.holder = t.holder)
      (hmemory : t'.memory = t.memory) : R.Meets n (.error fault t) (.error fault t')

variable {R : Relocation A} {n : Nat}

theorem Pending.length_eq {inside : Bool} {before : Holder} {calls calls' : List Nat}
    (h : R.Pending n inside before calls calls') : calls'.length = calls.length := by
  induction h with
  | none => rfl
  | call _ _ _ _ _ ih => rw [List.length_cons, List.length_cons, ih]

theorem Pending.pred {inside : Bool} {before : Holder} {calls calls' : List Nat}
    (h : R.Pending (n + 1) inside before calls calls') :
    R.Pending n inside before calls calls' := by
  induction h with
  | none => exact .none
  | call hplaced hplaced' hconfined hdescribes _ ih =>
      exact .call hplaced hplaced' hconfined.pred hdescribes ih

namespace Beside

variable {lines : List (Line ι)} {a a' k : Nat} {inside : Bool} {outer : Holder} {s s' : State}
  {i : ι} {ops after : A.Operands}

theorem alike (h : R.Beside n lines a a' k inside outer s s') : s.Alike s' :=
  ⟨h.holder, h.memory, h.pending.length_eq⟩

theorem skip (h : R.Beside n lines a a' k inside outer s s') (count : Nat) :
    R.Beside n lines a a' (k + count) inside outer (s.skip count) (s'.skip count) :=
  ⟨h.left.skip count, h.right.skip count, h.holder, h.memory, h.pending⟩

theorem pred (h : R.Beside (n + 1) lines a a' k inside outer s s') :
    R.Beside n lines a a' k inside outer s s' :=
  { h with pending := h.pending.pred }

/-- The same operands and memory are put into both states, and the counters are moved. -/
theorem set (h : R.Beside n lines a a' k inside outer s s') (holder : Holder)
    (memory : Vector Word memorySize) (target : Nat) :
    R.Beside n lines a a' target inside outer { s with holder, memory, pc := a + target }
      { s' with holder, memory, pc := a' + target } :=
  ⟨⟨h.left.placed, h.left.program, rfl⟩, ⟨h.right.placed, h.right.program, rfl⟩, rfl, rfl,
    h.pending⟩

/-! ## Steps -/

/-- An instruction that goes on behind itself. -/
theorem straight (h : R.Beside n lines a a' k inside outer s s') (hD : A.Steers)
    (hrole : (A.operation i).role.straight = true) (hnext : Confined A lines inside n k after)
    (hdescribes : ∀ t, exec i s = .ok () t → A.Describes after outer t.holder) :
    R.Meets n (exec i s) (exec i s') := by
  rw [hD.exec_eq] at hdescribes ⊢
  rcases Operation.exec_local hrole s with
    ⟨_, holder, memory, hok⟩ | ⟨fault, holder, memory, -, herror⟩
  · have hafter := hdescribes _ (hok s (.refl s))
    rw [hok s (.refl s), hok s' h.alike]
    have hset := h.set holder memory k
    rw [← h.left.pc, ← h.right.pc] at hset
    exact .on ⟨lines, a, a', k, inside, after, outer, hset, hnext, hafter⟩
  · rw [herror s (.refl s), herror s' h.alike]
    exact .fault rfl rfl

/-- A jump or a branch to a place of the same lines. -/
theorem relative (h : R.Beside n lines a a' k inside outer s s') (hD : A.Steers)
    (hrole : (A.operation i).role.relative = true) {target : Nat}
    (htarget : (target : Int) = k + ((A.operation i).taken? s.holder).elim 0 (·.toInt))
    (hbound : target ≤ Line.length lines) (hnext : Confined A lines inside n target after)
    (hdescribes : ∀ t, exec i s = .ok () t → A.Describes after outer t.holder) :
    R.Meets n (exec i s) (exec i s') := by
  rw [hD.exec_eq, Operation.exec_eq_branch hrole] at hdescribes ⊢
  rcases (A.operation i).branch_local s with
    ⟨decision, holder, memory, hok⟩ | ⟨fault, holder, memory, -, herror⟩
  · obtain rfl := Operation.taken?_of_branch hrole (hok s (.refl s))
    have hset := h.set holder memory k
    rw [← h.left.pc, ← h.right.pc] at hset
    rw [Exec.bind_eq (hok s (.refl s)), hset.left.follow_eq htarget hbound] at hdescribes
    rw [Exec.bind_eq (hok s (.refl s)), Exec.bind_eq (hok s' h.alike),
      hset.left.follow_eq htarget hbound, hset.right.follow_eq htarget hbound]
    exact .on ⟨lines, a, a', target, inside, after, outer, h.set holder memory target, hnext,
      hdescribes _ rfl⟩
  · rw [Exec.bind_error_eq (herror s (.refl s)), Exec.bind_error_eq (herror s' h.alike)]
    exact .fault rfl rfl

/-- A call of a function, which begins in both programs. -/
theorem call (h : R.Beside n lines a a' k inside outer s s') (hS : A.Sound) {name : String}
    (hname : Line.call name ∈ lines) (hnext : Confined A lines inside n k (A.resumed ops))
    (hdescribes : A.Describes ops outer s.holder) :
    R.Meets n (exec (R.left.instr (.call name)) s) (exec (R.right.instr (.call name)) s') := by
  obtain ⟨address, haddress⟩ := h.left.placed.resolved name hname
  obtain ⟨address', haddress'⟩ := h.right.placed.resolved name hname
  obtain ⟨body, hbody, hbody', hconfined⟩ := R.function name address address' haddress haddress'
  rw [h.left.call_eq haddress hbody, h.right.call_eq haddress' hbody']
  refine .on ⟨body, address, address', 0, true, A.fresh, s.holder, ?_, hconfined n,
    hS.fresh hdescribes⟩
  exact ⟨⟨hbody, h.left.program, rfl⟩, ⟨hbody', h.right.program, rfl⟩, h.holder, h.memory,
    .call h.left.placed h.right.placed hnext hdescribes h.pending⟩

/-- A return, behind the same call. -/
theorem ret (h : R.Beside n lines a a' k true outer s s') (hS : A.Sound)
    (hdoes : A.Does i ops .ret) (hdescribes : A.Describes ops outer s.holder) :
    R.Meets n (Exec.ret s) (Exec.ret s') := by
  -- inside an activation something is pending
  have hpending := h.pending
  generalize hcalls : s.calls = calls at hpending
  generalize hcalls' : s'.calls = calls' at hpending
  cases hpending with
  | @call lines a a' k inside ops₀ outer₀ _ rest rest' hplaced hplaced' hconfined hbefore hrest =>
      rw [Exec.ret_eq hcalls, Exec.ret_eq hcalls']
      refine .on ⟨lines, a, a', k, inside, A.resumed ops₀, outer₀, ?_, hconfined,
        hS.resumed hdoes hbefore hdescribes⟩
      exact ⟨⟨hplaced, h.left.program, rfl⟩, ⟨hplaced', h.right.program, rfl⟩, h.holder, h.memory,
        hrest⟩

theorem halt (h : R.Beside n lines a a' k inside outer s s') :
    R.Meets n (Exec.halt s) (Exec.halt s') := by
  have hstop : ∀ t : State, ({ t with pc := t.program.size } : State).running = false :=
    fun t => decide_eq_false (Nat.lt_irrefl _)
  exact .stop (hstop s) (hstop s') h.holder h.memory

/-- An instruction that is not a named call. -/
theorem plain (h : R.Beside (n + 1) lines a a' k inside outer s s') (hS : A.Sound)
    (hD : A.Steers) {e : Effect A.Operands} (hdoes : A.Does i ops e)
    (hdescribes : A.Describes ops outer s.holder)
    (hcontinues : e.Continues inside (Confined A lines inside (n + 1)) k) :
    R.Meets (n + 1) (exec i s) (exec i s') := by
  have hrole := hS.role_eq hdoes
  have htaken := hD.taken_mem hdoes hdescribes
  have hholds : ∀ t, exec i s = .ok () t → e.Holds (A.Describes · outer) (A.operation i) s t :=
    fun t ht => hS.step hdoes hdescribes ht
  cases e with
  | constant after | compute after =>
      exact h.straight hD (by rw [hrole]; rfl) hcontinues fun t ht => (hholds t ht).1
  | load slot after =>
      exact h.straight hD (by rw [hrole]; rfl) hcontinues fun t ht => (hholds t ht).2.1
  | store slot after =>
      refine h.straight hD (by rw [hrole]; rfl) hcontinues fun t ht => ?_
      obtain ⟨_, _, -, -, hafter, -⟩ := hholds t ht
      exact hafter
  | jump offset after =>
      have htaken := List.mem_singleton.mp htaken
      obtain ⟨target, htarget, hnext⟩ := hcontinues
      refine h.relative hD (by rw [hrole]; rfl) (by rw [htaken]; exact htarget) hnext.le_length
        hnext fun t ht => ?_
      obtain ⟨_, -, hafter, -⟩ := hholds t ht
      exact hafter
  | branch offset after =>
      obtain ⟨hstay, target, htarget, hnext⟩ := hcontinues
      have hafter : ∀ t, exec i s = .ok () t → A.Describes after outer t.holder := by
        intro t ht
        obtain ⟨_, -, hafter, -⟩ := hholds t ht
        exact hafter
      -- the branch stays behind itself or goes by its offset, in both programs
      simp only [Effect.decisions, List.mem_cons, List.not_mem_nil, or_false] at htaken
      rcases htaken with htaken | htaken
      · exact h.relative hD (by rw [hrole]; rfl) (by rw [htaken]; exact (Int.add_zero _).symm)
          hstay.le_length hstay hafter
      · exact h.relative hD (by rw [hrole]; rfl) (by rw [htaken]; exact htarget) hnext.le_length
          hnext hafter
  | call target => exact hcontinues.elim
  | ret =>
      obtain rfl : inside = true := hcontinues
      rw [hD.exec_eq, Operation.exec_eq_ret hrole]
      exact h.ret hS hdoes hdescribes
  | halt =>
      rw [hD.exec_eq, Operation.exec_eq_halt hrole]
      exact h.halt

end Beside

variable {s s' : State}

/-- Two programs with the same functions take the same step. Two steps have to be known, since
a jump is only carried out if there is an instruction where it goes. -/
theorem Aligned.step (h : R.Aligned (n + 2) s s') (hS : A.Sound) (hD : A.Steers) :
    R.Meets (n + 1) ((table ι).step s) ((table ι).step s') := by
  obtain ⟨lines, a, a', k, inside, ops, outer, hbeside, hconfined, hdescribes⟩ := h
  obtain ⟨before, l, after, hlines, hk, hcontinues⟩ := hconfined
  rw [(hbeside.left.at_line hlines hk).step_eq, (hbeside.right.at_line hlines hk).step_eq,
    Layout.instr, Layout.instr, Line.width_link, Line.width_link]
  have hskip := hbeside.pred.skip l.width
  cases l with
  | call name => exact hskip.call hS (by rw [hlines]; simp) hcontinues hdescribes
  | plain i =>
      obtain ⟨e, hdoes, hcontinues⟩ := hcontinues
      exact hskip.plain hS hD hdoes hdescribes hcontinues

/-! ## Runs -/

theorem Aligned.running (h : R.Aligned (n + 1) s s') : s.running = true ∧ s'.running = true := by
  obtain ⟨lines, a, a', k, inside, ops, outer, hbeside, hconfined, -⟩ := h
  obtain ⟨before, l, after, hlines, hk, -⟩ := hconfined
  exact ⟨(hbeside.left.at_line hlines hk).running, (hbeside.right.at_line hlines hk).running⟩

theorem Aligned.alike (h : R.Aligned n s s') : s.Alike s' := by
  obtain ⟨lines, a, a', k, inside, ops, outer, hbeside, -⟩ := h
  exact hbeside.alike

/-- Two programs with the same functions come to the same ending after equally many steps,
with the same operands and memory. -/
theorem Aligned.runFrom {limit : Nat} (h : R.Aligned (limit + 1) s s') (hS : A.Sound)
    (hD : A.Steers) (executed : Nat) :
    ∃ ending count t t', (table ι).runFrom limit executed s = ⟨ending, count, t⟩ ∧
      (table ι).runFrom limit executed s' = ⟨ending, count, t'⟩ ∧
      t'.holder = t.holder ∧ t'.memory = t.memory := by
  induction limit generalizing s s' executed with
  | zero =>
      obtain ⟨hrunning, hrunning'⟩ := h.running
      refine ⟨.unfinished, executed, s, s', ?_, ?_, h.alike.holder, h.alike.memory⟩
      · rw [Table.runFrom, if_pos hrunning]
      · rw [Table.runFrom, if_pos hrunning']
  | succ limit ih =>
      obtain ⟨hrunning, hrunning'⟩ := h.running
      have hmeets := h.step hS hD
      rw [Table.runFrom, Table.runFrom, if_pos hrunning, if_pos hrunning']
      generalize (table ι).step s = r at hmeets ⊢
      generalize (table ι).step s' = r' at hmeets ⊢
      cases hmeets with
      | on h => exact ih h (executed + 1)
      | @stop t t' hstop hstop' hholder hmemory =>
          exact ⟨.finished, executed + 1, t, t', Table.runFrom_of_stopped _ hstop ..,
            Table.runFrom_of_stopped _ hstop' .., hholder, hmemory⟩
      | @fault fault t t' hholder hmemory =>
          exact ⟨.faulted fault, _, t, t', rfl, rfl, hholder, hmemory⟩

/-- The program begins at its first byte in both layouts. -/
theorem aligned_start {C : Pieces ι} (hA : A.Accepts C) {entry : String}
    (hleft : R.left.Placed 0 [.call entry, .plain InstructionSet.halt])
    (hright : R.right.Placed 0 [.call entry, .plain InstructionSet.halt]) {holder : Holder}
    (hfresh : A.Describes A.fresh holder holder) (n : Nat) :
    R.Aligned n (.initial holder (codeBytes R.left.code))
      (.initial holder (codeBytes R.right.code)) :=
  ⟨_, 0, 0, 0, false, A.fresh, holder, ⟨⟨hleft, rfl, rfl⟩, ⟨hright, rfl, rfl⟩, rfl, rfl, .none⟩,
    hA.start_confined entry n, hfresh⟩

end Relocation

/-- Two runs end normally with the same operands and memory, or end in the same fault, or
do not end. -/
def Table.EndAlike (t : Table) (s s' : State) : Prop :=
  (∃ r r', t.Ends s .finished r ∧ t.Ends s' .finished r' ∧
    r'.holder = r.holder ∧ r'.memory = r.memory) ∨
  (∃ fault r r', t.Ends s (.faulted fault) r ∧ t.Ends s' (.faulted fault) r') ∨
  ∀ ending r, t.Ends s ending r ∨ t.Ends s' ending r → ending = .unfinished

theorem Relocation.endAlike {A : Analysis ι} {R : Relocation A} {s s' : State} (hS : A.Sound)
    (hD : A.Steers) (h : ∀ n, R.Aligned n s s') : (table ι).EndAlike s s' := by
  have hrun : ∀ limit, ∃ ending count t t', (table ι).run limit s = ⟨ending, count, t⟩ ∧
      (table ι).run limit s' = ⟨ending, count, t'⟩ ∧ t'.holder = t.holder ∧
      t'.memory = t.memory := fun limit => (h (limit + 1)).runFrom hS hD 0
  by_cases hends : ∃ limit, ((table ι).run limit s).ending ≠ .unfinished
  · obtain ⟨limit, hlimit⟩ := hends
    obtain ⟨ending, count, t, t', hleft, hright, hholder, hmemory⟩ := hrun limit
    rw [hleft] at hlimit
    cases ending with
    | finished =>
        exact .inl ⟨t, t', ⟨limit, count, hleft⟩, ⟨limit, count, hright⟩, hholder, hmemory⟩
    | faulted fault =>
        exact .inr (.inl ⟨fault, t, t', ⟨limit, count, hleft⟩, ⟨limit, count, hright⟩⟩)
    | unfinished => exact absurd rfl hlimit
  · simp only [not_exists, not_not] at hends
    refine .inr (.inr fun ending r hr => ?_)
    rcases hr with ⟨limit, count, hr⟩ | ⟨limit, count, hr⟩
    · rw [← hends limit, hr]
    · obtain ⟨ending', count', t, t', hleft, hright, -⟩ := hrun limit
      rw [← hends limit, hleft]
      rw [hright] at hr
      exact (Run.mk.inj hr).1.symm

/-! ## Sessions -/

/-- The entry point of a session calls, directly or not, a function with the name and the
body, or is this function. -/
def Session.Needs (s : Session) (name : String) (body : List Instruction) : Prop :=
  ∃ f, Link.Reached s.functions [s.entry] f ∧ f.name = name ∧ f.body = body

/-- The functions that a session needs. -/
def Session.needed (s : Session) : List CompiledFunction :=
  s.functions.filter fun f => f.name ∈ Link.reach s.functions [s.entry]

namespace Session

variable {T : Target ι} {backend : Backend} {s : Session} {name entry : String}
  {body body' : List Instruction} {program program' : Program}

theorem needs_iff (hnodup : (s.functions.map (·.name)).Nodup) :
    s.Needs name body ↔ ∃ f ∈ s.needed, f.name = name ∧ f.body = body := by
  simp only [Needs, needed, Link.reached_iff hnodup, List.mem_filter, decide_eq_true_eq]

theorem Needs.unique (hnodup : (s.functions.map (·.name)).Nodup) (h : s.Needs name body)
    (h' : s.Needs name body') : body' = body := by
  obtain ⟨f, hf, rfl, rfl⟩ := h
  obtain ⟨g, hg, hname, rfl⟩ := h'
  rw [List.inj_on_of_nodup_map hnodup hg.mem hf.mem hname]

/-- A finished session puts the functions that it needs into its program, as the lines
that `code` has for them. -/
theorem finish_layout (C : T.Compiler backend) (hbackend : s.backend = backend)
    (hnodup : (s.functions.map (·.name)).Nodup)
    {code : String → List Instruction → List (Line ι)}
    (hcode : ∀ name body, s.Needs name body → body = (code name body).map Line.symbolic)
    (h : s.finish = .ok program)
    (hsize : program.bytes.length < 2 ^ 31) :
    ∃ P : Layout ι, program.bytes = codeBytes P.code ∧
      P.Placed 0 [.call s.entry, .plain InstructionSet.halt] ∧
      ∀ name address, P.symbols name = some address →
        ∃ body, s.Needs name body ∧ P.Placed address (code name body) := by
  obtain ⟨kept, hkept, hcollapse⟩ := collapse_of_finish h
  have hneeds : ∀ f ∈ kept, s.Needs f.name f.body :=
    fun f hf => ⟨f, (Link.mem_reachable_iff hnodup hkept).mp hf, rfl, rfl⟩
  have hlines : ∀ f ∈ kept, (id f).body = (code f.name f.body).map Line.symbolic :=
    fun f hf => hcode _ _ (hneeds f hf)
  rw [hbackend, C.preamble_eq, ← List.map_id kept] at hcollapse
  obtain ⟨linked, hbytes, hstart, hfunctions⟩ := Link.collapse_placed hlines hcollapse
  refine ⟨⟨linked, (program.symbols.lookup ·), by rwa [← length_codeBytes, ← hbytes]⟩, hbytes,
    hstart, fun name address hname => ?_⟩
  obtain ⟨f, hf, rfl, hplaced⟩ := hfunctions name address hname
  exact ⟨f.body, hneeds f hf, hplaced⟩

/-- The programs of two sessions that need the same functions. -/
theorem exists_relocation {A : Analysis ι} (C : T.Compiler backend) (hS : A.Sound)
    (hD : A.Steers) (hA : A.Accepts T.toPieces)
    (hT : T.Each fun i => ∀ target, i ≠ InstructionSet.call target) {ps ps' : List Package}
    (hsame : ∀ name body, (({ backend, entry } : Session).compileAll ps).Needs name body ↔
      (({ backend, entry } : Session).compileAll ps').Needs name body)
    (hfinish : (({ backend, entry } : Session).compileAll ps).finish = .ok program)
    (hfinish' : (({ backend, entry } : Session).compileAll ps').finish = .ok program')
    (hsize : program.bytes.length < 2 ^ 31) (hsize' : program'.bytes.length < 2 ^ 31) :
    ∃ R : Relocation A, program.bytes = codeBytes R.left.code ∧
      program'.bytes = codeBytes R.right.code ∧
      R.left.Placed 0 [.call entry, .plain InstructionSet.halt] ∧
      R.right.Placed 0 [.call entry, .plain InstructionSet.halt] := by
  obtain ⟨us, hfits, hsession⟩ := compileAll_functions C (s := { backend, entry }) rfl ps
  obtain ⟨us', -, hsession'⟩ := compileAll_functions C (s := { backend, entry }) rfl ps'
  have hnodup := ((compileAll_grows { backend, entry } ps).indexed .nil).nodup
  have hnodup' := ((compileAll_grows { backend, entry } ps').indexed .nil).nodup
  rw [hsession] at hsame hfinish hnodup
  rw [hsession'] at hsame hfinish' hnodup'
  -- the first session says which lines a body is made from
  have hlines : ∀ name body, ∃ lines : List (Line ι),
      (({ backend, entry } : Session).registerAll (us.map T.function)).Needs name body →
      body = lines.map Line.symbolic ∧
        (Line.length lines < 2 ^ 31 → ∀ n, Confined A lines true n 0 A.fresh) := by
    intro name body
    by_cases hneeds : (({ backend, entry } : Session).registerAll (us.map T.function)).Needs
      name body
    · obtain ⟨f, hf, rfl, rfl⟩ := hneeds
      obtain ⟨u, hu, rfl⟩ := List.mem_map.mp hf.mem
      exact ⟨_, fun _ => ⟨rfl, hA.body_confined hS hD hT (hfits u hu)⟩⟩
    · exact ⟨[], fun h => absurd h hneeds⟩
  choose code hcode using hlines
  obtain ⟨P, hbytes, hstart, hP⟩ := finish_layout C rfl hnodup
    (fun name body h => (hcode name body h).1) hfinish hsize
  obtain ⟨P', hbytes', hstart', hP'⟩ := finish_layout C rfl hnodup'
    (fun name body h => (hcode name body ((hsame name body).mpr h)).1) hfinish' hsize'
  refine ⟨⟨P, P', fun name address address' hname hname' => ?_⟩, hbytes, hbytes', hstart, hstart'⟩
  obtain ⟨body, hneeds, hplaced⟩ := hP name address hname
  obtain ⟨body', hneeds', hplaced'⟩ := hP' name address' hname'
  obtain rfl := Needs.unique hnodup hneeds ((hsame name body').mpr hneeds')
  refine ⟨_, hplaced, hplaced', (hcode name body' hneeds).2 ?_⟩
  have hend := hplaced.end_le
  have hsmall := P.small
  omega

end Session

end

/-- Where functions stand in a program and which others were compiled with them makes no
difference to a run. -/
theorem layout_irrelevant {backend : Backend} (hbackend : backend.Provided) {entry : String}
    {ps ps' : List Package}
    (hsame : ∀ name body, (({ backend, entry } : Session).compileAll ps).Needs name body ↔
      (({ backend, entry } : Session).compileAll ps').Needs name body)
    {program program' : Program}
    (hfinish : (({ backend, entry } : Session).compileAll ps).finish = .ok program)
    (hfinish' : (({ backend, entry } : Session).compileAll ps').finish = .ok program')
    (hsize : program.bytes.length < 2 ^ 31) (hsize' : program'.bytes.length < 2 ^ 31)
    (config : Config) :
    backend.target.machine.table.EndAlike
      (backend.target.machine.start config program.bytes)
      (backend.target.machine.start config program'.bytes) := by
  cases hbackend with
  | register file =>
      have hS := RegisterCode.analysis_sound
      have hD := RegisterCode.analysis_steers
      have hA := RegisterCode.analysis_accepts file
      obtain ⟨R, hbytes, hbytes', hstart, hstart'⟩ := Session.exists_relocation
        (RegisterCode.compiler file) hS hD hA (RegisterCode.pieces_each file) hsame hfinish hfinish'
        hsize hsize'
      rw [hbytes, hbytes']
      refine Relocation.endAlike hS hD (R.aligned_start hA hstart hstart' ⟨_, rfl, ?_⟩)
      rintro r w v ⟨⟩
  | stack =>
      have hS := StackCode.analysis_sound
      have hD := StackCode.analysis_steers
      have hA := StackCode.analysis_accepts
      obtain ⟨R, hbytes, hbytes', hstart, hstart'⟩ := Session.exists_relocation
        StackCode.compiler hS hD hA StackCode.pieces_each hsame hfinish hfinish' hsize hsize'
      rw [hbytes, hbytes']
      exact Relocation.endAlike hS hD
        (R.aligned_start hA hstart hstart' ⟨[], [], rfl, rfl, .nil⟩)

def doubled : Definition :=
  ⟨"double", ["x"], .expression (.binary .add (.identifier "x") (.identifier "x"))⟩

def tripled : Definition :=
  ⟨"triple", ["x"],
    .expression (.binary .add (.identifier "x") (.call "double" [.identifier "x"]))⟩

def sextupled : Definition :=
  ⟨"main", [], .expression (.call "triple" [.call "double" [.number 7]])⟩

/-- The functions in one package. -/
def packed : List Package := [.mk [] [doubled, tripled, sextupled]]

/-- The functions in two packages and another order, with one that is not called. -/
def scattered : List Package :=
  [.mk [] [tripled, ⟨"spare", [], .expression (.call "main" [])⟩], .mk [] [sextupled, doubled]]

/-- The session of packages for the register machine. -/
def registerSession (ps : List Package) : Session :=
  ({ backend := Kind.register.backend, entry := "main" } : Session).compileAll ps

def registerProgram (ps : List Package) : Program :=
  match (registerSession ps).finish with
  | .ok program => program
  | .error _ => default

theorem finish_registerSession {ps : List Package} (h : (registerSession ps).finish.isOk = true) :
    (registerSession ps).finish = .ok (registerProgram ps) := by
  rw [registerProgram]
  cases hfinish : (registerSession ps).finish with
  | ok program => rfl
  | error e => rw [hfinish] at h; cases h

theorem needs_scattered (name : String) (body : List Instruction) :
    (registerSession packed).Needs name body ↔ (registerSession scattered).Needs name body := by
  have hnodup : ∀ ps, ((registerSession ps).functions.map (·.name)).Nodup :=
    fun ps => ((Session.compileAll_grows _ ps).indexed .nil).nodup
  have hperm : (registerSession packed).needed.Perm (registerSession scattered).needed := by
    decide +kernel
  rw [Session.needs_iff (hnodup packed), Session.needs_iff (hnodup scattered)]
  exact exists_congr fun f => and_congr_left fun _ => hperm.mem_iff

/-- The functions have other addresses in the two programs, which both give 42. -/
theorem layout_irrelevant_scattered :
    (registerProgram packed).bytes ≠ (registerProgram scattered).bytes ∧
    ∃ s s', Kind.register.Ends {} (registerProgram packed).bytes .finished s ∧
      Kind.register.Ends {} (registerProgram scattered).bytes .finished s' ∧
      s.result? = some 42 ∧ s'.holder = s.holder ∧ s'.memory = s.memory := by
  have hok : (registerSession packed).finish.isOk = true ∧
      (registerSession scattered).finish.isOk = true := by decide +kernel
  have hsize : (registerProgram packed).bytes.length < 2 ^ 31 ∧
      (registerProgram scattered).bytes.length < 2 ^ 31 := by decide +kernel
  have hdiffer : (registerProgram packed).bytes ≠ (registerProgram scattered).bytes := by
    decide +kernel
  obtain ⟨s, hends, hresult⟩ : ∃ s,
      Kind.register.Ends {} (registerProgram packed).bytes .finished s ∧ s.result? = some 42 := by
    have hrun : ∃ r, Register.table.run 47 (Kind.register.machine.start {}
        (registerProgram packed).bytes) = r ∧ r.ending = .finished ∧ r.state.result? = some 42 :=
      ⟨_, rfl, by decide +kernel⟩
    obtain ⟨r, rfl, hending, hresult⟩ := hrun
    exact ⟨_, Table.ends_run hending, hresult⟩
  refine ⟨hdiffer, ?_⟩
  rcases layout_irrelevant (.register .standard) needs_scattered (finish_registerSession hok.1)
      (finish_registerSession hok.2) hsize.1 hsize.2 {} with
    ⟨r, s', hr, hs', hholder, hmemory⟩ | ⟨fault, r, r', hr, -⟩ | hnever
  · obtain ⟨-, rfl⟩ := hends.unique hr (by decide) (by decide)
    exact ⟨s, s', hends, hs', hresult, hholder, hmemory⟩
  · cases (hends.unique hr (by decide) (by simp)).1
  · cases hnever _ _ (.inl hends)

end DualMachine
