import DualMachine.Proofs.Evaluation

/-!
# Evaluations in step with each other

Evaluation treats its monad, its rules and the words for missing arguments as
given, so two evaluations whose givens are related have related results. The
argument is made once, for any relation that respects values, stops and
sequencing (`Coupling`), by induction over the syntax and over the fuel
(`Coupling.activate`). It is used three times:

- a set of answers (`May`) has at most the one answer of the plain evaluation,
  where no argument is missing (`May.eq_evaluate`);
- rules that refuse less give the same answer, unless it was a refusal
  (`evaluate_relax`);
- the order of operands does not matter to an evaluation that has a value
  (`evaluate_order`).
-/

namespace DualMachine.Source

/-! ## Couplings -/

/-- A relation between computations in `m` and plain results that evaluation
respects. A continuation has to be related only at the values that the plain
result can have. -/
structure Coupling (m : Type → Type) [Evaluator m] where
  Rel : {α : Type} → m α → Except Stop α → Prop
  pure_rel : ∀ {α : Type} (a : α), Rel (pure a) (.ok a)
  stop_rel : ∀ {α : Type} (reason : Stop), Rel (stop reason : m α) (.error reason)
  bind_rel : ∀ {α β : Type} {x : m α} {y : Except Stop α} {f : α → m β}
    {g : α → Except Stop β}, Rel x y → (∀ a, y = .ok a → Rel (f a) (g a)) →
    Rel (x >>= f) (y >>= g)

namespace Coupling

variable {m : Type → Type} [Evaluator m] (C : Coupling m)

/-- Contexts whose parts are related, where a call passes at least as many
arguments as `arity` says. -/
structure Contexts (arity : String → Nat) (c : Context m) (c' : Context (Except Stop)) :
    Prop where
  order : ∀ {x x' : m Word} {y y' : Except Stop Word}, C.Rel x y → C.Rel x' y' →
    C.Rel (inOrder c.rightFirst x x') (inOrder c'.rightFirst y y')
  touch : C.Rel c.touch c'.touch
  call : ∀ f ws, arity f ≤ ws.length → C.Rel (c.call f ws) (c'.call f ws)

theorem valueOr (reason : Stop) (w : Option Word) :
    C.Rel (Source.valueOr reason w : m Word) (Source.valueOr reason w) := by
  cases w with
  | none => exact C.stop_rel reason
  | some w => exact C.pure_rel w

/-- Operands evaluated in the same order. -/
theorem inOrder (rightFirst : Bool) {x x' : m Word} {y y' : Except Stop Word}
    (hx : C.Rel x y) (hx' : C.Rel x' y') :
    C.Rel (Source.inOrder rightFirst x x') (Source.inOrder rightFirst y y') := by
  cases rightFirst with
  | false =>
      exact C.bind_rel hx fun a _ => C.bind_rel hx' fun b _ => C.pure_rel (a, b)
  | true =>
      exact C.bind_rel hx' fun b _ => C.bind_rel hx fun a _ => C.pure_rel (a, b)

end Coupling

theorem Expr.evalAll_length {c : Context (Except Stop)} {env : Env} :
    ∀ {es : List Expr} {ws : List Word}, Expr.evalAll c env es = .ok ws →
      ws.length = es.length
  | [], ws, h => by
      obtain rfl : [] = ws := Except.ok.inj h
      rfl
  | e :: es, ws, h => by
      rw [Expr.evalAll] at h
      cases he : e.eval c env with
      | error reason => rw [he] at h; cases h
      | ok w =>
          rw [he] at h
          cases hes : Expr.evalAll c env es with
          | error reason => rw [hes] at h; cases h
          | ok ws' =>
              rw [hes] at h
              obtain rfl : w :: ws' = ws := Except.ok.inj h
              rw [List.length_cons, List.length_cons, evalAll_length hes]

namespace Coupling

variable {m : Type → Type} [Evaluator m] {C : Coupling m} {arity : String → Nat}
  {c : Context m} {c' : Context (Except Stop)}

/-! ## Expressions -/

mutual

theorem eval (h : C.Contexts arity c c') (env : Env) : ∀ (e : Expr),
    e.saturated arity = true → C.Rel (e.eval c env) (e.eval c' env)
  | .number n, _ => C.pure_rel n
  | .boolean b, _ => C.pure_rel _
  | .identifier x, _ => C.bind_rel h.touch fun _ _ => C.valueOr _ _
  | .paren inner, hs => by
      rw [Expr.saturated] at hs
      exact eval h env inner hs
  | .unary op operand, hs => by
      rw [Expr.saturated] at hs
      exact C.bind_rel (eval h env operand hs) fun a _ => C.pure_rel _
  | .binary op left right, hs => by
      rw [Expr.saturated, Bool.and_eq_true] at hs
      exact C.bind_rel (h.order (eval h env left hs.1) (eval h env right hs.2))
        fun ab _ => C.valueOr _ _
  | .call f args, hs => by
      rw [Expr.saturated, Bool.and_eq_true, decide_eq_true_eq] at hs
      -- calls are related where enough values are passed: as many as there are arguments
      refine C.bind_rel (evalAll h env args hs.2) fun ws hws => h.call f ws ?_
      rw [Expr.evalAll_length hws]
      exact hs.1

theorem evalAll (h : C.Contexts arity c c') (env : Env) : ∀ (es : List Expr),
    Expr.saturatedAll arity es = true → C.Rel (Expr.evalAll c env es) (Expr.evalAll c' env es)
  | [], _ => C.pure_rel []
  | e :: es, hs => by
      rw [Expr.saturatedAll, Bool.and_eq_true] at hs
      exact C.bind_rel (eval h env e hs.1) fun w _ =>
        C.bind_rel (evalAll h env es hs.2) fun ws _ => C.pure_rel _

end

/-! ## Statements -/

theorem loop {test : Env → m Word} {test' : Env → Except Stop Word}
    {body : Env → m Flow} {body' : Env → Except Stop Flow}
    (htest : ∀ env, C.Rel (test env) (test' env))
    (hbody : ∀ env, C.Rel (body env) (body' env)) :
    ∀ (fuel : Nat) (env : Env),
      C.Rel (Source.loop test body fuel env) (Source.loop test' body' fuel env)
  | 0, _ => C.stop_rel _
  | fuel + 1, env => by
      refine C.bind_rel (htest env) fun w _ => ?_
      by_cases hw : w = 0
      · rw [if_pos hw, if_pos hw]
        exact C.pure_rel _
      · rw [if_neg hw, if_neg hw]
        refine C.bind_rel (hbody env) fun flow _ => ?_
        cases flow with
        | next env' => exact loop htest hbody fuel env'
        | done w => exact C.pure_rel _

theorem inBlock {statements : Env → m Flow} {statements' : Env → Except Stop Flow} {env : Env}
    (h : C.Rel (statements env) (statements' env)) :
    C.Rel (Source.inBlock statements env) (Source.inBlock statements' env) :=
  C.bind_rel h fun _ _ => C.pure_rel _

mutual

theorem exec (h : C.Contexts arity c c') (fuel : Nat) : ∀ (s : Stmt) (env : Env),
    s.saturated arity = true → C.Rel (s.exec c fuel env) (s.exec c' fuel env)
  | .var x value, env, hs => by
      rw [Stmt.saturated] at hs
      exact C.bind_rel (eval h env value hs) fun w _ =>
        C.bind_rel h.touch fun _ _ => C.pure_rel _
  | .assign x value, env, hs => by
      rw [Stmt.saturated] at hs
      refine C.bind_rel (eval h env value hs) fun w _ =>
        C.bind_rel h.touch fun _ _ => ?_
      cases env.assign x w with
      | none => exact C.stop_rel _
      | some env' => exact C.pure_rel _
  | .return value, env, hs => by
      rw [Stmt.saturated] at hs
      exact C.bind_rel (eval h env value hs) fun w _ => C.pure_rel _
  | .if cond onTrue none, env, hs => by
      rw [Stmt.saturated, Bool.and_eq_true] at hs
      refine C.bind_rel (eval h env cond hs.1) fun w _ => ?_
      by_cases hw : w = 0
      · rw [if_pos hw, if_pos hw]
        exact C.pure_rel _
      · rw [if_neg hw, if_neg hw]
        exact inBlock (execAll h fuel onTrue env hs.2)
  | .if cond onTrue (some onFalse), env, hs => by
      rw [Stmt.saturated, Bool.and_eq_true, Bool.and_eq_true] at hs
      refine C.bind_rel (eval h env cond hs.1.1) fun w _ => ?_
      by_cases hw : w = 0
      · rw [if_pos hw, if_pos hw]
        exact inBlock (execAll h fuel onFalse env hs.2)
      · rw [if_neg hw, if_neg hw]
        exact inBlock (execAll h fuel onTrue env hs.1.2)
  | .while cond body, env, hs => by
      rw [Stmt.saturated, Bool.and_eq_true] at hs
      exact loop (fun env => eval h env cond hs.1)
        (fun env => inBlock (execAll h fuel body env hs.2)) fuel env

theorem execAll (h : C.Contexts arity c c') (fuel : Nat) : ∀ (ss : List Stmt) (env : Env),
    Stmt.saturatedAll arity ss = true →
      C.Rel (Stmt.execAll c fuel ss env) (Stmt.execAll c' fuel ss env)
  | [], env, _ => C.pure_rel _
  | s :: ss, env, hs => by
      rw [Stmt.saturatedAll, Bool.and_eq_true] at hs
      refine C.bind_rel (exec h fuel s env hs.1) fun flow _ => ?_
      cases flow with
      | next env' => exact execAll h fuel ss env' hs.2
      | done w => exact C.pure_rel _

end

theorem run (h : C.Contexts arity c c') (fuel : Nat) (env : Env) : ∀ (body : Body),
    body.saturated arity = true → C.Rel (body.run c fuel env) (body.run c' fuel env)
  | .block ss, hs => by
      rw [Body.saturated] at hs
      refine C.bind_rel (execAll h fuel ss env hs) fun flow _ => ?_
      cases flow with
      | next env' => exact C.pure_rel _
      | done w => exact C.pure_rel _
  | .expression value, hs => eval h env value hs

/-! ## Activations -/

/-- Rules whose decisions are related. -/
structure Rules (C : Coupling m) (rules rules' : Source.Rules) : Prop where
  order : ∀ {x x' : m Word} {y y' : Except Stop Word}, C.Rel x y → C.Rel x' y' →
    C.Rel (Source.inOrder rules.rightFirst x x') (Source.inOrder rules'.rightFirst y y')
  touch : ∀ depth, C.Rel (if rules.touch depth then pure () else stop .refused : m Unit)
    (if rules'.touch depth then .ok () else .error .refused)
  enter : ∀ depth count {x : m Word} {y : Except Stop Word}, C.Rel x y →
    C.Rel (if rules.enter depth count then x else stop .refused)
      (if rules'.enter depth count then y else .error .refused)

end Coupling

theorem Package.saturated_find {p : Package} (hp : p.saturated = true) {name : String}
    {scope : Scope} {d : Definition} (hfind : p.find? name = some (scope, d)) :
    d.body.saturated (fun f => p.arity (scope.qualify f)) = true :=
  List.all_eq_true.mp hp (scope, d) (List.mem_of_find?_eq_some hfind)

theorem Package.arity_of_find {p : Package} {name : String} {scope : Scope} {d : Definition}
    (hfind : p.find? name = some (scope, d)) : p.arity name = d.args.length := by
  rw [Package.arity, hfind]

theorem Package.arity_le_replicate {p : Package} {entry : String} {scope : Scope}
    {d : Definition} (hfind : p.find? entry = some (scope, d)) (w : Word) :
    p.arity entry ≤ (List.replicate d.args.length w).length :=
  Nat.le_of_eq ((p.arity_of_find hfind).trans List.length_replicate.symm)

theorem Coupling.activate {m : Type → Type} [Evaluator m] {C : Coupling m} {p : Package}
    (hp : p.saturated = true) {rules rules' : Source.Rules} (hrules : C.Rules rules rules')
    {fill : Nat → m (List Word)} (hfill : C.Rel (fill 0) (.ok [])) :
    ∀ (fuel depth : Nat) (name : String) (args : List Word), p.arity name ≤ args.length →
      C.Rel (p.activate rules fill fuel depth name args)
        (p.activate rules' noneMissing fuel depth name args)
  | 0, _, _, _, _ => C.stop_rel _
  | fuel + 1, depth, name, args, hargs => by
      rw [Package.activate, Package.activate]
      cases hfind : p.find? name with
      | none => exact C.stop_rel _
      | some found =>
          obtain ⟨scope, d⟩ := found
          rw [p.arity_of_find hfind] at hargs
          -- no argument is missing, so what `fill` would choose does not come in
          have hmissing : d.args.length - args.length = 0 := by omega
          dsimp only
          rw [hmissing]
          refine C.bind_rel hfill fun rest _ =>
            Coupling.run ⟨hrules.order, hrules.touch depth, fun f ws hws => ?_⟩ fuel _ d.body
              (p.saturated_find hp hfind)
          exact hrules.enter depth ws.length
            (Coupling.activate hp hrules hfill fuel (depth + 1) _ ws hws)

/-! ## Sets of answers -/

/-- A set of answers. -/
def May (α : Type) : Type := Except Stop α → Prop

namespace May

instance : Evaluator May where
  pure a := fun r => r = .ok a
  bind x f := fun r =>
    (∃ a, x (.ok a) ∧ f a r) ∨ ∃ reason, x (.error reason) ∧ r = .error reason
  stop reason := fun r => r = .error reason

variable {α β : Type} {x : May α} {f : α → May β}

theorem bind_ok {a : α} {r : Except Stop β} (hx : x (.ok a)) (hf : f a r) : (x >>= f) r :=
  Or.inl ⟨a, hx, hf⟩

theorem bind_error {reason : Stop} (hx : x (.error reason)) : (x >>= f) (.error reason) :=
  Or.inr ⟨reason, hx, rfl⟩

/-- Any words for the parameters without an argument. -/
def anyWords (count : Nat) : May (List Word) := fun r => ∃ ws, ws.length = count ∧ r = .ok ws

/-- The set holds no other answer than the plain one. -/
def single : Coupling May where
  Rel x y := ∀ r, x r → r = y
  pure_rel _ := fun _ hr => hr
  stop_rel _ := fun _ hr => hr
  bind_rel := by
    intro α β x y f g hx hf r hr
    rcases hr with ⟨a, ha, hr⟩ | ⟨reason, he, rfl⟩
    · have hy := hx _ ha
      subst hy
      exact hf a rfl r hr
    · have hy := hx _ he
      subst hy
      rfl

theorem single_rules (rules : Rules) : single.Rules rules rules where
  order hx hx' := single.inOrder rules.rightFirst hx hx'
  touch depth := by
    cases rules.touch depth with
    | true => exact single.pure_rel ()
    | false => exact single.stop_rel _
  enter depth count {x y} h := by
    cases rules.enter depth count with
    | true => exact h
    | false => exact single.stop_rel _

/-- Where no call lacks an argument, the only answer of an entry point is that of
its evaluation. -/
theorem eq_evaluate {p : Package} (hp : p.saturated = true) {rules : Rules} {fuel : Nat}
    {entry : String} {scope : Scope} {d : Definition}
    (hfind : p.find? entry = some (scope, d)) {r : Except Stop Word}
    (hr : p.activate rules anyWords fuel 1 entry (List.replicate d.args.length 0) r) :
    r = p.evaluate rules fuel entry := by
  have hfill : single.Rel (anyWords 0) (.ok []) := by
    rintro r ⟨ws, hws, rfl⟩
    rw [List.length_eq_zero_iff.mp hws]
  rw [Package.evaluate, hfind]
  exact Coupling.activate hp (single_rules rules) hfill fuel 1 entry _
    (p.arity_le_replicate hfind 0) r hr

end May

/-! ## Relaxed rules and the order of operands -/

/-- The second result is the first, unless the first is a refusal. -/
def unlessRefused : Coupling (Except Stop) where
  Rel x y := x ≠ .error .refused → y = x
  pure_rel _ := fun _ => rfl
  stop_rel _ := fun _ => rfl
  bind_rel := by
    intro α β x y f g hx hf hne
    cases x with
    | error reason =>
        -- a refusal of the first part would be a refusal of the whole
        have hreason : (.error reason : Except Stop α) ≠ .error .refused := fun h =>
          hne (by rw [Except.error.inj h]; rfl)
        rw [hx hreason]
        rfl
    | ok a =>
        obtain rfl := hx (fun h => nomatch h)
        exact hf a rfl hne

/-- Rules that refuse less give the same answer, unless it was a refusal. -/
theorem Package.evaluate_relax {p : Package} (hp : p.saturated = true) {rules rules' : Rules}
    (horder : rules.rightFirst = rules'.rightFirst)
    (htouch : ∀ depth, rules.touch depth = true → rules'.touch depth = true)
    (henter : ∀ depth args, rules.enter depth args = true → rules'.enter depth args = true)
    {fuel : Nat} {entry : String} (h : p.evaluate rules fuel entry ≠ .error .refused) :
    p.evaluate rules' fuel entry = p.evaluate rules fuel entry := by
  have hrules : unlessRefused.Rules rules rules' :=
    { order := fun hx hx' => by
        rw [horder]
        exact unlessRefused.inOrder _ hx hx'
      touch := fun depth => by
        cases ht : rules.touch depth with
        | true =>
            rw [htouch depth ht]
            exact unlessRefused.pure_rel ()
        | false => exact fun hne => absurd rfl hne
      enter := fun depth count {x y} hxy => by
        cases he : rules.enter depth count with
        | true =>
            rw [henter depth count he]
            exact hxy
        | false => exact fun hne => absurd rfl hne }
  rw [Package.evaluate] at h ⊢
  cases hfind : p.find? entry with
  | none =>
      rw [Package.evaluate, hfind]
  | some found =>
      obtain ⟨scope, d⟩ := found
      rw [hfind] at h
      rw [Package.evaluate, hfind]
      exact Coupling.activate hp hrules (unlessRefused.pure_rel []) fuel 1 entry _
        (p.arity_le_replicate hfind 0) h

/-- The second result is the first, if the first is a value. -/
def onValues : Coupling (Except Stop) where
  Rel x y := ∀ a, x = .ok a → y = .ok a
  pure_rel _ := fun _ h => h
  stop_rel _ := fun _ h => nomatch h
  bind_rel := by
    intro α β x y f g hx hf b hb
    cases x with
    | error reason => cases hb
    | ok a =>
        obtain rfl := hx a rfl
        exact hf a rfl b hb

theorem inOrder_ok {rightFirst : Bool} {x y : Except Stop Word} {ab : Word × Word}
    (h : inOrder rightFirst x y = .ok ab) : x = .ok ab.1 ∧ y = .ok ab.2 := by
  cases rightFirst <;> cases x <;> cases y <;> cases h <;> exact ⟨rfl, rfl⟩

/-- The order of operands does not matter to an evaluation that has a value. -/
theorem Package.evaluate_order {p : Package} (hp : p.saturated = true) {rules rules' : Rules}
    (htouch : rules.touch = rules'.touch) (henter : rules.enter = rules'.enter)
    {fuel : Nat} {entry : String} {w : Word} (h : p.evaluate rules fuel entry = .ok w) :
    p.evaluate rules' fuel entry = .ok w := by
  have hrules : onValues.Rules rules rules' :=
    { order := fun hx hx' ab hab => by
        -- both operands have values, so any order finds them
        obtain ⟨ha, hb⟩ := inOrder_ok hab
        rw [hx _ ha, hx' _ hb]
        cases rules'.rightFirst <;> rfl
      touch := fun depth => by
        rw [htouch]
        cases rules'.touch depth with
        | true => exact onValues.pure_rel ()
        | false => exact onValues.stop_rel _
      enter := fun depth count {x y} hxy => by
        rw [henter]
        cases rules'.enter depth count with
        | true => exact hxy
        | false => exact onValues.stop_rel _ }
  rw [Package.evaluate] at h ⊢
  cases hfind : p.find? entry with
  | none => rw [hfind] at h; cases h
  | some found =>
      obtain ⟨scope, d⟩ := found
      rw [hfind] at h
      exact Coupling.activate hp hrules (onValues.pure_rel []) fuel 1 entry _
        (p.arity_le_replicate hfind 0) w h

end DualMachine.Source
