import DualMachine.Lowering.Scope

/-!
# What a package means

A big-step evaluation of the source language, as a function with fuel. Words
wrap, division goes toward zero and stops on a zero divisor, comparisons answer
0 or 1, `and` and `or` act on all bits after both operands were evaluated, a
block that comes to its end answers 0, and a call binds fresh variables to the
values of its arguments; arguments in excess are evaluated and dropped.

Fuel is used up by calls and by rounds of loops only, so an evaluation that is
`unfinished` with fuel `n` has gone through `n` of them.

What is left open is fixed by `Rules`: which operand of an operator comes first,
how deep activations may nest and where variables can be used. `evaluate`
stops with `refused` where the rules do not let it go on. `Rules.unlimited` never
refuses; `Rules.nesting k` refuses an activation that would be the `k + 1`st in a
nest; `Rules.frames` refuses what would leave the memory of a machine, where the
activation at depth `d` owns the `d`th frame and passes arguments in the next one.

Evaluation is written for any monad with stops. A single answer is an
`Except Stop`; a set of answers is needed where a parameter without an argument
can have any value.
-/

namespace DualMachine.Source

/-! ## Stops and operators -/

/-- Why an evaluation has no value. -/
inductive Stop where
  | divisionByZero
  /-- The rules do not let the evaluation go on. -/
  | refused
  /-- A name has no meaning or a call lacks an argument. -/
  | undefined
  /-- The fuel is used up. -/
  | unfinished
  deriving DecidableEq, Repr

/-- The effects of an evaluation: it can stop without a value. -/
class Evaluator (m : Type → Type) extends Monad m where
  stop {α : Type} : Stop → m α

export Evaluator (stop)

instance : Evaluator (Except Stop) where
  stop := .error

/-- The value of an operator on one word. -/
def UnaryOp.apply : UnaryOp → Word → Word
  | .neg, a => -a
  | .not, a => Word.ofBool (a == 0)

/-- The value of an operator on two words; a zero divisor gives none. -/
def BinaryOp.apply : BinaryOp → Word → Word → Option Word
  | .add, a, b => some (a + b)
  | .sub, a, b => some (a - b)
  | .mul, a, b => some (a * b)
  | .div, a, b => if b = 0 then none else some (a / b)
  | .mod, a, b => if b = 0 then none else some (a % b)
  | .and, a, b | .bitAnd, a, b => some (a &&& b)
  | .or, a, b | .bitOr, a, b => some (a ||| b)
  | .bitXor, a, b => some (a ^^^ b)
  | .eq, a, b => some (Word.ofBool (a == b))
  | .ne, a, b => some (Word.ofBool (a != b))
  | .lt, a, b => some (Word.ofBool (a < b))
  | .le, a, b => some (Word.ofBool (a ≤ b))
  | .gt, a, b => some (Word.ofBool (b < a))
  | .ge, a, b => some (Word.ofBool (b ≤ a))

/-! ## Expressions -/

/-- The variables in scope with their values, in the order of declaration. -/
abbrev Env := List (String × Word)

/-- Gives a variable in scope another value. -/
def Env.assign (x : String) (w : Word) : Env → Option Env
  | [] => none
  | (y, v) :: env =>
    if x = y then some ((y, w) :: env) else (Env.assign x w env).map ((y, v) :: ·)

/-- What the evaluation of one activation rests on. -/
structure Context (m : Type → Type) where
  /-- Whether the right operand of an operator comes before the left one. -/
  rightFirst : Bool
  /-- Asks whether variables can be used. -/
  touch : m Unit
  /-- The value of a call of a name, as it is written, with these arguments. -/
  call : String → List Word → m Word

section

variable {m : Type → Type} [Evaluator m]

/-- A value, or a stop where there is none. -/
def valueOr (reason : Stop) : Option Word → m Word
  | some w => pure w
  | none => stop reason

/-- The results of two computations, one carried out after the other. -/
def inOrder (rightFirst : Bool) (left right : m Word) : m (Word × Word) :=
  if rightFirst then do
    let b ← right
    let a ← left
    return (a, b)
  else do
    let a ← left
    let b ← right
    return (a, b)

mutual

/-- The value of an expression. -/
def Expr.eval (c : Context m) (env : Env) : Expr → m Word
  | .number n => pure n
  | .boolean b => pure (Word.ofBool b)
  | .identifier x => do
    c.touch
    valueOr .undefined (env.lookup x)
  | .paren inner => inner.eval c env
  | .unary op operand => do
    let a ← operand.eval c env
    return op.apply a
  | .binary op left right => do
    let (a, b) ← inOrder c.rightFirst (left.eval c env) (right.eval c env)
    valueOr .divisionByZero (op.apply a b)
  | .call f args => do
    let ws ← Expr.evalAll c env args
    c.call f ws

/-- The values of expressions, from left to right. -/
def Expr.evalAll (c : Context m) (env : Env) : List Expr → m (List Word)
  | [] => pure []
  | e :: es => do
    let w ← e.eval c env
    let ws ← Expr.evalAll c env es
    return w :: ws

end

/-! ## Statements -/

/-- How a statement ends: it goes on with new values of the variables, or the
activation returns. -/
inductive Flow where
  | next (env : Env)
  | done (value : Word)
  deriving DecidableEq, Repr

/-- Leaves a block that was entered with `count` variables. -/
def Flow.leave (count : Nat) : Flow → Flow
  | .next env => .next (env.take count)
  | .done w => .done w

/-- Carries statements out in a nested block. -/
def inBlock (statements : Env → m Flow) (env : Env) : m Flow := do
  let flow ← statements env
  return flow.leave env.length

/-- Rounds of a loop, at most as many as there is fuel. -/
def loop (test : Env → m Word) (body : Env → m Flow) : (fuel : Nat) → Env → m Flow
  | 0, _ => stop .unfinished
  | fuel + 1, env => do
    let w ← test env
    if w = 0 then return .next env
    else
      match ← body env with
      | .next env => loop test body fuel env
      | .done w => return .done w

mutual

/-- Carries a statement out; every loop in it has the same fuel. -/
def Stmt.exec (c : Context m) (fuel : Nat) : Stmt → Env → m Flow
  | .var x value, env => do
    -- the value is evaluated before its name is in scope
    let w ← value.eval c env
    c.touch
    return .next (env ++ [(x, w)])
  | .assign x value, env => do
    let w ← value.eval c env
    c.touch
    match env.assign x w with
    | some env => return .next env
    | none => stop .undefined
  | .return value, env => do
    let w ← value.eval c env
    return .done w
  | .if cond onTrue none, env => do
    let w ← cond.eval c env
    if w = 0 then return .next env else inBlock (Stmt.execAll c fuel onTrue) env
  | .if cond onTrue (some onFalse), env => do
    let w ← cond.eval c env
    if w = 0 then inBlock (Stmt.execAll c fuel onFalse) env
    else inBlock (Stmt.execAll c fuel onTrue) env
  | .while cond body, env =>
    loop (fun env => cond.eval c env) (inBlock (Stmt.execAll c fuel body)) fuel env

/-- Carries statements out one after the other, up to a return. -/
def Stmt.execAll (c : Context m) (fuel : Nat) : List Stmt → Env → m Flow
  | [], env => return .next env
  | s :: ss, env => do
    match ← s.exec c fuel env with
    | .next env => Stmt.execAll c fuel ss env
    | .done w => return .done w

end

/-- The answer of a body. -/
def Body.run (c : Context m) (fuel : Nat) (env : Env) : Body → m Word
  | .block ss => do
    match ← Stmt.execAll c fuel ss env with
    | .next _ => return 0
    | .done w => return w
  | .expression value => value.eval c env

end

/-! ## Functions -/

mutual

/-- The functions of a package and of those it includes, each with the scope that
names it, in the order in which they are compiled. -/
def Package.registered (path : String) : Package → List (Scope × Definition)
  | .mk includes functions =>
    Package.registeredIn path includes
      ++ functions.map fun d => (Scope.ofPackage path (.mk includes functions), d)

/-- The functions of included packages. -/
def Package.registeredIn (path : String) :
    List (String × Package) → List (Scope × Definition)
  | [] => []
  | (name, p) :: rest =>
    Package.registered (path ++ name ++ ".") p ++ Package.registeredIn path rest

end

/-- The function that is registered under a name. -/
def Package.find? (p : Package) (name : String) : Option (Scope × Definition) :=
  (p.registered "").find? fun (scope, d) => scope.define d.name == name

/-- What the definition of the language leaves open. -/
structure Rules where
  /-- Whether the right operand of an operator comes before the left one. -/
  rightFirst : Bool
  /-- Whether an activation at a depth can make a call with that many arguments. -/
  enter : (depth args : Nat) → Bool
  /-- Whether an activation at a depth can use variables. -/
  touch : (depth : Nat) → Bool

namespace Rules

/-- No limits. -/
def unlimited (rightFirst : Bool) : Rules where
  rightFirst := rightFirst
  enter _ _ := true
  touch _ := true

/-- At most `count` activations are nested in each other. -/
def nesting (rightFirst : Bool) (count : Nat) : Rules where
  rightFirst := rightFirst
  enter depth _ := depth < count
  touch _ := true

/-- A variable is used only where its activation's frame is one of the `count`
that memory holds, and arguments are passed only where the next frame is. -/
def frames (rightFirst : Bool) (count : Nat) : Rules where
  rightFirst := rightFirst
  -- a call without arguments needs no next frame
  enter depth args := args == 0 || depth < count
  touch depth := depth ≤ count

/-- The context of an activation at a depth in a scope, where `activate` gives the
value of a call by the function's registered name. -/
def context {m : Type → Type} [Evaluator m] (rules : Rules) (depth : Nat) (scope : Scope)
    (activate : String → List Word → m Word) : Context m where
  rightFirst := rules.rightFirst
  touch := if rules.touch depth then pure () else stop .refused
  call f ws :=
    if rules.enter depth ws.length then activate (scope.qualify f) ws else stop .refused

end Rules

/-- The value of an activation at a depth: the function registered under a name,
applied to arguments. `fill` gives the words for parameters without an argument. -/
def Package.activate {m : Type → Type} [Evaluator m] (p : Package) (rules : Rules)
    (fill : Nat → m (List Word)) :
    (fuel depth : Nat) → (name : String) → (args : List Word) → m Word
  | 0, _, _, _ => stop .unfinished
  | fuel + 1, depth, name, args =>
    match p.find? name with
    | none => stop .undefined
    | some (scope, d) => do
      let rest ← fill (d.args.length - args.length)
      d.body.run (rules.context depth scope (p.activate rules fill fuel (depth + 1))) fuel
        (d.args.zip (args ++ rest))

/-- A call that lacks arguments has no meaning. -/
def noneMissing : Nat → Except Stop (List Word)
  | 0 => .ok []
  | _ + 1 => .error .undefined

/-- The value of a package's entry point, whose parameters are 0. -/
def Package.evaluate (p : Package) (rules : Rules) (fuel : Nat) (entry : String) :
    Except Stop Word :=
  match p.find? entry with
  | none => .error .undefined
  | some (_, d) =>
    p.activate rules noneMissing fuel 1 entry (List.replicate d.args.length 0)

/-- The entry point has the value `w`. -/
def Package.Yields (p : Package) (rightFirst : Bool) (entry : String) (w : Word) : Prop :=
  ∃ fuel, p.evaluate (.unlimited rightFirst) fuel entry = .ok w

/-- The entry point comes to a division by zero. -/
def Package.Divides (p : Package) (rightFirst : Bool) (entry : String) : Prop :=
  ∃ fuel, p.evaluate (.unlimited rightFirst) fuel entry = .error .divisionByZero

/-- The entry point, however far it is evaluated, never comes to more than `count`
activations that are nested in each other. -/
def Package.NestsWithin (p : Package) (rightFirst : Bool) (count : Nat) (entry : String) : Prop :=
  ∀ fuel, p.evaluate (.nesting rightFirst count) fuel entry ≠ .error .refused

/-! ## Calls with enough arguments -/

mutual

/-- Whether every call in an expression passes at least as many arguments as the
name's `arity` says. -/
def Expr.saturated (arity : String → Nat) : Expr → Bool
  | .number _ | .boolean _ | .identifier _ => true
  | .paren inner => inner.saturated arity
  | .unary _ operand => operand.saturated arity
  | .binary _ left right => left.saturated arity && right.saturated arity
  | .call f args => arity f ≤ args.length && Expr.saturatedAll arity args

/-- The same for all of some expressions. -/
def Expr.saturatedAll (arity : String → Nat) : List Expr → Bool
  | [] => true
  | e :: es => e.saturated arity && Expr.saturatedAll arity es

end

mutual

/-- Whether every call in a statement passes enough arguments. -/
def Stmt.saturated (arity : String → Nat) : Stmt → Bool
  | .var _ value | .assign _ value | .return value => value.saturated arity
  | .if cond onTrue none => cond.saturated arity && Stmt.saturatedAll arity onTrue
  | .if cond onTrue (some onFalse) =>
    cond.saturated arity && Stmt.saturatedAll arity onTrue && Stmt.saturatedAll arity onFalse
  | .while cond body => cond.saturated arity && Stmt.saturatedAll arity body

/-- The same for all of some statements. -/
def Stmt.saturatedAll (arity : String → Nat) : List Stmt → Bool
  | [] => true
  | s :: ss => s.saturated arity && Stmt.saturatedAll arity ss

end

/-- Whether every call in a body passes enough arguments. -/
def Body.saturated (arity : String → Nat) : Body → Bool
  | .block ss => Stmt.saturatedAll arity ss
  | .expression value => value.saturated arity

/-- The number of parameters of the function registered under a name. -/
def Package.arity (p : Package) (name : String) : Nat :=
  match p.find? name with
  | none => 0
  | some (_, d) => d.args.length

/-- Whether no call in a package passes fewer arguments than its callee declares. -/
def Package.saturated (p : Package) : Bool :=
  (p.registered "").all fun (scope, d) =>
    d.body.saturated fun f => p.arity (scope.qualify f)

end DualMachine.Source
