import DualMachine.Word

/-!
# The source language

Functions over words, whose body is a block of statements or one expression. There is one
type of values: truth values are the words 0 and 1, and every other word counts as true in
a condition. Variables are local to a block, have a value from their declaration on, and may
be assigned in the blocks inside it. A function is called by name, and its arguments are
variables of its own.

A package holds functions and, by name, the packages that it includes, in ascending order of
their names; a function of an included package is called by its dotted path. Parentheses
are kept in the tree although they mean nothing, because the tree is also a file format.

The syntax trees nest lists of themselves, for which equality cannot be derived. It is
defined by recursion on each kind of tree together with its lists, and shown to be equality
before it becomes the instance.
-/

namespace DualMachine.Source

inductive UnaryOp where
  | neg | not
  deriving DecidableEq, Repr, Inhabited

/-- Operations on two operands. `and` and `or` act on all bits and evaluate both
operands, like `bitAnd` and `bitOr`. -/
inductive BinaryOp where
  | add | sub | mul | div | mod | and | or | bitAnd | bitOr | bitXor
  | eq | ne | lt | le | gt | ge
  deriving DecidableEq, Repr, Inhabited

inductive Expr where
  | number (value : Word)
  | boolean (value : Bool)
  | identifier (name : String)
  | unary (op : UnaryOp) (operand : Expr)
  | binary (op : BinaryOp) (left right : Expr)
  | call (name : String) (args : List Expr)
  | paren (inner : Expr)
  deriving Inhabited

inductive Stmt where
  /-- Declares a variable of the block; its value does not see it. -/
  | var (name : String) (value : Expr)
  | assign (name : String) (value : Expr)
  | return (value : Expr)
  | if (cond : Expr) (onTrue : List Stmt) (onFalse : Option (List Stmt))
  | while (cond : Expr) (body : List Stmt)
  deriving Inhabited

/-- What a function does: a block that answers 0 at its end, or an expression. -/
inductive Body where
  | block (statements : List Stmt)
  | expression (value : Expr)
  deriving Inhabited

structure Definition where
  name : String
  args : List String
  body : Body
  deriving Inhabited

inductive Package where
  | mk (includes : List (String × Package)) (functions : List Definition)
  deriving Inhabited

namespace Package

def includes : Package → List (String × Package)
  | mk includes _ => includes

def functions : Package → List Definition
  | mk _ functions => functions

def empty : Package := mk [] []

/-- Adds a package to a list in ascending order; one of the same name is
replaced. -/
def insert (name : String) (package : Package) :
    List (String × Package) → List (String × Package)
  | [] => [(name, package)]
  | (other, included) :: rest =>
    if name < other then (name, package) :: (other, included) :: rest
    else if name = other then (name, package) :: rest
    else (other, included) :: insert name package rest

/-- The package with the given functions and includes; of two includes with one
name the later counts. -/
def ofIncludes (includes : List (String × Package)) (functions : List Definition) :
    Package :=
  mk (includes.foldl (fun sorted (name, package) => insert name package sorted) [])
    functions

end Package

/-! ## Equality -/

mutual

def Expr.beq : Expr → Expr → Bool
  | .number a, .number b => a == b
  | .boolean a, .boolean b => a == b
  | .identifier a, .identifier b => a == b
  | .unary o a, .unary p b => o == p && a.beq b
  | .binary o a b, .binary p c d => o == p && a.beq c && b.beq d
  | .call f as, .call g bs => f == g && Expr.beqAll as bs
  | .paren a, .paren b => a.beq b
  | _, _ => false

def Expr.beqAll : List Expr → List Expr → Bool
  | [], [] => true
  | a :: as, b :: bs => a.beq b && Expr.beqAll as bs
  | _, _ => false

end

mutual

theorem Expr.beq_iff : ∀ {a b : Expr}, a.beq b = true ↔ a = b
  | .number _, b => by cases b <;> simp [Expr.beq]
  | .boolean _, b => by cases b <;> simp [Expr.beq]
  | .identifier _, b => by cases b <;> simp [Expr.beq]
  | .unary _ x, b => by cases b <;> simp [Expr.beq, Expr.beq_iff (a := x)]
  | .binary _ x y, b => by
    cases b <;> simp [Expr.beq, Expr.beq_iff (a := x), Expr.beq_iff (a := y), and_assoc]
  | .call _ xs, b => by cases b <;> simp [Expr.beq, Expr.beqAll_iff (l := xs)]
  | .paren x, b => by cases b <;> simp [Expr.beq, Expr.beq_iff (a := x)]

theorem Expr.beqAll_iff : ∀ {l m : List Expr}, Expr.beqAll l m = true ↔ l = m
  | [], bs => by cases bs <;> simp [Expr.beqAll]
  | x :: xs, bs => by
    cases bs <;> simp [Expr.beqAll, Expr.beq_iff (a := x), Expr.beqAll_iff (l := xs)]

end

instance : DecidableEq Expr := fun _ _ => decidable_of_iff _ Expr.beq_iff

mutual

def Stmt.beq : Stmt → Stmt → Bool
  | .var x a, .var y b => x == y && a == b
  | .assign x a, .assign y b => x == y && a == b
  | .return a, .return b => a == b
  | .if a as none, .if b bs none => a == b && Stmt.beqAll as bs
  | .if a as (some cs), .if b bs (some ds) =>
    a == b && Stmt.beqAll as bs && Stmt.beqAll cs ds
  | .while a as, .while b bs => a == b && Stmt.beqAll as bs
  | _, _ => false

def Stmt.beqAll : List Stmt → List Stmt → Bool
  | [], [] => true
  | a :: as, b :: bs => a.beq b && Stmt.beqAll as bs
  | _, _ => false

end

mutual

theorem Stmt.beq_iff : ∀ {a b : Stmt}, a.beq b = true ↔ a = b
  | .var _ _, b => by cases b <;> simp [Stmt.beq]
  | .assign _ _, b => by cases b <;> simp [Stmt.beq]
  | .return _, b => by cases b <;> simp [Stmt.beq]
  | .if _ xs none, b => by
    rcases b with _ | _ | _ | ⟨_, _, _ | _⟩ | _ <;>
      simp [Stmt.beq, Stmt.beqAll_iff (l := xs)]
  | .if _ xs (some ys), b => by
    rcases b with _ | _ | _ | ⟨_, _, _ | _⟩ | _ <;>
      simp [Stmt.beq, Stmt.beqAll_iff (l := xs), Stmt.beqAll_iff (l := ys), and_assoc]
  | .while _ xs, b => by cases b <;> simp [Stmt.beq, Stmt.beqAll_iff (l := xs)]

theorem Stmt.beqAll_iff : ∀ {l m : List Stmt}, Stmt.beqAll l m = true ↔ l = m
  | [], bs => by cases bs <;> simp [Stmt.beqAll]
  | x :: xs, bs => by
    cases bs <;> simp [Stmt.beqAll, Stmt.beq_iff (a := x), Stmt.beqAll_iff (l := xs)]

end

instance : DecidableEq Stmt := fun _ _ => decidable_of_iff _ Stmt.beq_iff

deriving instance DecidableEq for Body, Definition

mutual

def Package.beq : Package → Package → Bool
  | .mk is fs, .mk js gs => Package.beqAll is js && fs == gs

def Package.beqAll : List (String × Package) → List (String × Package) → Bool
  | [], [] => true
  | (x, p) :: is, (y, q) :: js => x == y && p.beq q && Package.beqAll is js
  | _, _ => false

end

mutual

theorem Package.beq_iff : ∀ {p q : Package}, p.beq q = true ↔ p = q
  | .mk is _, .mk _ _ => by simp [Package.beq, Package.beqAll_iff (l := is)]

theorem Package.beqAll_iff :
    ∀ {l m : List (String × Package)}, Package.beqAll l m = true ↔ l = m
  | [], js => by cases js <;> simp [Package.beqAll]
  | (_, p) :: is, js => by
    cases js <;> simp [Package.beqAll, Package.beq_iff (p := p), Package.beqAll_iff (l := is),
      Prod.ext_iff, and_assoc]

end

instance : DecidableEq Package := fun _ _ => decidable_of_iff _ Package.beq_iff

end DualMachine.Source
