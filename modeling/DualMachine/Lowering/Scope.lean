import DualMachine.Source.Basic

/-!
# Names of functions

A function of an included package is registered under its dotted path. Inside the package,
a call to a name that the package itself defines, by a function of its own or by the path
of a nested include, goes to that definition; every other name is taken as it is written.
A package can thus be included anywhere without the calls to its own definitions changing
their meaning, and a name that it does not define is looked for in the whole program.

The names are computed from the package before any of its functions is compiled, so a call
may come before the definition it goes to. The package that nothing includes has the empty
path, and there both cases give the name as it is written.

A dot has no meaning in a name other than this: a function may have one in its own name,
and then it can be the same as that of a function in an include.
-/

namespace DualMachine

open Source

/-- How the functions of one package are named. -/
structure Scope where
  /-- What stands before the package's own names: empty, or a path with its dot. -/
  path : String := ""
  /-- The names that the package defines, as they are written inside it. -/
  names : List String := []
  deriving DecidableEq, Repr, Inhabited

namespace Scope

mutual

/-- The names that a package defines, each after `path`. -/
def namesOf (path : String) : Package → List String
  | .mk includes functions =>
    functions.map (fun d => path ++ d.name) ++ namesOfIncludes path includes

def namesOfIncludes (path : String) : List (String × Package) → List String
  | [] => []
  | (name, p) :: rest => namesOf (path ++ name ++ ".") p ++ namesOfIncludes path rest

end

def root : Scope := {}

def ofPackage (path : String) (p : Package) : Scope := ⟨path, namesOf "" p⟩

/-- The registered name that a call to `name` means. -/
def qualify (s : Scope) (name : String) : String :=
  if s.path ≠ "" ∧ name ∈ s.names then s.path ++ name else name

def define (s : Scope) (name : String) : String := s.path ++ name

end Scope

end DualMachine
