import DualMachine.Lowering.Backend

/-!
# Functions that a program needs

A program keeps the functions that calls lead to from its entry point. `reach` is the
worklist: it takes out of `remaining` a function whose name is pending, and adds what that
function calls to what is pending, until no function that is left is called.
Which function is taken out first does not matter, because only the names that are found
are used. Every call of `reach` takes a function away, so it ends.

The functions that are kept stand in the order in which they were compiled, except that the
entry point comes first. Calls to names that no function has lead nowhere here; they are
reported when the program is laid out, and only if the function that makes the call is
kept.
-/

namespace DualMachine.Link

/-- The names of those functions in `remaining` that calls lead to from the names
in `pending`. Every call takes a function out of `remaining`. -/
def reach (remaining : List CompiledFunction) (pending : List String) : List String :=
  match _found : remaining.find? (pending.contains ·.name) with
  | none => []
  | some f => f.name :: reach (remaining.erase f) (f.callees ++ pending)
termination_by remaining.length
decreasing_by
  have member := List.mem_of_find?_eq_some _found
  have := List.length_erase_of_mem member
  have := List.length_pos_of_mem member
  omega

/-- The functions that a program with the given entry point keeps: the entry first, the others
in the order in which they were compiled. -/
def reachable (functions : List CompiledFunction) (entry : String) :
    Except CompileError (List CompiledFunction) :=
  match functions.find? (·.name == entry) with
  | none => .error (.missingEntryPoint entry)
  | some f =>
    let names := reach functions [entry]
    .ok (f :: functions.filter fun g => g.name != entry && names.contains g.name)

end DualMachine.Link
