import DualMachine.Proofs.Frames
import DualMachine.Proofs.Room

/-!
# Registration of functions

After every package, whether it was compiled or failed on the way, the names of a session's
functions are different, the index has the position of each, and the functions that were there
before are where they were (`functions_registered`). This follows from what one step of a
session does (`Session.Adds`).

A package that fails because of a name does so at a function that is there already. For this the
code generators must not report such an error of their own: what goes wrong in the code of one
function is a matter of room or of its variables (`Backend.Provided.error_of_code`).
-/

namespace DualMachine

open Source

/-- What a backend reports of a function is about its code. -/
theorem Backend.Provided.error_of_code {backend : Backend} (h : backend.Provided) {scope : Scope}
    {d : Definition} {e : CompileError} (herror : backend.compileFunction scope d = .error e) :
    e.ofRoom = true ∨ e.ofVariable = true := by
  cases h with
  | register file =>
      exact ((RegisterCode.generator file).compileFunction_error (D := StackCode.pieces) rfl
        (fun _ _ e => RegisterCode.expr_reports e 0) herror).imp_right And.left
  | stack =>
      exact (StackCode.generator.compileFunction_error (D := StackCode.pieces) rfl
        (fun _ _ e => StackCode.expr_reports e) herror).imp_right And.left

namespace Session

variable {s : Session}

/-- A name that the index has is that of one function. -/
theorem Indexed.count_name (hs : s.Indexed) {name : String} {i : Nat}
    (hi : s.index.lookup name = some i) : (s.functions.map (·.name)).count name = 1 := by
  obtain ⟨f, hf, hname⟩ := (hs.lookup_iff name i).mp hi
  exact List.count_eq_one_of_mem hs.nodup
    (List.mem_map.mpr ⟨f, List.mem_of_getElem? hf, hname⟩)

/-- A package fails because of a name only where a function has this name. -/
theorem compile_duplicateFunction (hbackend : s.backend.Provided) {p : Package} {name : String}
    (herror : (s.compile p).1 = some (.duplicateFunction name)) :
    ∃ i, (s.compile p).2.index.lookup name = some i := by
  rcases (compile_cases s p).2 _ herror with ⟨scope, d, hcode⟩ | ⟨name', i, heq, hi⟩
  · -- this would be an error of the code generator
    rcases hbackend.error_of_code hcode with hroom | hvariable
    · cases hroom
    · cases hvariable
  · obtain rfl := CompileError.duplicateFunction.inj heq
    exact ⟨i, hi⟩

end Session

/-- After every package of a session, compiled or not, the names of functions are different,
the index maps a name to a position exactly when the function there has this name, the functions
from before are unchanged and where they were, and a name that was reported as defined twice is
that of exactly one function. -/
theorem functions_registered {backend : Backend} (hbackend : backend.Provided) (entry : String)
    (ps : List Package) (p : Package) :
    let s := ({ backend, entry } : Session).compileAll ps
    let s' := (s.compile p).2
    (s'.functions.map (·.name)).Nodup ∧
    (∀ name i,
      s'.index.lookup name = some i ↔ ∃ f, s'.functions[i]? = some f ∧ f.name = name) ∧
    s.functions <+: s'.functions ∧
    ∀ name, (s.compile p).1 = some (.duplicateFunction name) →
      (s'.functions.map (·.name)).count name = 1 := by
  intro s s'
  have hbefore : Session.Grows { backend, entry } s := Session.compileAll_grows _ ps
  have hgrows : s.Grows s' := (Session.compile_cases s p).1
  have hindexed : s'.Indexed := Session.Grows.indexed (hbefore.trans hgrows) .nil
  refine ⟨hindexed.nodup, hindexed.lookup_iff, hgrows.functions_kept, fun name herror => ?_⟩
  have hprovided : s.backend.Provided := by
    rw [hbefore.backend_eq]
    exact hbackend
  obtain ⟨i, hi⟩ := Session.compile_duplicateFunction hprovided herror
  exact hindexed.count_name hi

/-- Two packages with functions of one name: the second fails after its first function. -/
def overlapping : Package × Package :=
  (.mk [] [⟨"f", [], .expression (.number 1)⟩, ⟨"g", ["x"], .expression (.identifier "x")⟩],
   .mk [] [⟨"h", [], .expression (.call "g" [.number 2])⟩, ⟨"f", [], .expression (.number 3)⟩,
     ⟨"k", [], .expression (.number 4)⟩])

/-- The function before the repeated one stays, that after it is not reached. -/
theorem functions_registered_overlapping :
    let s := ({ backend := RegisterCode.backend .standard, entry := "f" } : Session).compileAll
      [overlapping.1]
    let s' := (s.compile overlapping.2).2
    (s.compile overlapping.2).1 = some (.duplicateFunction "f") ∧
    s'.functions.map (·.name) = ["f", "g", "h"] ∧ s.functions <+: s'.functions ∧
    (s'.functions.map (·.name)).count "f" = 1 ∧
    ∃ f, s'.functions[2]? = some f ∧ f.name = "h" := by
  intro s s'
  have hregistered := functions_registered (.register .standard) "f" [overlapping.1] overlapping.2
  have herror : (s.compile overlapping.2).1 = some (.duplicateFunction "f") := by decide +kernel
  have hindex : s'.index.lookup "h" = some 2 := by decide +kernel
  exact ⟨herror, by decide +kernel, hregistered.2.2.1, hregistered.2.2.2 "f" herror,
    (hregistered.2.1 "h" 2).mp hindex⟩

end DualMachine
