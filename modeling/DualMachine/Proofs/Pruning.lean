import DualMachine.Proofs.Reach
import DualMachine.Proofs.Sessions

/-!
# Pruning

The functions that a program keeps can be found by a search of the call graph: positions wait in a
queue, the calls of the first one are followed through the index, and what they meet for the first
time joins the queue (`Link.Search.round`). A round takes one position out of the queue for good, so
the search is over after as many rounds as there are functions (`Link.Search.queue_search`); what it
has seen then is closed under calls, and is all that calls lead to (`Link.Search.mem_seen_iff`).

`Link.reachable` gives these functions, the entry before the others (`Link.reachable_keeps_called`).
-/

namespace DualMachine.Link

/-! ## The call graph -/

/-- The first function has an operand that names the second one. -/
def Calls (functions : List CompiledFunction) (f g : CompiledFunction) : Prop :=
  g ∈ functions ∧ ∃ i ∈ f.body, g.name ∈ i.symbols

/-- Positions of the functions that the one at position `i` calls. Calls of names that the index does
not have lead nowhere. -/
def targets (s : Session) (i : Nat) : List Nat :=
  (s.functions[i]?.elim [] CompiledFunction.callees).filterMap (s.index.lookup ·)

/-- The function at one position calls the one at the other. -/
def Leads (s : Session) (i j : Nat) : Prop := j ∈ targets s i

section

variable {s : Session} {i j : Nat} {f g : CompiledFunction}

theorem leads_iff (hs : s.Indexed) (hf : s.functions[i]? = some f) :
    Leads s i j ↔ ∃ g, s.functions[j]? = some g ∧ Calls s.functions f g := by
  rw [Leads, targets, hf, Option.elim_some, List.mem_filterMap]
  simp only [hs.lookup_iff, CompiledFunction.mem_callees, Calls]
  constructor
  · rintro ⟨name, hname, g, hg, rfl⟩
    exact ⟨g, hg, List.mem_of_getElem? hg, hname⟩
  · rintro ⟨g, hg, -, hcall⟩
    exact ⟨g.name, hcall, g, hg, rfl⟩

theorem Leads.lt_length (hs : s.Indexed) (h : Leads s i j) : j < s.functions.length := by
  obtain ⟨name, -, hname⟩ := List.mem_filterMap.mp h
  obtain ⟨g, hg, -⟩ := (hs.lookup_iff name j).mp hname
  exact (List.getElem?_eq_some_iff.mp hg).1

/-- Chains of calls between functions are chains between their positions. -/
theorem chain_iff (hs : s.Indexed) (hf : s.functions[i]? = some f) :
    Relation.ReflTransGen (Calls s.functions) f g ↔
      ∃ j, s.functions[j]? = some g ∧ Relation.ReflTransGen (Leads s) i j := by
  constructor
  · intro h
    induction h with
    | refl => exact ⟨i, hf, .refl⟩
    | tail _ hcall ih =>
        obtain ⟨j, hj, hchain⟩ := ih
        obtain ⟨k, hk⟩ := List.mem_iff_getElem?.mp hcall.1
        exact ⟨k, hk, hchain.tail ((leads_iff hs hj).mpr ⟨_, hk, hcall⟩)⟩
  · rintro ⟨j, hj, hchain⟩
    induction hchain generalizing g with
    | refl =>
        obtain rfl := Option.some.inj (hf.symm.trans hj)
        exact .refl
    | @tail k j hchain hleads ih =>
        have hk : k < s.functions.length := by
          rcases Relation.ReflTransGen.cases_tail hchain with rfl | ⟨_, -, hlast⟩
          · exact (List.getElem?_eq_some_iff.mp hf).1
          · exact hlast.lt_length hs
        have hat := List.getElem?_eq_getElem hk
        obtain ⟨_, hg, hcall⟩ := (leads_iff hs hat).mp hleads
        obtain rfl := Option.some.inj (hg.symm.trans hj)
        exact (ih hat).tail hcall

/-- Reached from the name of a function is what chains of calls from it lead to. -/
theorem reached_iff_chain (hs : s.Indexed) (hf : f ∈ s.functions) :
    Reached s.functions [f.name] g ↔ Relation.ReflTransGen (Calls s.functions) f g := by
  constructor
  · intro h
    induction h with
    | root hg hname =>
        rw [List.inj_on_of_nodup_map hs.nodup hg hf (List.mem_singleton.mp hname)]
    | call _ hg hname ih => exact ih.tail ⟨hg, CompiledFunction.mem_callees.mp hname⟩
  · intro h
    induction h with
    | refl => exact .root hf (List.mem_singleton.mpr rfl)
    | tail _ hcall ih => exact .call ih hcall.1 (CompiledFunction.mem_callees.mpr hcall.2)

end

/-! ## The search -/

/-- A search of the call graph. -/
structure Search where
  /-- Positions whose calls have been followed. -/
  followed : List Nat
  /-- Positions that were met and still wait, the first met first. -/
  queue : List Nat

namespace Search

/-- The positions met so far. -/
def seen (q : Search) : List Nat := q.followed ++ q.queue

/-- Meets a position; only a new one joins the queue. -/
def meet (q : Search) (i : Nat) : Search :=
  if i ∈ q.seen then q else { q with queue := q.queue ++ [i] }

/-- Takes the first position out of the queue and meets all that it calls. -/
def round (s : Session) (q : Search) : Search :=
  match q.queue with
  | [] => q
  | i :: rest => (targets s i).foldl meet ⟨q.followed ++ [i], rest⟩

/-- The search from position `start` after so many rounds. -/
def search (s : Session) (start rounds : Nat) : Search := (round s)^[rounds] ⟨[], [start]⟩

theorem search_succ (s : Session) (start rounds : Nat) :
    search s start (rounds + 1) = round s (search s start rounds) :=
  Function.iterate_succ_apply' _ _ _

variable {q : Search} {i j : Nat}

theorem seen_meet (q : Search) (i : Nat) :
    (q.meet i).seen = if i ∈ q.seen then q.seen else q.seen ++ [i] := by
  rw [meet]
  split
  · rfl
  · rw [seen, seen, List.append_assoc]

theorem followed_meetAll (is : List Nat) (q : Search) :
    (is.foldl meet q).followed = q.followed := by
  induction is generalizing q with
  | nil => rfl
  | cons i is ih =>
      rw [List.foldl_cons, ih, meet]
      split <;> rfl

theorem mem_seen_meetAll (is : List Nat) (q : Search) :
    j ∈ (is.foldl meet q).seen ↔ j ∈ q.seen ∨ j ∈ is := by
  induction is generalizing q with
  | nil => simp
  | cons i is ih =>
      rw [List.foldl_cons, ih, seen_meet, List.mem_cons]
      split
      case isTrue hi =>
        constructor
        · rintro (hj | hj)
          · exact .inl hj
          · exact .inr (.inr hj)
        · rintro (hj | rfl | hj)
          · exact .inl hj
          · exact .inl hi
          · exact .inr hj
      case isFalse => rw [List.mem_append, List.mem_singleton, or_assoc]

theorem nodup_seen_meetAll (is : List Nat) (hq : q.seen.Nodup) :
    (is.foldl meet q).seen.Nodup := by
  induction is generalizing q with
  | nil => exact hq
  | cons i is ih =>
      refine ih ?_
      rw [seen_meet]
      split
      case isTrue => exact hq
      case isFalse hi => exact List.concat_eq_append ▸ hq.concat hi

/-- What holds between the rounds of a search: nothing is met twice, all that was met is connected to
the start, and the calls that were followed led to what was met. -/
structure Invariant (s : Session) (start : Nat) (q : Search) : Prop where
  nodup : q.seen.Nodup
  start_mem : start ∈ q.seen
  connected : ∀ i ∈ q.seen, Relation.ReflTransGen (Leads s) start i
  closed : ∀ i ∈ q.followed, ∀ j, Leads s i j → j ∈ q.seen

variable {s : Session} {start rounds : Nat}

theorem Invariant.initial : Invariant s start ⟨[], [start]⟩ where
  nodup := List.nodup_singleton start
  start_mem := List.mem_singleton.mpr rfl
  connected i hi := by rw [List.mem_singleton.mp hi]
  closed i hi := by cases hi

theorem Invariant.round (h : Invariant s start q) : Invariant s start (q.round s) := by
  unfold Search.round
  split
  case h_1 => exact h
  case h_2 i rest hqueue =>
    -- taking a position out of the queue changes nothing about what was seen
    have hseen : seen ⟨q.followed ++ [i], rest⟩ = q.seen := by
      rw [seen, seen, hqueue, List.append_assoc]
      rfl
    have hi : i ∈ q.seen := by simp [seen, hqueue]
    refine ⟨nodup_seen_meetAll _ (hseen ▸ h.nodup), ?_, fun j hj => ?_, fun j hj k hk => ?_⟩
    · exact (mem_seen_meetAll _ _).mpr (.inl (hseen ▸ h.start_mem))
    · rcases (mem_seen_meetAll _ _).mp hj with hj | hleads
      · exact h.connected j (hseen ▸ hj)
      · exact (h.connected i hi).tail hleads
    · rw [followed_meetAll, List.mem_append, List.mem_singleton] at hj
      refine (mem_seen_meetAll _ _).mpr ?_
      rcases hj with hj | rfl
      · exact .inl (hseen ▸ h.closed j hj k hk)
      · exact .inr hk

theorem invariant_search (s : Session) (start rounds : Nat) :
    Invariant s start (search s start rounds) := by
  induction rounds with
  | zero => exact .initial
  | succ n ih =>
      rw [search_succ]
      exact ih.round

/-- Every round follows one position more, until none waits. -/
theorem length_followed (s : Session) (start rounds : Nat) :
    (search s start rounds).queue = [] ∨ (search s start rounds).followed.length = rounds := by
  induction rounds with
  | zero => exact .inr rfl
  | succ n ih =>
      rw [search_succ, round]
      split
      case h_1 hqueue => exact .inl hqueue
      case h_2 i rest hqueue =>
        rw [hqueue] at ih
        rcases ih with hempty | hlength
        · cases hempty
        · exact .inr (by simp [followed_meetAll, hlength])

theorem Invariant.length_seen_le (hs : s.Indexed) (hstart : start < s.functions.length)
    (h : Invariant s start q) : q.seen.length ≤ s.functions.length := by
  have hrange : q.seen ⊆ List.range s.functions.length := by
    intro i hi
    rw [List.mem_range]
    rcases Relation.ReflTransGen.cases_tail (h.connected i hi) with rfl | ⟨_, -, hlast⟩
    · exact hstart
    · exact hlast.lt_length hs
  simpa using (h.nodup.subperm hrange).length_le

/-- The search is over when it has had a round for every function. -/
theorem queue_search (hs : s.Indexed) (hstart : start < s.functions.length) :
    (search s start s.functions.length).queue = [] := by
  have hle := (invariant_search s start s.functions.length).length_seen_le hs hstart
  rcases length_followed s start s.functions.length with hempty | hlength
  · exact hempty
  · rw [seen, List.length_append, hlength] at hle
    exact List.length_eq_zero_iff.mp (by omega)

/-- When nothing waits, the search has seen what chains of calls lead to. -/
theorem mem_seen_iff (hqueue : (search s start rounds).queue = []) :
    i ∈ (search s start rounds).seen ↔ Relation.ReflTransGen (Leads s) start i := by
  have h := invariant_search s start rounds
  constructor
  · exact h.connected i
  · intro hchain
    induction hchain with
    | refl => exact h.start_mem
    | tail _ hleads ih =>
        rw [seen, hqueue, List.append_nil] at ih
        exact h.closed _ ih _ hleads

end Search

/-! ## The functions that are kept -/

open Search

variable {s : Session} {start : Nat} {f : CompiledFunction}

theorem reachable_of_mem (hs : s.Indexed) (hf : f ∈ s.functions) :
    reachable s.functions f.name = .ok (f :: s.functions.filter fun g =>
      g.name != f.name && (reach s.functions [f.name]).contains g.name) := by
  rw [reachable]
  cases hfind : s.functions.find? (·.name == f.name) with
  | none => exact absurd (beq_self_eq_true f.name) (List.find?_eq_none.mp hfind f hf)
  | some g =>
      have hfound := List.find?_some hfind
      have hname : g.name = f.name := eq_of_beq hfound
      rw [List.inj_on_of_nodup_map hs.nodup (List.mem_of_find?_eq_some hfind) hf hname]

/-- Choosing by names is choosing by positions. -/
theorem filter_eq_search (hs : s.Indexed) (hf : s.functions[start]? = some f) :
    (s.functions.filter fun g =>
        g.name != f.name && (reach s.functions [f.name]).contains g.name) =
      (s.functions.zipIdx.filter fun u =>
        u.2 != start && (search s start s.functions.length).seen.contains u.2).map (·.1) := by
  have hqueue := queue_search hs (List.getElem?_eq_some_iff.mp hf).1
  have hposition : ∀ {g : CompiledFunction} {i : Nat}, s.functions[i]? = some g →
      s.index.lookup g.name = some i := fun hg => (hs.lookup_iff _ _).mpr ⟨_, hg, rfl⟩
  conv_lhs => rw [← List.zipIdx_map_fst 0 s.functions, List.filter_map]
  refine congrArg (List.map _) (List.filter_congr fun u hu => ?_)
  obtain ⟨g, i⟩ := u
  have hg : s.functions[i]? = some g := List.mem_zipIdx_iff_getElem?.mp hu
  have hname : g.name = f.name ↔ i = start := by
    constructor
    · intro hname
      exact Option.some.inj ((hposition hg).symm.trans (hname ▸ hposition hf))
    · rintro rfl
      rw [Option.some.inj (hg.symm.trans hf)]
  have hmem : g.name ∈ reach s.functions [f.name] ↔
      i ∈ (search s start s.functions.length).seen := by
    have hreached : g.name ∈ reach s.functions [f.name] ↔ Reached s.functions [f.name] g := by
      rw [reached_iff hs.nodup, and_iff_right (List.mem_of_getElem? hg)]
    rw [hreached, reached_iff_chain hs (List.mem_of_getElem? hf), chain_iff hs hf,
      mem_seen_iff hqueue]
    constructor
    · rintro ⟨j, hj, hchain⟩
      rwa [Option.some.inj ((hposition hg).symm.trans (hposition hj))]
    · intro hchain
      exact ⟨i, hg, hchain⟩
  rw [Bool.eq_iff_iff]
  simp [hname, hmem]

/-- A program keeps the functions that calls lead to from its entry, each of them once: the entry
first, the others in the order in which they were compiled. They are those at the positions that a
search through the index has seen when its queue is empty, which it is after as many rounds as there
are functions, whatever calls whatever. -/
theorem reachable_keeps_called (hs : s.Indexed) (hentry : s.entry ∈ s.functions.map (·.name)) :
    ∃ start f kept, s.index.lookup s.entry = some start ∧ s.functions[start]? = some f ∧
      (search s start s.functions.length).queue = [] ∧
      reachable s.functions s.entry = .ok kept ∧
      kept = f :: (s.functions.zipIdx.filter fun u =>
        u.2 != start && (search s start s.functions.length).seen.contains u.2).map (·.1) ∧
      (∀ g, g ∈ kept ↔ Relation.ReflTransGen (Calls s.functions) f g) ∧
      kept.Nodup ∧ kept.tail.Sublist s.functions := by
  obtain ⟨f, hmem, hname⟩ := List.mem_map.mp hentry
  obtain ⟨start, hf⟩ := List.mem_iff_getElem?.mp hmem
  have hkept := reachable_of_mem hs hmem
  have hcalled := fun g => mem_reachable_iff (g := g) hs.nodup hkept
  rw [← hname]
  refine ⟨start, f, _, (hs.lookup_iff _ _).mpr ⟨f, hf, rfl⟩, hf,
    queue_search hs (List.getElem?_eq_some_iff.mp hf).1, hkept,
    congrArg (f :: ·) (filter_eq_search hs hf), fun g => ?_, ?_, List.filter_sublist⟩
  · rw [hcalled, reached_iff_chain hs hmem]
  · refine List.nodup_cons.mpr ⟨fun hin => ?_, hs.nodup.of_map.filter _⟩
    simp at hin

/-- A function that does nothing but call. -/
def caller (name : String) (callees : List String) : CompiledFunction :=
  ⟨name, 0, callees.map (Instruction.ofSymbol (Stack.Op.descriptor .call))⟩

/-- Functions that call each other, themselves, one twice and a name that no function has, and a
function that is not called. -/
def rings : Session :=
  [caller "odd" ["even", "odd"], caller "spare" ["main"], caller "main" ["even", "missing", "even"],
    caller "even" ["odd"]].foldl Session.register { backend := StackCode.backend, entry := "main" }

theorem reachable_keeps_called_rings :
    rings.Indexed ∧ (search rings 2 4).queue = [] ∧
    reachable rings.functions "main" = .ok [caller "main" ["even", "missing", "even"],
      caller "odd" ["even", "odd"], caller "even" ["odd"]] ∧
    ¬ Relation.ReflTransGen (Calls rings.functions) (caller "main" ["even", "missing", "even"])
      (caller "spare" ["main"]) := by
  have hrings : rings.Indexed :=
    (((Session.Indexed.nil.register rfl).register rfl).register rfl).register rfl
  obtain ⟨start, f, kept, hstart, hf, hqueue, hreachable, hkept, hcalled, -⟩ :=
    reachable_keeps_called hrings (by decide)
  obtain rfl : 2 = start := Option.some.inj hstart
  obtain rfl := Option.some.inj hf
  subst hkept
  refine ⟨hrings, hqueue, hreachable, fun hchain => ?_⟩
  exact absurd ((hcalled _).mpr hchain) (by decide)

end DualMachine.Link
