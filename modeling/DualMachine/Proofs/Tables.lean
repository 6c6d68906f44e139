import Mathlib
import DualMachine.Isa.Table

/-!
# Instruction sets

A table has two indexes, the slots of the opcodes and the opcodes of the names, which are filled in
one pass over a list of descriptors. Here it is compared with what the list has to be, said without
a pass: `Descriptor.Consistent` lists have supported widths, an opcode for each instruction and a
name for each, whatever the case of its letters. `Descriptor.Clash before d e` says what is wrong
with a descriptor after those before it, and is the only place where the order of the three checks
appears.

`Index.Holds x ds` is what the pass maintains: the descriptors so far are consistent, the slot of an
opcode has the descriptor with this opcode and is empty if there is none, and a name leads to the
opcode of the descriptor with this name. One registration either goes on to hold one more descriptor
or reports its clash (`Index.register_cases`), so a whole list is registered up to its first clash
(`Index.build_cases`). A list with a clash is not consistent (`Clash.not_consistent`), and a
first clash is the only one (`Clash.first_unique`), so what a table is made from and what is
reported otherwise are fixed by the list alone (`Table.ofDescriptors_exact`).

Since every table was built from some list, its indexes hold the descriptors that are in its
slots (`Table.holds`). Decoder and assembler are about tables that are given, and rest on this.
-/

namespace DualMachine

/-! ## Names -/

namespace Text

theorem ofList_foldCase (text : String) : String.ofList (foldCase text) = text.toLower := by
  rw [foldCase, ← String.toList_map, String.ofList_toList, String.toLower]

theorem foldCase_eq_iff {a b : String} : foldCase a = foldCase b ↔ a.toLower = b.toLower := by
  rw [← ofList_foldCase, ← ofList_foldCase, String.ofList_inj]

end Text

/-! ## Consistent lists -/

namespace Descriptor

/-- Every immediate has a width that is supported. -/
def Supported (d : Descriptor) : Prop := ∀ size ∈ d.sizes, size ∈ [1, 2, 4, 8]

instance (d : Descriptor) : Decidable d.Supported :=
  inferInstanceAs (Decidable (∀ size ∈ d.sizes, size ∈ [1, 2, 4, 8]))

/-- Descriptors that make an instruction set. -/
structure Consistent (ds : List Descriptor) : Prop where
  supported : ∀ d ∈ ds, d.Supported
  opcodes : (ds.map (·.opcode)).Nodup
  names : (ds.map (·.name.toLower)).Nodup

/-- What is wrong with `d` after the descriptors `before`: the first width that is not supported,
else an opcode that is taken, else a name that is taken. -/
inductive Clash (before : List Descriptor) (d : Descriptor) : TableError → Prop where
  | size {front back : List Nat} {size : Nat} (hsizes : d.sizes = front ++ size :: back)
      (hfront : ∀ size ∈ front, size ∈ [1, 2, 4, 8]) (hsize : size ∉ [1, 2, 4, 8]) :
      Clash before d (.unsupportedSize d.name size)
  | opcode {first : Descriptor} (hd : d.Supported) (hfirst : first ∈ before)
      (hopcode : first.opcode = d.opcode) :
      Clash before d (.duplicateOpcode d.opcode first.name d.name)
  | name {first : Descriptor} (hd : d.Supported) (hopcode : ∀ e ∈ before, e.opcode ≠ d.opcode)
      (hfirst : first ∈ before) (hname : first.name.toLower = d.name.toLower) :
      Clash before d (.duplicateMnemonic d.name.toLower)

variable {before after ds : List Descriptor} {d : Descriptor} {e : TableError}

namespace Clash

/-- A descriptor is reported where the list stops being consistent. -/
theorem not_consistent (h : Clash before d e) : ¬Consistent (before ++ d :: after) := by
  intro hall
  have hd : d ∈ before ++ d :: after := by simp
  cases h with
  | @size front back size hsizes hfront hsize =>
      exact hsize (hall.supported d hd size (by simp [hsizes]))
  | opcode hsizes hfirst hopcode =>
      have hopcodes := hall.opcodes
      rw [List.map_append, List.map_cons, List.nodup_append] at hopcodes
      exact hopcodes.2.2 _ (List.mem_map_of_mem hfirst) _ List.mem_cons_self hopcode
  | name hsizes hopcode hfirst hname =>
      have hnames := hall.names
      rw [List.map_append, List.map_cons, List.nodup_append] at hnames
      exact hnames.2.2 _ (List.mem_map_of_mem hfirst) _ List.mem_cons_self hname

/-- A width that is reported is the first one that is not in the list. -/
theorem find?_of_unsupported {front back : List Nat} {size : Nat}
    (hsizes : d.sizes = front ++ size :: back) (hfront : ∀ s ∈ front, s ∈ [1, 2, 4, 8])
    (hsize : size ∉ [1, 2, 4, 8]) :
    d.sizes.find? (fun s => decide (s ∉ [1, 2, 4, 8])) = some size := by
  refine List.find?_eq_some_iff_append.mpr ⟨by simpa using hsize, front, back, hsizes, ?_⟩
  intro s hs
  simpa using hfront s hs

/-- The three rules exclude each other, and each of them reports one error. -/
theorem unique {e' : TableError} (hbefore : Consistent before) (h : Clash before d e)
    (h' : Clash before d e') : e = e' := by
  have hwidth : ∀ {front back size}, d.sizes = front ++ size :: back → size ∉ [1, 2, 4, 8] →
      ¬d.Supported := fun hsizes hsize hd => hsize (hd _ (by simp [hsizes]))
  cases h with
  | @size front back size hsizes hfront hsize =>
      cases h' with
      | @size front' back' size' hsizes' hfront' hsize' =>
          have hfound := find?_of_unsupported hsizes hfront hsize
          rw [Option.some.inj (hfound.symm.trans (find?_of_unsupported hsizes' hfront' hsize'))]
      | opcode hd => exact absurd hd (hwidth hsizes hsize)
      | name hd => exact absurd hd (hwidth hsizes hsize)
  | @opcode first hd hfirst hopcode =>
      cases h' with
      | size hsizes _ hsize => exact absurd hd (hwidth hsizes hsize)
      | @opcode first' _ hfirst' hopcode' =>
          rw [List.inj_on_of_nodup_map hbefore.opcodes hfirst hfirst'
            (hopcode.trans hopcode'.symm)]
      | name _ hfresh => exact absurd hopcode (hfresh first hfirst)
  | name hd hfresh =>
      cases h' with
      | size hsizes _ hsize => exact absurd hd (hwidth hsizes hsize)
      | opcode _ hfirst hopcode => exact absurd hopcode (hfresh _ hfirst)
      | name => rfl

/-- A consistent front ends at the latest where a descriptor clashes. -/
theorem length_le {front : List Descriptor} (h : Clash before d e) (hfront : Consistent front)
    (hsplit : front <+: before ++ d :: after) : front.length ≤ before.length := by
  by_contra hlong
  have hd : before ++ [d] <+: front := by
    refine List.prefix_of_prefix_length_le ⟨after, by simp⟩ hsplit ?_
    rw [List.length_append, List.length_singleton]
    omega
  obtain ⟨rest, rfl⟩ := hd
  rw [List.append_assoc] at hfront
  exact h.not_consistent hfront

/-- A list has one first clash. -/
theorem first_unique {before' after' : List Descriptor} {d' : Descriptor} {e' : TableError}
    (hsplit : before ++ d :: after = before' ++ d' :: after') (hbefore : Consistent before)
    (h : Clash before d e) (hbefore' : Consistent before') (h' : Clash before' d' e') :
    e = e' := by
  have hlength : before.length = before'.length :=
    Nat.le_antisymm (h'.length_le hbefore ⟨_, hsplit⟩) (h.length_le hbefore' ⟨_, hsplit.symm⟩)
  obtain ⟨rfl, hrest⟩ := List.append_inj hsplit hlength
  obtain ⟨rfl, -⟩ := List.cons.inj hrest
  exact h.unique hbefore h'

end Clash

end Descriptor

/-! ## Registration -/

theorem lookup_concat {α β : Type} [BEq α] [LawfulBEq α] [DecidableEq α] (l : List (α × β))
    (a x : α) (b : β) :
    (l ++ [(a, b)]).lookup x = (l.lookup x).or (if x = a then some b else none) := by
  rw [List.lookup_append, List.lookup_cons]
  by_cases hx : x = a
  · rw [if_pos hx, hx, beq_self_eq_true]
  · rw [if_neg hx, beq_false_of_ne hx]
    rfl

namespace Descriptor.Consistent

variable {ds ds' : List Descriptor} {d e : Descriptor}

theorem nil : Consistent [] := ⟨List.forall_mem_nil _, List.nodup_nil, List.nodup_nil⟩

/-- A descriptor that has neither an opcode nor a name of the others can come after them. -/
theorem concat (h : Consistent ds) (hd : d.Supported) (hopcode : ∀ e ∈ ds, e.opcode ≠ d.opcode)
    (hname : ∀ e ∈ ds, e.name.toLower ≠ d.name.toLower) : Consistent (ds ++ [d]) where
  supported := by
    rw [List.forall_mem_append, List.forall_mem_singleton]
    exact ⟨h.supported, hd⟩
  opcodes := by
    rw [← List.concat_eq_append, List.map_concat, List.nodup_concat, List.mem_map]
    exact ⟨fun ⟨e, he, heq⟩ => hopcode e he heq, h.opcodes⟩
  names := by
    rw [← List.concat_eq_append, List.map_concat, List.nodup_concat, List.mem_map]
    exact ⟨fun ⟨e, he, heq⟩ => hname e he heq, h.names⟩

theorem eq_of_opcode (h : Consistent ds) (hd : d ∈ ds) (he : e ∈ ds) (heq : d.opcode = e.opcode) :
    d = e := List.inj_on_of_nodup_map h.opcodes hd he heq

theorem perm (h : Consistent ds) (hperm : ds'.Perm ds) : Consistent ds' where
  supported d hd := h.supported d (hperm.mem_iff.mp hd)
  opcodes := (hperm.map _).nodup_iff.mpr h.opcodes
  names := (hperm.map _).nodup_iff.mpr h.names

end Descriptor.Consistent

namespace Index

open Descriptor

/-- The indexes hold these descriptors and no others. -/
structure Holds (x : Index) (ds : List Descriptor) : Prop where
  consistent : Consistent ds
  slots : ∀ (n : Nat) (d : Descriptor),
    x.slots[n]? = some (some d) ↔ d ∈ ds ∧ d.opcode.toNat = n
  names : ∀ (key : List Char) (opcode : UInt8),
    x.byName.lookup key = some opcode ↔ ∃ d ∈ ds, Text.foldCase d.name = key ∧ d.opcode = opcode
  length : x.byName.length = ds.length

variable {x : Index} {ds : List Descriptor} {d : Descriptor}

namespace Holds

theorem get?_eq_some_iff (h : x.Holds ds) {opcode : UInt8} :
    x.get? opcode = some d ↔ d ∈ ds ∧ d.opcode = opcode := by
  rw [get?, Option.join_eq_some_iff, h.slots, UInt8.toNat_inj]

/-- A name leads to an opcode and this to a descriptor, which has the name. -/
theorem lookup?_eq_some_iff (h : x.Holds ds) {mnemonic : String} :
    x.lookup? mnemonic = some d ↔ d ∈ ds ∧ d.name.toLower = mnemonic.toLower := by
  rw [lookup?, ← Text.foldCase_eq_iff]
  cases hkey : x.byName.lookup (Text.foldCase mnemonic) with
  | none =>
      constructor
      · intro hd
        cases hd
      · rintro ⟨hd, hname⟩
        cases hkey.symm.trans ((h.names _ _).mpr ⟨d, hd, hname, rfl⟩)
  | some opcode =>
      obtain ⟨e, he, hname, rfl⟩ := (h.names _ _).mp hkey
      simp only [h.get?_eq_some_iff]
      constructor
      · rintro ⟨hd, hopcode⟩
        obtain rfl := h.consistent.eq_of_opcode hd he hopcode
        exact ⟨hd, hname⟩
      · rintro ⟨hd, hname'⟩
        have hopcode := hkey.symm.trans ((h.names _ _).mpr ⟨d, hd, hname', rfl⟩)
        exact ⟨hd, (Option.some.inj hopcode).symm⟩

theorem perm {ds' : List Descriptor} (h : x.Holds ds) (hperm : ds'.Perm ds) : x.Holds ds' where
  consistent := h.consistent.perm hperm
  slots n d := by rw [h.slots, hperm.mem_iff]
  names key opcode := by simp only [h.names, hperm.mem_iff]
  length := h.length.trans hperm.length_eq.symm

/-! ### Listing by opcode -/

theorem mem_descriptors_iff (h : x.Holds ds) : d ∈ x.descriptors ↔ d ∈ ds := by
  rw [descriptors, List.mem_filterMap]
  simp only [id_eq, exists_eq_right, Array.mem_toList_iff, Array.mem_iff_getElem?, h.slots]
  exact ⟨fun ⟨_, hd, _⟩ => hd, fun hd => ⟨_, hd, rfl⟩⟩

/-- A descriptor stands at the place of its opcode. -/
theorem descriptors_ascending (h : x.Holds ds) :
    x.descriptors.Pairwise (·.opcode < ·.opcode) := by
  rw [descriptors, List.pairwise_filterMap, List.pairwise_iff_getElem]
  intro m n hm hn hlt d hd e he
  have hopcode {k : Nat} {d : Descriptor} (hk : k < x.slots.toList.length)
      (hslot : x.slots.toList[k] = some d) : d.opcode.toNat = k := by
    refine ((h.slots k d).mp ?_).2
    rw [← hslot, Array.getElem_toList, Array.getElem?_eq_getElem]
  rw [UInt8.lt_iff_toNat_lt, hopcode hm hd, hopcode hn he]
  exact hlt

/-- Every instruction is listed once. -/
theorem descriptors_perm (h : x.Holds ds) : x.descriptors.Perm ds := by
  have hdescriptors : x.descriptors.Nodup :=
    h.descriptors_ascending.imp fun hlt heq => absurd (heq ▸ hlt) (UInt8.lt_irrefl _)
  exact (List.perm_ext_iff_of_nodup hdescriptors h.consistent.opcodes.of_map).mpr
    fun _ => h.mem_descriptors_iff

/-! ### One registration -/

theorem slots_concat (h : x.Holds ds) (hroom : d.opcode.toNat < x.slots.size)
    (hopcode : ∀ e ∈ ds, e.opcode ≠ d.opcode) (n : Nat) (e : Descriptor) :
    (x.slots.setIfInBounds d.opcode.toNat (some d))[n]? = some (some e) ↔
      e ∈ ds ++ [d] ∧ e.opcode.toNat = n := by
  rw [List.mem_append, List.mem_singleton, or_and_right, ← h.slots]
  by_cases hn : d.opcode.toNat = n
  · subst hn
    have hfree : x.slots[d.opcode.toNat]? ≠ some (some e) := by
      intro htaken
      obtain ⟨he, heq⟩ := (h.slots _ _).mp htaken
      exact hopcode e he (UInt8.toNat_inj.mp heq)
    rw [Array.getElem?_setIfInBounds_self_of_lt hroom, or_iff_right hfree]
    constructor
    · intro heq
      cases heq
      exact ⟨rfl, rfl⟩
    · rintro ⟨rfl, -⟩
      rfl
  · rw [Array.getElem?_setIfInBounds_ne hn, iff_self_or]
    rintro ⟨rfl, heq⟩
    exact absurd heq hn

theorem names_concat (h : x.Holds ds) (hname : x.byName.lookup (Text.foldCase d.name) = none)
    (key : List Char) (opcode : UInt8) :
    (x.byName ++ [(Text.foldCase d.name, d.opcode)]).lookup key = some opcode ↔
      ∃ e ∈ ds ++ [d], Text.foldCase e.name = key ∧ e.opcode = opcode := by
  simp only [List.mem_append, List.mem_singleton, or_and_right, exists_or, exists_eq_left,
    ← h.names, lookup_concat]
  by_cases hkey : key = Text.foldCase d.name
  · subst hkey
    simp [hname]
  · simp [hkey, Ne.symm hkey]

/-- The indexes after a descriptor has been put into both. -/
theorem concat (h : x.Holds ds) (hroom : d.opcode.toNat < x.slots.size) (hd : d.Supported)
    (hopcode : ∀ e ∈ ds, e.opcode ≠ d.opcode)
    (hname : x.byName.lookup (Text.foldCase d.name) = none) :
    Holds ⟨x.slots.setIfInBounds d.opcode.toNat (some d),
      x.byName ++ [(Text.foldCase d.name, d.opcode)]⟩ (ds ++ [d]) where
  consistent := by
    refine h.consistent.concat hd hopcode fun e he heq => ?_
    have htaken := (h.names _ _).mpr ⟨e, he, Text.foldCase_eq_iff.mpr heq, rfl⟩
    cases hname.symm.trans htaken
  slots := h.slots_concat hroom hopcode
  names := h.names_concat hname
  length := by
    rw [List.length_append, List.length_append, h.length]
    rfl

end Holds

/-- A descriptor is registered, or its clash is reported. -/
theorem register_cases (h : x.Holds ds) (hroom : d.opcode.toNat < x.slots.size) :
    (∃ x', x.register d = .ok x' ∧ x'.Holds (ds ++ [d]) ∧ x'.slots.size = x.slots.size) ∨
      ∃ e, x.register d = .error e ∧ Clash ds d e := by
  rw [register]
  split
  case h_1 size hsize =>
      obtain ⟨hbad, front, back, hsizes, hfront⟩ := List.find?_eq_some_iff_append.mp hsize
      refine .inr ⟨_, rfl, .size hsizes (fun s hs => ?_) ?_⟩
      · simpa [Immediate.sizes] using hfront s hs
      · simpa [Immediate.sizes] using hbad
  case h_2 hsizes =>
      have hd : d.Supported := fun s hs => by
        simpa only [Bool.not_eq_true, Bool.not_eq_false', List.contains_iff_mem, Immediate.sizes]
          using List.find?_eq_none.mp hsizes s hs
      split
      case h_1 first hfirst =>
          obtain ⟨hmem, hopcode⟩ := h.get?_eq_some_iff.mp hfirst
          exact .inr ⟨_, rfl, .opcode hd hmem hopcode⟩
      case h_2 hfree =>
          have hopcode : ∀ e ∈ ds, e.opcode ≠ d.opcode := fun e he heq => by
            cases hfree.symm.trans (h.get?_eq_some_iff.mpr ⟨he, heq⟩)
          dsimp only
          split
          case h_1 opcode htaken =>
              obtain ⟨first, hfirst, hname, -⟩ := (h.names _ _).mp htaken
              refine .inr ⟨_, rfl, ?_⟩
              rw [Text.ofList_foldCase]
              exact .name hd hopcode hfirst (Text.foldCase_eq_iff.mp hname)
          case h_2 hname =>
              exact .inl ⟨_, rfl, h.concat hroom hd hopcode hname, Array.size_setIfInBounds⟩

/-- Descriptors are registered up to the first clash. -/
theorem foldlM_register_cases {front : List Descriptor} (h : x.Holds front)
    (hroom : ∀ d ∈ ds, d.opcode.toNat < x.slots.size) :
    (∃ x', ds.foldlM register x = .ok x' ∧ x'.Holds (front ++ ds)) ∨
      ∃ before d after e, ds = before ++ d :: after ∧ Consistent (front ++ before) ∧
        Clash (front ++ before) d e ∧ ds.foldlM register x = .error e := by
  induction ds generalizing x front with
  | nil => exact .inl ⟨x, rfl, (List.append_nil front).symm ▸ h⟩
  | cons d ds ih =>
      obtain ⟨hfirst, hroom⟩ := List.forall_mem_cons.mp hroom
      rcases register_cases h hfirst with ⟨next, hnext, hholds, hsize⟩ | ⟨e, herror, hclash⟩
      · have hstep : (d :: ds).foldlM register x = ds.foldlM register next := by
          rw [List.foldlM_cons, hnext]
          rfl
        rw [← hsize] at hroom
        rw [hstep]
        rcases ih hholds hroom with ⟨x', hok, hall⟩ |
          ⟨before, d', after, e, rfl, hbefore, hclash, he⟩
        · exact .inl ⟨x', hok, List.append_cons front d ds ▸ hall⟩
        · rw [← List.append_cons] at hbefore hclash
          exact .inr ⟨d :: before, d', after, e, rfl, hbefore, hclash, he⟩
      · refine .inr ⟨[], d, ds, e, rfl, ?_, ?_, ?_⟩
        · exact (List.append_nil front).symm ▸ h.consistent
        · rwa [List.append_nil]
        · rw [List.foldlM_cons, herror]
          rfl

theorem blank_slot (ds : List Descriptor) (n : Nat) : (blank ds).slots[n]? ≠ some (some d) := by
  rw [blank]
  cases (ds.map (·.opcode.toNat)).max? with
  | none => simp
  | some highest => simp [Array.getElem?_replicate]

theorem blank_holds (ds : List Descriptor) : (blank ds).Holds [] where
  consistent := .nil
  slots n d := by simp [blank_slot]
  names key opcode := by simp [blank]
  length := rfl

/-- There is a slot for each opcode of the list. -/
theorem blank_room (hd : d ∈ ds) : d.opcode.toNat < (blank ds).slots.size := by
  have hmem : d.opcode.toNat ∈ ds.map (·.opcode.toNat) := List.mem_map_of_mem hd
  rw [blank]
  cases hmax : (ds.map (·.opcode.toNat)).max? with
  | none =>
      rw [List.max?_eq_none_iff.mp hmax] at hmem
      cases hmem
  | some highest =>
      have hle : d.opcode.toNat ≤ highest := (List.max?_eq_some_iff.mp hmax).2 _ hmem
      simpa using Nat.lt_succ_of_le hle

theorem build_cases (ds : List Descriptor) :
    (∃ x, build ds = .ok x ∧ x.Holds ds) ∨
      ∃ before d after e, ds = before ++ d :: after ∧ Consistent before ∧ Clash before d e ∧
        build ds = .error e :=
  foldlM_register_cases (blank_holds ds) fun _ => blank_room

end Index

/-! ## Tables -/

namespace Table

open Descriptor

variable {t : Table} {d : Descriptor}

/-- The indexes of a table hold what is in its slots. -/
theorem holds (t : Table) : t.index.Holds t.descriptors := by
  obtain ⟨ds, hbuilt⟩ := t.built
  rcases Index.build_cases ds with ⟨x, hok, hholds⟩ | ⟨before, d, after, e, -, -, -, herror⟩
  · obtain rfl := Except.ok.inj (hbuilt.symm.trans hok)
    exact hholds.perm hholds.descriptors_perm
  · cases hbuilt.symm.trans herror

theorem consistent (t : Table) : Consistent t.descriptors := t.holds.consistent

theorem sizes_supported (t : Table) :
    ∀ d ∈ t.descriptors, ∀ size ∈ d.sizes, size ∈ Immediate.sizes := t.consistent.supported

theorem get?_eq_some_iff {opcode : UInt8} :
    t.get? opcode = some d ↔ d ∈ t.descriptors ∧ d.opcode = opcode := t.holds.get?_eq_some_iff

theorem get?_mem {opcode : UInt8} (h : t.get? opcode = some d) : d ∈ t.descriptors :=
  (get?_eq_some_iff.mp h).1

theorem get?_eq_none_iff {opcode : UInt8} :
    t.get? opcode = none ↔ ∀ d ∈ t.descriptors, d.opcode ≠ opcode := by
  simp only [Option.eq_none_iff_forall_ne_some, ne_eq, get?_eq_some_iff, not_and]

theorem lookup?_eq_some_iff {mnemonic : String} :
    t.lookup? mnemonic = some d ↔ d ∈ t.descriptors ∧ d.name.toLower = mnemonic.toLower :=
  t.holds.lookup?_eq_some_iff

theorem lookup?_eq_none_iff {mnemonic : String} :
    t.lookup? mnemonic = none ↔ ∀ d ∈ t.descriptors, d.name.toLower ≠ mnemonic.toLower := by
  simp only [Option.eq_none_iff_forall_ne_some, ne_eq, lookup?_eq_some_iff, not_and]

theorem lookup?_mem {mnemonic : String} (h : t.lookup? mnemonic = some d) : d ∈ t.descriptors :=
  (lookup?_eq_some_iff.mp h).1

theorem ofDescriptors_eq_ok_iff {kind : Kind} {ds : List Descriptor} :
    ofDescriptors kind ds = .ok t ↔ Index.build ds = .ok t.index ∧ t.kind = kind := by
  obtain ⟨kind', index, hbuilt⟩ := t
  rw [ofDescriptors]
  split
  case h_1 x hx =>
      constructor
      · intro h
        cases h
        exact ⟨hx, rfl⟩
      · rintro ⟨h, rfl⟩
        cases hx.symm.trans h
        rfl
  case h_2 e he => simp [he]

theorem ofDescriptors_eq_error_iff {kind : Kind} {ds : List Descriptor} {e : TableError} :
    ofDescriptors kind ds = .error e ↔ Index.build ds = .error e := by
  rw [ofDescriptors]
  split
  case h_1 x hx => simp [hx]
  case h_2 e' he => rw [he, Except.error.injEq, Except.error.injEq]

/-- A table is made exactly from consistent descriptors. It then gives for an opcode, and for a
name in any case of its letters, the one descriptor that has it, lists the descriptors by their
opcodes, each of them once, and knows their number. Otherwise the clash of the first
descriptor that has one with those before it is reported. -/
theorem ofDescriptors_exact (kind : Kind) (ds : List Descriptor) :
    ((∃ t, ofDescriptors kind ds = .ok t) ↔ Consistent ds) ∧
    (∀ t, ofDescriptors kind ds = .ok t → t.kind = kind ∧
      (∀ opcode d, t.get? opcode = some d ↔ d ∈ ds ∧ d.opcode = opcode) ∧
      (∀ name d, t.lookup? name = some d ↔ d ∈ ds ∧ d.name.toLower = name.toLower) ∧
      t.descriptors.Perm ds ∧ t.descriptors.Pairwise (·.opcode < ·.opcode) ∧
      t.size = ds.length) ∧
    (∀ e, ofDescriptors kind ds = .error e ↔ ∃ before d after, ds = before ++ d :: after ∧
      Consistent before ∧ Clash before d e) := by
  simp only [ofDescriptors_eq_ok_iff, ofDescriptors_eq_error_iff]
  rcases Index.build_cases ds with ⟨x, hok, hholds⟩ |
    ⟨before, d, after, e, rfl, hbefore, hclash, herror⟩
  · refine ⟨⟨fun _ => hholds.consistent, fun _ => ⟨⟨kind, x, ds, hok⟩, hok, rfl⟩⟩,
      fun t ⟨ht, hkind⟩ => ?_, fun e => ⟨?_, ?_⟩⟩
    · obtain rfl := Except.ok.inj (hok.symm.trans ht)
      exact ⟨hkind, fun _ _ => hholds.get?_eq_some_iff, fun _ _ => hholds.lookup?_eq_some_iff,
        hholds.descriptors_perm, hholds.descriptors_ascending, hholds.length⟩
    · intro h
      cases hok.symm.trans h
    · rintro ⟨before, d, after, rfl, -, hclash⟩
      exact absurd hholds.consistent hclash.not_consistent
  · refine ⟨⟨?_, fun h => absurd h hclash.not_consistent⟩, fun t ⟨ht, _⟩ => ?_,
      fun e' => ⟨fun h => ?_, ?_⟩⟩
    · rintro ⟨t, ht, -⟩
      cases herror.symm.trans ht
    · cases herror.symm.trans ht
    · obtain rfl := Except.error.inj (herror.symm.trans h)
      exact ⟨before, d, after, rfl, hbefore, hclash⟩
    · rintro ⟨before', d', after', hsplit, hbefore', hclash'⟩
      rw [Clash.first_unique hsplit.symm hbefore' hclash' hbefore hclash]
      exact herror

/-- Instructions that are not in the order of their opcodes. -/
def unordered : List Descriptor :=
  [⟨"Push", 7, [8], .stack .push⟩, ⟨"pop", 1, [], .stack .pop⟩]

theorem ofDescriptors_exact_unordered :
    ∃ t, ofDescriptors .stack unordered = .ok t ∧
      t.lookup? "pUSH" = some ⟨"Push", 7, [8], .stack .push⟩ ∧ t.size = 2 := by
  obtain ⟨hmade, hmeaning, -⟩ := ofDescriptors_exact .stack unordered
  obtain ⟨t, ht⟩ := hmade.mpr ⟨by decide, by decide, by decide +kernel⟩
  obtain ⟨-, -, hlookup, -, -, hsize⟩ := hmeaning t ht
  have hname : "Push".toLower = "pUSH".toLower := Text.foldCase_eq_iff.mp (by decide)
  exact ⟨t, ht, (hlookup _ _).mpr ⟨List.mem_cons_self, hname⟩, hsize⟩

-- the second descriptor breaks all three rules
example : ofDescriptors .stack [⟨"pop", 1, [], .stack .pop⟩, ⟨"POP", 1, [4, 3, 5], .stack .push⟩] =
    .error (.unsupportedSize "POP" 3) := by rfl

end Table

/-! ## The instruction sets of the two machines -/

theorem Register.descriptors_table :
    Register.table.descriptors = Register.Op.all.map Register.Op.descriptor := rfl

theorem Stack.descriptors_table :
    Stack.table.descriptors = Stack.Op.all.map Stack.Op.descriptor := rfl

end DualMachine
