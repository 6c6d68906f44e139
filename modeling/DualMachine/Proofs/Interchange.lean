import DualMachine.Proofs.Libraries
import DualMachine.Proofs.Rendering
import DualMachine.Source.Json

/-!
# Packages as JSON values

What is written for a package has members that are read the same when they are missing:
`Json.Trims` leaves out any of them, at any depth. Readers take the number of arrays and
objects that may nest; a reader `Decodes` a value if it reads it at exactly the depths that
the value's own nesting fits into.

Every kind of source has its lemma: whatever is left out of what is written for it, it is
decoded from the rest. Expressions, statements and included packages recurse through lists, so
each of the three is a pair of mutual lemmas, one for a thing and one for a list of them. With
`Json.parse?_render` this gives the texts as well (`Package.read_written`).
-/

namespace DualMachine

namespace Json

/-! ## Records -/

@[simp] theorem members?_record (ms : List (String × Json)) : (record ms).members? = some ms := by
  rw [record, members?, List.mapM_map]
  induction ms with
  | nil => rfl
  | cons m ms ih =>
      rw [List.mapM_cons, ih]
      rfl

@[simp] theorem variant?_variant (tag : String) (content : Json) :
    (variant tag content).variant? = some (tag, content) := by
  rw [variant?, variant, members?_record]

@[simp] theorem fields?_record (names : List String) (ms : List (String × Json)) :
    (record ms).fields? names = names.mapM (field? ms) := by
  show (record ms).members?.bind (fun members => names.mapM (field? members)) = _
  rw [members?_record, Option.bind_some]

@[simp] theorem text?_text (s : String) : (text s).text? = some s := rfl

theorem record_inj {ms ms' : List (String × Json)} : record ms = record ms' ↔ ms = ms' := by
  refine ⟨fun h => ?_, congrArg record⟩
  have hmembers := congrArg members? h
  rw [members?_record, members?_record] at hmembers
  exact Option.some.inj hmembers

/-! ## Nesting -/

mutual

/-- How many arrays and objects nest in a value. -/
def nesting : Json → Nat
  | .array items => nestingItems items + 1
  | .object members => nestingMembers members + 1
  | _ => 0

def nestingItems : List Json → Nat
  | [] => 0
  | item :: items => max item.nesting (nestingItems items)

def nestingMembers : List (Option String × Json) → Nat
  | [] => 0
  | (_, value) :: members => max value.nesting (nestingMembers members)

end

@[simp] theorem nesting_text (s : String) : (text s).nesting = 0 := rfl

@[simp] theorem nesting_array (items : List Json) :
    (array items).nesting = nestingItems items + 1 := rfl

@[simp] theorem nesting_record (ms : List (String × Json)) :
    (record ms).nesting = nestingItems (ms.map Prod.snd) + 1 := by
  rw [record, nesting, Nat.add_right_cancel_iff]
  induction ms with
  | nil => rfl
  | cons m ms ih => rw [List.map_cons, List.map_cons, nestingMembers, nestingItems, ih]

theorem nesting_variant (tag : String) (content : Json) :
    (variant tag content).nesting = content.nesting + 1 := by
  simp [variant, nestingItems]

/-! ## Leaving out defaults -/

/-- The members that may be left out of a record: where they are missing, they are read as if they
stood there. -/
def defaults : List (String × Json) :=
  [("includes", .record []), ("functions", .array []), ("args", .array []), ("else_branch", .null)]

@[simp] theorem mem_defaults_iff {name : String} {v : Json} :
    (name, v) ∈ defaults ↔ name = "includes" ∧ v = .record [] ∨ name = "functions" ∧ v = .array [] ∨
      name = "args" ∧ v = .array [] ∨ name = "else_branch" ∧ v = .null := by
  simp [defaults]

/-- Members of which some defaults are left out, and the values of the others changed by `R`. -/
inductive Omits (R : Json → Json → Prop) :
    List (String × Json) → List (String × Json) → Prop where
  | nil : Omits R [] []
  | keep {name : String} {v v' : Json} {ms ms' : List (String × Json)} (hv : R v v')
      (h : Omits R ms ms') : Omits R ((name, v) :: ms) ((name, v') :: ms')
  | drop {m : String × Json} {ms ms' : List (String × Json)} (hm : m ∈ defaults)
      (h : Omits R ms ms') : Omits R (m :: ms) ms'

/-- `j'` is `j` without some of the defaults in it, at any depth. -/
inductive Trims : Json → Json → Prop where
  | refl (j : Json) : Trims j j
  | array {items items' : List Json} (h : List.Forall₂ Trims items items') :
      Trims (.array items) (.array items')
  | record {ms ms' : List (String × Json)} (h : Omits Trims ms ms') :
      Trims (.record ms) (.record ms')

theorem Omits.refl {R : Json → Json → Prop} (h : ∀ j, R j j) :
    ∀ ms : List (String × Json), Omits R ms ms
  | [] => .nil
  | _ :: ms => .keep (h _) (Omits.refl h ms)

@[simp] theorem omits_nil_iff {R : Json → Json → Prop} {ms' : List (String × Json)} :
    Omits R [] ms' ↔ ms' = [] := by
  constructor
  · intro h
    cases h
    rfl
  · rintro rfl
    exact .nil

@[simp] theorem omits_cons_iff {R : Json → Json → Prop} {name : String} {v : Json}
    {ms ms' : List (String × Json)} :
    Omits R ((name, v) :: ms) ms' ↔
      (∃ v' rest, ms' = (name, v') :: rest ∧ R v v' ∧ Omits R ms rest) ∨
      (name, v) ∈ defaults ∧ Omits R ms ms' := by
  constructor
  · intro h
    cases h with
    | keep hv h => exact .inl ⟨_, _, rfl, hv, h⟩
    | drop hm h => exact .inr ⟨hm, h⟩
  · rintro (⟨v', rest, rfl, hv, h⟩ | ⟨hm, h⟩)
    · exact .keep hv h
    · exact .drop hm h

theorem trims_array_iff {items : List Json} {j' : Json} :
    Trims (.array items) j' ↔ ∃ items', j' = .array items' ∧ List.Forall₂ Trims items items' := by
  constructor
  · intro htrims
    generalize hj : Json.array items = j at htrims
    cases htrims with
    | refl => exact ⟨items, hj.symm, List.forall₂_same.mpr fun j _ => .refl j⟩
    | array h =>
        obtain rfl := Json.array.inj hj
        exact ⟨_, rfl, h⟩
    | record h => cases hj
  · rintro ⟨items', rfl, h⟩
    exact .array h

@[simp] theorem trims_record_iff {ms : List (String × Json)} {j' : Json} :
    Trims (.record ms) j' ↔ ∃ ms', j' = .record ms' ∧ Omits Trims ms ms' := by
  constructor
  · intro htrims
    generalize hj : Json.record ms = j at htrims
    cases htrims with
    | refl => exact ⟨ms, hj.symm, .refl .refl ms⟩
    | array h => cases hj
    | record h =>
        obtain rfl := record_inj.mp hj
        exact ⟨_, rfl, h⟩
  · rintro ⟨ms', rfl, h⟩
    exact .record h

theorem trims_leaf_iff {j j' : Json} (h : j.nesting = 0) : Trims j j' ↔ j' = j := by
  constructor
  · intro htrims
    cases htrims with
    | refl => rfl
    | array => simp at h
    | record => simp at h
  · rintro rfl
    exact .refl j'

@[simp] theorem trims_null_iff {j' : Json} : Trims .null j' ↔ j' = .null := trims_leaf_iff rfl

@[simp] theorem trims_bool_iff {b : Bool} {j' : Json} : Trims (.bool b) j' ↔ j' = .bool b :=
  trims_leaf_iff rfl

@[simp] theorem trims_integer_iff {v : Int} {j' : Json} : Trims (.integer v) j' ↔ j' = .integer v :=
  trims_leaf_iff rfl

@[simp] theorem trims_text_iff {s : String} {j' : Json} : Trims (.text s) j' ↔ j' = .text s :=
  trims_leaf_iff rfl

/-- The tag of an alternative cannot be left out. -/
theorem trims_variant_iff {tag : String} {content j' : Json} (h : tag ∉ defaults.map Prod.fst) :
    Trims (.variant tag content) j' ↔ ∃ content', j' = .variant tag content' ∧
      Trims content content' := by
  have hkept : (tag, content) ∉ defaults := fun hmem => h (List.mem_map_of_mem hmem)
  simp only [variant, trims_record_iff, omits_cons_iff, omits_nil_iff, hkept, false_and, or_false]
  constructor
  · rintro ⟨_, rfl, content', _, rfl, hcontent, rfl⟩
    exact ⟨content', rfl, hcontent⟩
  · rintro ⟨content', rfl, hcontent⟩
    exact ⟨_, rfl, content', _, rfl, hcontent, rfl⟩

theorem Plain.variant {tag : String} {content : Json} (h : content.Plain) :
    (variant tag content).Plain :=
  .record (by simpa using h)

/-- A value without some of its defaults has a text as well, and nests no deeper. -/
theorem Plain.of_trims {j j' : Json} (hj : j.Plain) (h : Trims j j') :
    j'.Plain ∧ j'.nesting ≤ j.nesting := by
  induction hj generalizing j' with
  | null | bool | integer | text =>
      obtain rfl := (trims_leaf_iff rfl).mp h
      exact ⟨by constructor, le_rfl⟩
  | @array items hitems ih =>
      obtain ⟨items', rfl, htrims⟩ := trims_array_iff.mp h
      suffices (∀ item ∈ items', item.Plain) ∧ nestingItems items' ≤ nestingItems items from
        ⟨.array this.1, Nat.succ_le_succ this.2⟩
      clear h hitems
      induction htrims with
      | nil => simp
      | cons hitem _ ihitems =>
          obtain ⟨hfirst, hothers⟩ := List.forall_mem_cons.mp ih
          obtain ⟨hplain, hle⟩ := hfirst hitem
          obtain ⟨hplains, hles⟩ := ihitems hothers
          exact ⟨List.forall_mem_cons.mpr ⟨hplain, hplains⟩, max_le_max hle hles⟩
  | @record ms hms ih =>
      obtain ⟨ms', rfl, homits⟩ := trims_record_iff.mp h
      suffices (∀ m ∈ ms', m.2.Plain) ∧
          nestingItems (ms'.map Prod.snd) ≤ nestingItems (ms.map Prod.snd) by
        rw [nesting_record, nesting_record]
        exact ⟨.record this.1, Nat.succ_le_succ this.2⟩
      clear h hms
      induction homits with
      | nil => simp
      | keep hv _ ihms =>
          obtain ⟨hfirst, hothers⟩ := List.forall_mem_cons.mp ih
          obtain ⟨hplain, hle⟩ := hfirst hv
          obtain ⟨hplains, hles⟩ := ihms hothers
          exact ⟨List.forall_mem_cons.mpr ⟨hplain, hplains⟩, max_le_max hle hles⟩
      | drop _ _ ihms =>
          obtain ⟨hplains, hles⟩ := ihms (List.forall_mem_cons.mp ih).2
          exact ⟨hplains, hles.trans (le_max_right _ _)⟩

/-! ## Reading to the limit -/

/-- The value is read as `a` exactly where it may nest as deep as it does. -/
def Decodes {α : Type} (read : Nat → Json → Option α) (j : Json) (a : α) : Prop :=
  ∀ depth, read depth j = if j.nesting ≤ depth then some a else none

@[simp] theorem bind_ite {α β : Type} {c : Prop} [Decidable c] (a : α) (f : α → Option β) :
    (if c then some a else none).bind f = if c then f a else none := by
  split <;> rfl

namespace Decodes

variable {α : Type} {read : Nat → Json → Option α} {a : α}

/-- An array or an object takes one of the levels that there are. -/
theorem of_succ {j : Json} {n : Nat} (hj : j.nesting = n + 1) (hzero : read 0 j = none)
    (hsucc : ∀ depth, read (depth + 1) j = if n ≤ depth then some a else none) :
    Decodes read j a := by
  intro depth
  cases depth with
  | zero => rw [hzero, if_neg (by omega)]
  | succ depth => simp only [hsucc, hj, Nat.add_le_add_iff_right]

theorem record {ms : List (String × Json)} (hzero : read 0 (.record ms) = none)
    (hsucc : ∀ depth, read (depth + 1) (.record ms)
      = if nestingItems (ms.map Prod.snd) ≤ depth then some a else none) :
    Decodes read (.record ms) a :=
  of_succ (nesting_record ms) hzero hsucc

theorem variant {tag : String} {content : Json} (hzero : read 0 (.variant tag content) = none)
    (hsucc : ∀ depth, read (depth + 1) (.variant tag content)
      = if content.nesting ≤ depth then some a else none) :
    Decodes read (.variant tag content) a :=
  of_succ (nesting_variant tag content) hzero hsucc

/-- Items are read one after the other. -/
theorem mapM {items : List Json} {as : List α} (h : List.Forall₂ (Decodes read) items as)
    (depth : Nat) :
    items.mapM (read depth) = if nestingItems items ≤ depth then some as else none := by
  induction h with
  | nil => simp [nestingItems]
  | cons hitem _ ih =>
      rw [List.mapM_cons, hitem, ih]
      simp only [nestingItems, Nat.max_le, Option.bind_eq_bind, bind_ite, ite_and]
      rfl

/-- An array is read as a list by a reader that goes through its items. -/
theorem array {readAll : Nat → Json → Option (List α)} {items : List Json} {as : List α}
    (h : List.Forall₂ (Decodes read) items as) (hzero : readAll 0 (.array items) = none)
    (hsucc : ∀ depth, readAll (depth + 1) (.array items) = items.mapM (read depth)) :
    Decodes readAll (.array items) as :=
  of_succ (nesting_array items) hzero fun depth => (hsucc depth).trans (mapM h depth)

end Decodes

end Json

namespace Source

open Json (Trims Decodes)

/-! ## Expressions -/

@[simp] theorem tag?_text (depth : Nat) (s : String) : tag? depth (.text s) = some s := by
  simp [tag?]

@[simp] theorem UnaryOp.ofTag?_tag (op : UnaryOp) : ofTag? op.tag = some op := by
  cases op <;> rfl

@[simp] theorem BinaryOp.ofTag?_tag (op : BinaryOp) : ofTag? op.tag = some op := by
  cases op <;> rfl

@[simp] theorem word?_toInt (w : Word) : word? (.integer w.toInt) = some w := by
  have hlow := w.le_toInt
  have hhigh := w.toInt_lt
  norm_num at hlow hhigh
  simp [word?, hlow, hhigh]

@[simp] theorem Expr.listToJson_eq_nil_iff {es : List Expr} :
    Expr.listToJson es = [] ↔ es = [] := by
  cases es <;> simp [Expr.listToJson]

theorem Expr.decodes_list {es : List Expr} {j : Json}
    (hall : ∀ {items}, List.Forall₂ Trims (Expr.listToJson es) items →
      List.Forall₂ (Decodes Expr.ofJson?) items es)
    (h : (Json.array (Expr.listToJson es)).Trims j) : Decodes Expr.listOfJson? j es := by
  obtain ⟨items, rfl, hitems⟩ := Json.trims_array_iff.mp h
  exact .array (hall hitems) rfl fun depth => by simp [Expr.listOfJson?, Json.array?]

/-- An expression with fields is read where its fields are. -/
theorem Expr.decodes_fields {tag : String} {content : Json} {e : Expr}
    (htag : tag ∉ ["number", "boolean", "identifier", "paren"])
    (h : Decodes (fun depth => Expr.ofFields? depth tag) content e) :
    Decodes Expr.ofJson? (.variant tag content) e := by
  refine .variant rfl fun depth => ?_
  rw [← h depth, Expr.ofJson?, Json.variant?_variant]
  simp only [Option.bind_eq_bind, Option.bind_some]
  split
  all_goals first | rfl | simp at htag

mutual

theorem Expr.decodes : ∀ (e : Expr) {j : Json}, e.toJson.Trims j → Decodes Expr.ofJson? j e
  | .number v, j, h => by
      rw [Expr.toJson] at h
      obtain ⟨c, rfl, hc⟩ := (Json.trims_variant_iff (by decide)).mp h
      obtain rfl := Json.trims_integer_iff.mp hc
      exact .variant rfl fun depth => by simp [Expr.ofJson?, Json.nesting]
  | .boolean b, j, h => by
      rw [Expr.toJson] at h
      obtain ⟨c, rfl, hc⟩ := (Json.trims_variant_iff (by decide)).mp h
      obtain rfl := Json.trims_bool_iff.mp hc
      exact .variant rfl fun depth => by simp [Expr.ofJson?, Json.nesting, Json.bool?]
  | .identifier x, j, h => by
      rw [Expr.toJson] at h
      obtain ⟨c, rfl, hc⟩ := (Json.trims_variant_iff (by decide)).mp h
      obtain rfl := Json.trims_text_iff.mp hc
      exact .variant rfl fun depth => by simp [Expr.ofJson?]
  | .paren inner, j, h => by
      rw [Expr.toJson] at h
      obtain ⟨c, rfl, hc⟩ := (Json.trims_variant_iff (by decide)).mp h
      exact .variant rfl fun depth => by simp [Expr.ofJson?, Expr.decodes inner hc depth]
  | .unary op operand, j, h => by
      rw [Expr.toJson] at h
      obtain ⟨c, rfl, hc⟩ := (Json.trims_variant_iff (by decide)).mp h
      obtain ⟨x, rfl, hx⟩ : ∃ x, c = .record [("op", .text op.tag), ("operand", x)] ∧
        operand.toJson.Trims x := by simpa using hc
      refine Expr.decodes_fields (by decide) (.record rfl fun depth => ?_)
      simp [Expr.ofFields?, Json.field?, Json.nestingItems, Expr.decodes operand hx depth]
  | .binary op left right, j, h => by
      rw [Expr.toJson] at h
      obtain ⟨c, rfl, hc⟩ := (Json.trims_variant_iff (by decide)).mp h
      obtain ⟨x, y, rfl, hx, hy⟩ : ∃ x y,
        c = .record [("op", .text op.tag), ("left", x), ("right", y)] ∧ left.toJson.Trims x ∧
          right.toJson.Trims y := by simpa using hc
      refine Expr.decodes_fields (by decide) (.record rfl fun depth => ?_)
      simp [Expr.ofFields?, Json.field?, Json.nestingItems, Expr.decodes left hx depth,
        Expr.decodes right hy depth, ite_and]
  | .call f args, j, h => by
      rw [Expr.toJson] at h
      obtain ⟨c, rfl, hc⟩ := (Json.trims_variant_iff (by decide)).mp h
      obtain ⟨rest, rfl, ⟨x, rfl, hx⟩ | ⟨rfl, rfl⟩⟩ : ∃ rest,
        c = .record (("name", .text f) :: rest) ∧
          ((∃ x, rest = [("args", x)] ∧ (Json.array (Expr.listToJson args)).Trims x) ∨
            args = [] ∧ rest = []) := by simpa using hc
      · have hargs := Expr.decodes_list (Expr.decodes_all args) hx
        refine Expr.decodes_fields (by decide) (.record rfl fun depth => ?_)
        simp [Expr.ofFields?, Json.field?, Json.nestingItems, listOrEmpty, hargs depth]
      · refine Expr.decodes_fields (by decide) (.record rfl fun depth => ?_)
        simp [Expr.ofFields?, Json.field?, Json.nestingItems, listOrEmpty]

theorem Expr.decodes_all : ∀ (es : List Expr) {js : List Json},
    List.Forall₂ Trims (Expr.listToJson es) js → List.Forall₂ (Decodes Expr.ofJson?) js es
  | [], js, h => by
      rw [Expr.listToJson] at h
      obtain rfl := List.forall₂_nil_left_iff.mp h
      exact .nil
  | e :: es, js, h => by
      rw [Expr.listToJson] at h
      obtain ⟨j, js, hj, hjs, rfl⟩ := List.forall₂_cons_left_iff.mp h
      exact .cons (Expr.decodes e hj) (Expr.decodes_all es hjs)

end

mutual

theorem Expr.plain : ∀ e : Expr, e.toJson.Plain
  | .number v => by
      rw [Expr.toJson]
      exact .variant (.integer _)
  | .boolean b => by
      rw [Expr.toJson]
      exact .variant (.bool b)
  | .identifier x => by
      rw [Expr.toJson]
      exact .variant (.text x)
  | .unary op operand => by
      rw [Expr.toJson]
      exact .variant (.record (by simp [Json.Plain.text, operand.plain]))
  | .binary op left right => by
      rw [Expr.toJson]
      exact .variant (.record (by simp [Json.Plain.text, left.plain, right.plain]))
  | .call f args => by
      rw [Expr.toJson]
      exact .variant (.record (by simp [Json.Plain.text, Json.Plain.array (Expr.plain_all args)]))
  | .paren inner => by
      rw [Expr.toJson]
      exact .variant inner.plain

theorem Expr.plain_all : ∀ es : List Expr, ∀ j ∈ Expr.listToJson es, j.Plain
  | [] => by simp [Expr.listToJson]
  | e :: es => by
      rw [Expr.listToJson]
      exact List.forall_mem_cons.mpr ⟨e.plain, Expr.plain_all es⟩

end

/-! ## Statements -/

@[simp] theorem Stmt.listToJson_eq_nil_iff {ss : List Stmt} :
    Stmt.listToJson ss = [] ↔ ss = [] := by
  cases ss <;> simp [Stmt.listToJson]

theorem Stmt.decodes_list {ss : List Stmt} {j : Json}
    (hall : ∀ {items}, List.Forall₂ Trims (Stmt.listToJson ss) items →
      List.Forall₂ (Decodes Stmt.ofJson?) items ss)
    (h : (Json.array (Stmt.listToJson ss)).Trims j) : Decodes Stmt.listOfJson? j ss := by
  obtain ⟨items, rfl, hitems⟩ := Json.trims_array_iff.mp h
  exact .array (hall hitems) rfl fun depth => by simp [Stmt.listOfJson?, Json.array?]

/-- A statement with fields is read where its fields are. -/
theorem Stmt.decodes_fields {tag : String} {content : Json} {s : Stmt} (htag : tag ≠ "return")
    (h : Decodes (fun depth => Stmt.ofFields? depth tag) content s) :
    Decodes Stmt.ofJson? (.variant tag content) s := by
  refine .variant rfl fun depth => ?_
  rw [← h depth, Stmt.ofJson?, Json.variant?_variant]
  simp only [Option.bind_eq_bind, Option.bind_some]

mutual

theorem Stmt.decodes : ∀ (s : Stmt) {j : Json}, s.toJson.Trims j → Decodes Stmt.ofJson? j s
  | .var x value, j, h => by
      rw [Stmt.toJson] at h
      obtain ⟨c, rfl, hc⟩ := (Json.trims_variant_iff (by decide)).mp h
      obtain ⟨v, rfl, hv⟩ : ∃ v, c = .record [("name", .text x), ("value", v)] ∧
        value.toJson.Trims v := by simpa using hc
      refine Stmt.decodes_fields (by decide) (.record rfl fun depth => ?_)
      simp [Stmt.ofFields?, Json.field?, Json.nestingItems, value.decodes hv depth]
  | .assign x value, j, h => by
      rw [Stmt.toJson] at h
      obtain ⟨c, rfl, hc⟩ := (Json.trims_variant_iff (by decide)).mp h
      obtain ⟨v, rfl, hv⟩ : ∃ v, c = .record [("name", .text x), ("value", v)] ∧
        value.toJson.Trims v := by simpa using hc
      refine Stmt.decodes_fields (by decide) (.record rfl fun depth => ?_)
      simp [Stmt.ofFields?, Json.field?, Json.nestingItems, value.decodes hv depth]
  | .return value, j, h => by
      rw [Stmt.toJson] at h
      obtain ⟨c, rfl, hc⟩ := (Json.trims_variant_iff (by decide)).mp h
      exact .variant rfl fun depth => by simp [Stmt.ofJson?, value.decodes hc depth]
  | .if cond onTrue none, j, h => by
      rw [Stmt.toJson] at h
      obtain ⟨c, rfl, hc⟩ := (Json.trims_variant_iff (by decide)).mp h
      obtain ⟨x, y, rest, rfl, hx, hy, hrest⟩ : ∃ x y rest,
        c = .record (("condition", x) :: ("then_branch", y) :: rest) ∧ cond.toJson.Trims x ∧
          (Json.array (Stmt.listToJson onTrue)).Trims y ∧
          (rest = [("else_branch", .null)] ∨ rest = []) := by simpa using hc
      have htrue := Stmt.decodes_list (Stmt.decodes_all onTrue) hy
      refine Stmt.decodes_fields (by decide) (.record rfl fun depth => ?_)
      rcases hrest with rfl | rfl
      · simp [Stmt.ofFields?, Json.field?, Json.nestingItems, Json.nesting, cond.decodes hx depth,
          htrue depth, ite_and]
      · simp [Stmt.ofFields?, Json.field?, Json.nestingItems, cond.decodes hx depth, htrue depth,
          ite_and]
  | .if cond onTrue (some onFalse), j, h => by
      rw [Stmt.toJson] at h
      obtain ⟨c, rfl, hc⟩ := (Json.trims_variant_iff (by decide)).mp h
      obtain ⟨x, y, z, rfl, hx, hy, hz⟩ : ∃ x y z,
        c = .record [("condition", x), ("then_branch", y), ("else_branch", z)] ∧
          cond.toJson.Trims x ∧ (Json.array (Stmt.listToJson onTrue)).Trims y ∧
          (Json.array (Stmt.listToJson onFalse)).Trims z := by simpa using hc
      have htrue := Stmt.decodes_list (Stmt.decodes_all onTrue) hy
      have hfalse := Stmt.decodes_list (Stmt.decodes_all onFalse) hz
      obtain ⟨items, rfl, -⟩ := Json.trims_array_iff.mp hz
      refine Stmt.decodes_fields (by decide) (.record rfl fun depth => ?_)
      simp [Stmt.ofFields?, Json.field?, Json.nestingItems, cond.decodes hx depth, htrue depth,
        hfalse depth, ite_and]
  | .while cond body, j, h => by
      rw [Stmt.toJson] at h
      obtain ⟨c, rfl, hc⟩ := (Json.trims_variant_iff (by decide)).mp h
      obtain ⟨x, y, rfl, hx, hy⟩ : ∃ x y, c = .record [("condition", x), ("body", y)] ∧
        cond.toJson.Trims x ∧ (Json.array (Stmt.listToJson body)).Trims y := by simpa using hc
      have hbody := Stmt.decodes_list (Stmt.decodes_all body) hy
      refine Stmt.decodes_fields (by decide) (.record rfl fun depth => ?_)
      simp [Stmt.ofFields?, Json.field?, Json.nestingItems, cond.decodes hx depth, hbody depth,
        ite_and]

theorem Stmt.decodes_all : ∀ (ss : List Stmt) {js : List Json},
    List.Forall₂ Trims (Stmt.listToJson ss) js → List.Forall₂ (Decodes Stmt.ofJson?) js ss
  | [], js, h => by
      rw [Stmt.listToJson] at h
      obtain rfl := List.forall₂_nil_left_iff.mp h
      exact .nil
  | s :: ss, js, h => by
      rw [Stmt.listToJson] at h
      obtain ⟨j, js, hj, hjs, rfl⟩ := List.forall₂_cons_left_iff.mp h
      exact .cons (Stmt.decodes s hj) (Stmt.decodes_all ss hjs)

end

mutual

theorem Stmt.plain : ∀ s : Stmt, s.toJson.Plain
  | .var x value | .assign x value => by
      rw [Stmt.toJson]
      exact .variant (.record (by simp [Json.Plain.text, value.plain]))
  | .return value => by
      rw [Stmt.toJson]
      exact .variant value.plain
  | .if cond onTrue none => by
      rw [Stmt.toJson]
      exact .variant (.record
        (by simp [cond.plain, Json.Plain.array (Stmt.plain_all onTrue), Json.Plain.null]))
  | .if cond onTrue (some onFalse) => by
      rw [Stmt.toJson]
      exact .variant (.record (by simp [cond.plain, Json.Plain.array (Stmt.plain_all onTrue),
        Json.Plain.array (Stmt.plain_all onFalse)]))
  | .while cond body => by
      rw [Stmt.toJson]
      exact .variant (.record (by simp [cond.plain, Json.Plain.array (Stmt.plain_all body)]))

theorem Stmt.plain_all : ∀ ss : List Stmt, ∀ j ∈ Stmt.listToJson ss, j.Plain
  | [] => by simp [Stmt.listToJson]
  | s :: ss => by
      rw [Stmt.listToJson]
      exact List.forall_mem_cons.mpr ⟨s.plain, Stmt.plain_all ss⟩

end

/-! ## Functions -/

theorem Body.decodes (b : Body) {j : Json} (h : b.toJson.Trims j) : Decodes Body.ofJson? j b := by
  cases b with
  | block ss =>
      obtain ⟨c, rfl, hc⟩ := (Json.trims_variant_iff (by decide)).mp h
      have hblock := Stmt.decodes_list (Stmt.decodes_all ss) hc
      exact .variant rfl fun depth => by simp [Body.ofJson?, hblock depth]
  | expression value =>
      obtain ⟨c, rfl, hc⟩ := (Json.trims_variant_iff (by decide)).mp h
      exact .variant rfl fun depth => by simp [Body.ofJson?, value.decodes hc depth]

theorem decodes_texts {names : List String} {j : Json}
    (h : (Json.array (names.map .text)).Trims j) : Decodes textsOfJson? j names := by
  obtain ⟨items, rfl, hitems⟩ := Json.trims_array_iff.mp h
  have htexts : List.Forall₂ (Decodes fun _ => Json.text?) items names := by
    rw [List.forall₂_map_left_iff] at hitems
    refine hitems.flip.imp fun item name hitem => ?_
    obtain rfl := Json.trims_text_iff.mp hitem
    intro depth
    simp
  exact .array htexts rfl fun depth => by simp [textsOfJson?, Json.array?]

theorem Definition.decodes (d : Definition) {j : Json} (h : d.toJson.Trims j) :
    Decodes Definition.ofJson? j d := by
  obtain ⟨name, args, body⟩ := d
  rw [Definition.toJson] at h
  obtain ⟨rest, rfl, hrest⟩ : ∃ rest, j = .record (("name", .text name) :: rest) ∧
      ((∃ x y, rest = [("args", x), ("body", y)] ∧ (Json.array (args.map .text)).Trims x ∧
          body.toJson.Trims y) ∨
        args = [] ∧ ∃ y, rest = [("body", y)] ∧ body.toJson.Trims y) := by simpa using h
  rcases hrest with ⟨x, y, rfl, hx, hy⟩ | ⟨rfl, y, rfl, hy⟩
  · refine .record rfl fun depth => ?_
    simp [Definition.ofJson?, Json.field?, Json.nestingItems, listOrEmpty, decodes_texts hx depth,
      body.decodes hy depth, ite_and]
  · refine .record rfl fun depth => ?_
    simp [Definition.ofJson?, Json.field?, Json.nestingItems, listOrEmpty, body.decodes hy depth]

theorem Definition.decodes_list {ds : List Definition} {j : Json}
    (h : (Json.array (ds.map Definition.toJson)).Trims j) :
    Decodes Definition.listOfJson? j ds := by
  obtain ⟨items, rfl, hitems⟩ := Json.trims_array_iff.mp h
  rw [List.forall₂_map_left_iff] at hitems
  have hall : List.Forall₂ (Decodes Definition.ofJson?) items ds :=
    hitems.flip.imp fun item d hitem => d.decodes hitem
  exact .array hall rfl fun depth => by simp [Definition.listOfJson?, Json.array?]

theorem Body.plain (b : Body) : b.toJson.Plain := by
  cases b with
  | block ss => exact .variant (.array (Stmt.plain_all ss))
  | expression value => exact .variant value.plain

theorem Definition.plain (d : Definition) : d.toJson.Plain := by
  have hargs : (Json.array (d.args.map .text)).Plain := .array (by simp [Json.Plain.text])
  exact .record (by simp [Json.Plain.text, d.body.plain, hargs])

/-! ## Packages -/

namespace Package

/-- An included package is no default, whatever its name. -/
theorem toJson_not_mem_defaults (name : String) (p : Package) :
    (name, p.toJson) ∉ Json.defaults := by
  cases p
  simp [toJson, Json.record]

@[simp] theorem includesToJson_eq_nil_iff {includes : List (String × Package)} :
    includesToJson includes = [] ↔ includes = [] := by
  cases includes <;> simp [includesToJson]

/-- A package goes to the end of those whose names come before its own. -/
theorem insert_of_forall_lt {name : String} {p : Package} {sorted : List (String × Package)}
    (h : ∀ u ∈ sorted, u.1 < name) : insert name p sorted = sorted ++ [(name, p)] := by
  induction sorted with
  | nil => rfl
  | cons u sorted ih =>
      obtain ⟨hu, hsorted⟩ := List.forall_mem_cons.mp h
      rw [insert, if_neg (lt_asymm hu), if_neg hu.ne', ih hsorted, List.cons_append]

/-- Packages whose names ascend stay as they are. -/
theorem ofIncludes_of_ascending {includes : List (String × Package)}
    (h : (includes.map Prod.fst).Pairwise (· < ·)) (functions : List Definition) :
    ofIncludes includes functions = mk includes functions := by
  -- The packages that have been put in and those that are left ascend together.
  suffices ∀ rest sorted : List (String × Package),
      ((sorted ++ rest).map Prod.fst).Pairwise (· < ·) →
      rest.foldl (fun sorted u => insert u.1 u.2 sorted) sorted = sorted ++ rest from
    congrArg (mk · functions) (this includes [] h)
  intro rest
  induction rest with
  | nil => simp
  | cons u rest ih =>
      intro sorted hsorted
      have hlt : ∀ v ∈ sorted, v.1 < u.1 := fun v hv => by
        rw [List.map_append, List.pairwise_append] at hsorted
        exact hsorted.2.2 _ (List.mem_map_of_mem hv) _ (by simp)
      rw [List.foldl_cons, insert_of_forall_lt hlt, ih _ (by simpa using hsorted)]
      simp

theorem decodes_includes {includes : List (String × Package)} {ms : List (String × Json)}
    (h : List.Forall₂ (fun m u => m.1 = u.1 ∧ Decodes Package.ofJson? m.2 u.2) ms includes) :
    Decodes includesOfJson? (.record ms) includes := by
  refine .record rfl fun depth => ?_
  rw [includesOfJson?, Json.members?_record]
  simp only [Option.bind_eq_bind, Option.bind_some]
  induction h with
  | nil => simp [Json.nestingItems]
  | cons hitem _ ih =>
      rw [List.mapM_cons, ih, hitem.1, hitem.2 depth]
      simp [Json.nestingItems, ite_and]

mutual

theorem decodes : ∀ (p : Package), p.Ordered → ∀ {j : Json}, p.toJson.Trims j →
    Decodes Package.ofJson? j p
  | .mk includes functions, hp, j, h => by
      obtain ⟨names, included⟩ := hp
      have hread : ∀ ds, ofIncludes includes ds = mk includes ds := ofIncludes_of_ascending names
      rw [toJson] at h
      obtain ⟨ms, rfl, hms⟩ := Json.trims_record_iff.mp h
      have hfunctions : ∀ {rest}, Json.Omits Trims
          [("functions", .array (functions.map Definition.toJson))] rest →
          (∃ x, rest = [("functions", x)] ∧
            (Json.array (functions.map Definition.toJson)).Trims x) ∨
          functions = [] ∧ rest = [] := fun hrest => by simpa using hrest
      refine .record rfl fun depth => ?_
      rcases Json.omits_cons_iff.mp hms with ⟨v, rest, rfl, hv, hrest⟩ | ⟨hdefault, hrest⟩
      · obtain ⟨us, rfl, hus⟩ := Json.trims_record_iff.mp hv
        have hincludes := decodes_includes (decodes_all includes included hus) depth
        rcases hfunctions hrest with ⟨x, rfl, hx⟩ | ⟨rfl, rfl⟩
        · simp [ofJson?, Json.field?, Json.nestingItems, listOrEmpty, hread, hincludes,
            Definition.decodes_list hx depth, ite_and]
        · simp [ofJson?, Json.field?, Json.nestingItems, listOrEmpty, hread, hincludes]
      · obtain rfl : includes = [] := by simpa [Json.record_inj] using hdefault
        rcases hfunctions hrest with ⟨x, rfl, hx⟩ | ⟨rfl, rfl⟩
        · simp [ofJson?, Json.field?, Json.nestingItems, listOrEmpty, hread,
            Definition.decodes_list hx depth]
        · simp [ofJson?, Json.field?, Json.nestingItems, listOrEmpty, hread]

theorem decodes_all : ∀ (includes : List (String × Package)), (∀ u ∈ includes, u.2.Ordered) →
    ∀ {ms : List (String × Json)}, Json.Omits Trims (includesToJson includes) ms →
    List.Forall₂ (fun m u => m.1 = u.1 ∧ Decodes Package.ofJson? m.2 u.2) ms includes
  | [], hp, ms, h => by
      rw [includesToJson] at h
      obtain rfl := Json.omits_nil_iff.mp h
      exact .nil
  | (name, p) :: includes, hp, ms, h => by
      rw [includesToJson, Json.omits_cons_iff] at h
      obtain ⟨v, rest, rfl, hv, hrest⟩ := h.resolve_right fun hdrop =>
        toJson_not_mem_defaults name p hdrop.1
      obtain ⟨hordered, hall⟩ := List.forall_mem_cons.mp hp
      exact .cons ⟨rfl, decodes p hordered hv⟩ (decodes_all includes hall hrest)

end

mutual

theorem plain : ∀ p : Package, p.toJson.Plain
  | .mk includes functions => by
      have hfunctions : (Json.array (functions.map Definition.toJson)).Plain :=
        .array (by simp [Definition.plain])
      rw [toJson]
      exact .record (by simp [Json.Plain.record (plain_all includes), hfunctions])

theorem plain_all : ∀ includes : List (String × Package), ∀ m ∈ includesToJson includes, m.2.Plain
  | [] => by simp [includesToJson]
  | (name, p) :: includes => by
      rw [includesToJson]
      exact List.forall_mem_cons.mpr ⟨p.plain, plain_all includes⟩

end

/-- A package is read back from the value that is written for it, and from its text: in
full, or without any of the members that have their default. A value is read where it may
nest as deep as it does. -/
theorem read_written {p : Package} (hp : p.Ordered) :
    (∀ j, p.toJson.Trims j → j.nesting ≤ p.toJson.nesting ∧
      (∀ depth, Package.ofJson? depth j = if j.nesting ≤ depth then some p else none) ∧
      Package.parse? j.render = if j.nesting ≤ nestingLimit then some p else none) ∧
    Package.parse? p.render = if p.toJson.nesting ≤ nestingLimit then some p else none := by
  have htexts : ∀ j, p.toJson.Trims j →
      Package.parse? j.render = if j.nesting ≤ nestingLimit then some p else none := by
    intro j hj
    rw [parse?, Json.parse?_render (p.plain.of_trims hj).1]
    exact p.decodes hp hj nestingLimit
  exact ⟨fun j hj => ⟨(p.plain.of_trims hj).2, p.decodes hp hj, htexts j hj⟩, htexts _ (.refl _)⟩

/-- A package that includes one, with a branch that has no alternative and a call without
arguments. -/
def nested : Package :=
  .mk [("a", .mk [] [⟨"f", [], .block [.if (.call "g" []) [.return (.number 1)] none]⟩])] []

/-- What is written for `nested`, with all of the defaults left out. -/
def terse : Json :=
  .record [("includes", .record [("a", .record [("functions", .array [.record
    [("name", .text "f"), ("body", .variant "block" (.array [.variant "if" (.record
      [("condition", .variant "call" (.record [("name", .text "g")])),
       ("then_branch", .array [.variant "return" (.variant "number" (.integer 1))])])]))]])])])]

theorem read_written_terse :
    nested.Ordered ∧ nested.toJson.Trims terse ∧ Package.parse? terse.render = some nested := by
  have hordered : nested.Ordered := by
    refine .mk (by simp) fun u hu => ?_
    obtain rfl := List.mem_singleton.mp hu
    exact .mk .nil (by simp)
  have hcall : (Expr.call "g" []).toJson.Trims (.variant "call" (.record [("name", .text "g")])) :=
    .record (.keep (.record (.keep (.refl _) (.drop (by simp [Expr.listToJson]) .nil))) .nil)
  have hbody : (Body.block [.if (.call "g" []) [.return (.number 1)] none]).toJson.Trims
      (.variant "block" (.array [.variant "if" (.record
        [("condition", .variant "call" (.record [("name", .text "g")])),
         ("then_branch", .array [.variant "return" (.variant "number" (.integer 1))])])])) :=
    .record (.keep (.array (.cons (.record (.keep (.record
      (.keep hcall (.keep (.refl _) (.drop (by simp) .nil)))) .nil)) .nil)) .nil)
  have htrims : nested.toJson.Trims terse :=
    .record (.keep (.record (.keep (.record (.drop (by simp [includesToJson]) (.keep (.array (.cons
      (.record (.keep (.refl _) (.drop (by simp) (.keep hbody .nil)))) .nil)) .nil))) .nil))
      (.drop (by simp) .nil))
  have hread := ((read_written hordered).1 terse htrims).2.2
  exact ⟨hordered, htrims, hread.trans (if_pos (by decide))⟩

end Package

end Source

end DualMachine
