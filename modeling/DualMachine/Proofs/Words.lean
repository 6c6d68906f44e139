import Mathlib
import DualMachine.Text.Blank
import DualMachine.Text.Decimal

/-!
# Words and numerals

How a text is read does not depend on how it is cut up. `Spaced chars words` says that the words
stand in a text, in order, with blanks around them, each as long as it can be; a text has exactly
one such list, the one that `words` computes (`words_eq_iff`). A text is put together from words in
the same terms: what stands on both sides of a blank is read separately (`Spaced.append`).

`Spells chars v` says that an optional sign and ASCII digits denote `v`. It is what is read, within
64 bits (`readInteger?_eq_some_iff`), decimal text is an instance (`spells_toString`), and there is
no case in it (`Spells.eq_of_toLower_eq`).
-/

namespace DualMachine.Text

/-! ## Words -/

/-- Blanks only. -/
def IsGap (gap : List Char) : Prop := ∀ c ∈ gap, isBlank c = true

/-- At least one character, and none of them blank. -/
def IsWord (word : List Char) : Prop := word ≠ [] ∧ ∀ c ∈ word, isBlank c = false

-- the search would take the instance that goes through all characters there are
instance : DecidablePred IsWord := fun word =>
  have : Decidable (∀ c ∈ word, isBlank c = false) := List.decidableBAll _ word
  inferInstanceAs (Decidable (_ ∧ _))

/-- The words of a text: blanks stand before, between and after them, and each goes on up to a
blank or the end of the text. -/
inductive Spaced : (chars : List Char) → (words : List (List Char)) → Prop where
  | gap {gap : List Char} (hgap : IsGap gap) : Spaced gap []
  | word {gap word rest : List Char} {words : List (List Char)} (hgap : IsGap gap)
      (hword : IsWord word) (hend : ∀ c ∈ rest.head?, isBlank c = true) (h : Spaced rest words) :
      Spaced (gap ++ (word ++ rest)) (word :: words)

theorem isGap_nil : IsGap [] := List.forall_mem_nil _

theorem IsGap.append {a b : List Char} (ha : IsGap a) (hb : IsGap b) : IsGap (a ++ b) :=
  List.forall_mem_append.mpr ⟨ha, hb⟩

theorem isGap_singleton {c : Char} (hc : isBlank c = true) : IsGap [c] :=
  List.forall_mem_singleton.mpr hc

namespace Spaced

variable {a b gap chars word : List Char} {us vs words : List (List Char)}

theorem gap_append (hgap : IsGap gap) (h : Spaced chars words) : Spaced (gap ++ chars) words := by
  cases h with
  | gap hchars => exact .gap (hgap.append hchars)
  | word hgap' hword hend hrest =>
      rw [← List.append_assoc]
      exact .word (hgap.append hgap') hword hend hrest

theorem single (hword : IsWord word) : Spaced word [word] := by
  have h : Spaced ([] ++ (word ++ [])) [word] :=
    .word isGap_nil hword (by simp) (.gap isGap_nil)
  rwa [List.nil_append, List.append_nil] at h

/-- What stands on both sides of a blank is read separately. -/
theorem append {c : Char} (h : Spaced a us) (hc : isBlank c = true) (h' : Spaced b vs) :
    Spaced (a ++ c :: b) (us ++ vs) := by
  have hrest : Spaced (c :: b) vs := gap_append (isGap_singleton hc) h'
  induction h with
  | gap hgap => exact gap_append hgap hrest
  | @word gap word rest words hgap hword hend _ ih =>
      rw [List.append_assoc, List.append_assoc]
      refine .word hgap hword ?_ ih
      cases rest with
      | nil => simpa using hc
      | cons d rest => simpa using hend

end Spaced

/-! ## Cutting a text into words -/

section

variable {gap word front rest chars : List Char}

theorem wordsFrom_gap (hgap : IsGap gap) :
    wordsFrom [] (gap ++ rest) = wordsFrom [] rest := by
  induction gap with
  | nil => rfl
  | cons c gap ih =>
      obtain ⟨hc, hgap⟩ := List.forall_mem_cons.mp hgap
      rw [List.cons_append, wordsFrom, if_pos hc, List.isEmpty_nil, if_pos rfl, ih hgap]

theorem wordsFrom_word (hword : ∀ c ∈ word, isBlank c = false) :
    wordsFrom front (word ++ rest) = wordsFrom (front ++ word) rest := by
  induction word generalizing front with
  | nil => rw [List.nil_append, List.append_nil]
  | cons c word ih =>
      obtain ⟨hc, hword⟩ := List.forall_mem_cons.mp hword
      have hc : ¬isBlank c = true := by simp [hc]
      rw [List.cons_append, wordsFrom, if_neg hc, ih hword, List.append_assoc,
        List.singleton_append]

theorem wordsFrom_end (hword : word ≠ []) (hend : ∀ c ∈ rest.head?, isBlank c = true) :
    wordsFrom word rest = word :: wordsFrom [] rest := by
  cases rest with
  | nil =>
      rw [wordsFrom, wordsFrom]
      exact hword
  | cons c rest =>
      have hc : isBlank c = true := hend c rfl
      have hempty : word.isEmpty = false := List.isEmpty_eq_false_iff.mpr hword
      simp only [wordsFrom, hc, hempty, if_true, List.isEmpty_nil, Bool.false_eq_true, if_false]

theorem Spaced.wordsFrom_eq {words : List (List Char)} (h : Spaced chars words) :
    wordsFrom [] chars = words := by
  induction h with
  | @gap gap hgap =>
      rw [← List.append_nil gap, wordsFrom_gap hgap, wordsFrom]
  | word hgap hword hend _ ih =>
      rw [wordsFrom_gap hgap, wordsFrom_word hword.2, List.nil_append,
        wordsFrom_end hword.1 hend, ih]

/-- The letters that were read so far and what follows them are cut up together. -/
theorem spaced_wordsFrom (word chars : List Char) (hword : ∀ c ∈ word, isBlank c = false) :
    Spaced (word ++ chars) (wordsFrom word chars) := by
  fun_induction wordsFrom word chars with
  | case1 => exact .gap isGap_nil
  | case2 word hne =>
      rw [List.append_nil]
      exact .single ⟨hne, hword⟩
  | case3 word c cs hc hempty ih =>
      obtain rfl := List.isEmpty_iff.mp hempty
      have hrest := Spaced.gap_append (isGap_singleton hc) (ih hword)
      exact hrest
  | case4 word c cs hc hne ih =>
      have hrest := Spaced.gap_append (isGap_singleton hc) (ih (List.forall_mem_nil _))
      refine .word isGap_nil ⟨fun h => hne (List.isEmpty_iff.mpr h), hword⟩ ?_ hrest
      simpa using hc
  | case5 word c cs hc ih =>
      rw [List.append_cons]
      refine ih (List.forall_mem_append.mpr ⟨hword, List.forall_mem_singleton.mpr ?_⟩)
      simpa using hc

end

/-- A text has one list of words. -/
theorem words_eq_iff {text : String} {words : List String} :
    Text.words text = words ↔ Spaced text.toList (words.map String.toList) := by
  constructor
  · rintro rfl
    have hchars : (Text.words text).map String.toList = wordsFrom [] text.toList := by
      simp [Text.words]
    rw [hchars]
    exact spaced_wordsFrom [] text.toList (List.forall_mem_nil _)
  · intro h
    rw [Text.words, h.wordsFrom_eq]
    simp

theorem words_of_isWord {word : String} (h : IsWord word.toList) : Text.words word = [word] :=
  words_eq_iff.mpr (.single h)

theorem words_append_blank (a b : String) :
    Text.words (a ++ " " ++ b) = Text.words a ++ Text.words b := by
  have ha : Spaced a.toList _ := words_eq_iff.mp rfl
  have hb : Spaced b.toList _ := words_eq_iff.mp rfl
  refine words_eq_iff.mpr ?_
  rw [List.map_append, String.toList_append, String.toList_append, List.append_assoc]
  exact ha.append (by decide : isBlank ' ' = true) hb

/-- Texts with a blank between them have the words of all of them. -/
theorem words_intercalate (texts : List String) :
    Text.words (" ".intercalate texts) = texts.flatMap Text.words := by
  induction texts with
  | nil => rfl
  | cons text texts ih =>
      cases texts with
      | nil => rw [String.intercalate_singleton, List.flatMap_singleton]
      | cons next texts =>
          rw [String.intercalate_cons_cons, words_append_blank, ih, ← List.flatMap_cons]

/-- Words with a blank between them are read back. -/
theorem words_intercalate_words {words : List String} (h : ∀ word ∈ words, IsWord word.toList) :
    Text.words (" ".intercalate words) = words := by
  rw [words_intercalate]
  calc words.flatMap Text.words = words.flatMap fun word => [word] :=
        List.flatMap_congr fun word hword => words_of_isWord (h word hword)
    _ = words := List.flatMap_singleton' words

/-! ## Numerals -/

/-- At least one character, and all of them ASCII digits. -/
def IsNumeral (digits : List Char) : Prop := digits ≠ [] ∧ ∀ c ∈ digits, c.isDigit = true

/-- The number that digits denote. -/
def numeralValue (digits : List Char) : Nat :=
  digits.foldl (fun n c => 10 * n + (c.toNat - '0'.toNat)) 0

/-- A numeral, after an optional sign, denotes an integer. -/
inductive Spells : (chars : List Char) → Int → Prop where
  | plain {digits : List Char} (h : IsNumeral digits) : Spells digits (numeralValue digits)
  | plus {digits : List Char} (h : IsNumeral digits) : Spells ('+' :: digits) (numeralValue digits)
  | minus {digits : List Char} (h : IsNumeral digits) :
      Spells ('-' :: digits) (-numeralValue digits)

theorem digitsValue?_eq_some_iff {digits : List Char} {n : Nat} :
    digitsValue? digits = some n ↔ IsNumeral digits ∧ numeralValue digits = n := by
  rw [digitsValue?, Option.ite_none_right_eq_some, Option.some.injEq]
  simp [IsNumeral, numeralValue, Nat.ofDigitChars]

theorem IsNumeral.not_sign {c : Char} {digits : List Char} (hc : c.isDigit = false) :
    ¬IsNumeral (c :: digits) := by
  intro h
  have hdigit := h.2 c List.mem_cons_self
  rw [hc] at hdigit
  cases hdigit

theorem signedValue?_minus (digits : List Char) :
    signedValue? ('-' :: digits) = Option.map (fun n : Nat => -(n : Int)) (digitsValue? digits) := by
  rw [signedValue?]
  cases digitsValue? digits <;> rfl

theorem signedValue?_plus (digits : List Char) :
    signedValue? ('+' :: digits) = Option.map (fun n : Nat => (n : Int)) (digitsValue? digits) := by
  rw [signedValue?]
  rfl

theorem signedValue?_plain {chars : List Char} (hminus : ∀ digits, chars ≠ '-' :: digits)
    (hplus : ∀ digits, chars ≠ '+' :: digits) :
    signedValue? chars = Option.map (fun n : Nat => (n : Int)) (digitsValue? chars) := by
  rw [signedValue?]
  · rfl
  · exact hminus
  · exact hplus

theorem signedValue?_eq_some_iff {chars : List Char} {v : Int} :
    signedValue? chars = some v ↔ Spells chars v := by
  constructor
  · intro h
    fun_cases signedValue? chars with
    | case1 digits =>
        rw [signedValue?_minus] at h
        obtain ⟨n, hn, rfl⟩ := Option.map_eq_some_iff.mp h
        obtain ⟨hdigits, rfl⟩ := digitsValue?_eq_some_iff.mp hn
        exact .minus hdigits
    | case2 digits =>
        rw [signedValue?_plus] at h
        obtain ⟨n, hn, rfl⟩ := Option.map_eq_some_iff.mp h
        obtain ⟨hdigits, rfl⟩ := digitsValue?_eq_some_iff.mp hn
        exact .plus hdigits
    | case3 _ hminus hplus =>
        rw [signedValue?_plain hminus hplus] at h
        obtain ⟨n, hn, rfl⟩ := Option.map_eq_some_iff.mp h
        obtain ⟨hdigits, rfl⟩ := digitsValue?_eq_some_iff.mp hn
        exact .plain hdigits
  · intro h
    cases h with
    | plain hdigits =>
        rw [signedValue?_plain, digitsValue?_eq_some_iff.mpr ⟨hdigits, rfl⟩, Option.map_some]
        · rintro digits rfl
          exact IsNumeral.not_sign rfl hdigits
        · rintro digits rfl
          exact IsNumeral.not_sign rfl hdigits
    | plus hdigits =>
        rw [signedValue?_plus, digitsValue?_eq_some_iff.mpr ⟨hdigits, rfl⟩, Option.map_some]
    | minus hdigits =>
        rw [signedValue?_minus, digitsValue?_eq_some_iff.mpr ⟨hdigits, rfl⟩, Option.map_some]

/-- A word is read as the integer that it spells, within 64 signed bits. -/
theorem readInteger?_eq_some_iff {word : String} {v : Int} :
    readInteger? word = some v ↔ Spells word.toList v ∧ -2 ^ 63 ≤ v ∧ v < 2 ^ 63 := by
  rw [readInteger?, Option.filter_eq_some_iff, signedValue?_eq_some_iff]
  simp

/-- A character of a spelled integer. -/
theorem Spells.mem {chars : List Char} {v : Int} (h : Spells chars v) {c : Char} (hc : c ∈ chars) :
    c = '+' ∨ c = '-' ∨ c.isDigit = true := by
  cases h with
  | plain hdigits => exact .inr (.inr (hdigits.2 c hc))
  | plus hdigits =>
      rcases List.mem_cons.mp hc with rfl | hc
      · exact .inl rfl
      · exact .inr (.inr (hdigits.2 c hc))
  | minus hdigits =>
      rcases List.mem_cons.mp hc with rfl | hc
      · exact .inr (.inl rfl)
      · exact .inr (.inr (hdigits.2 c hc))

theorem isBlank_eq_false {c : Char} (hlow : 0x21 ≤ c.toNat) (hhigh : c.toNat ≤ 0x84) :
    isBlank c = false := by
  simp only [isBlank, inRanges, blankRanges, List.any_cons, List.any_nil, Bool.or_false,
    Bool.or_eq_false_iff, Bool.and_eq_false_iff, decide_eq_false_iff_not]
  omega

theorem Spells.isWord {chars : List Char} {v : Int} (h : Spells chars v) : IsWord chars := by
  refine ⟨?_, fun c hc => ?_⟩
  · cases h with
    | plain hdigits => exact hdigits.1
    | plus | minus => exact List.cons_ne_nil _ _
  · rcases h.mem hc with rfl | rfl | hdigit
    · decide
    · decide
    · have hrange : 48 ≤ c.toNat ∧ c.toNat ≤ 57 := Char.isDigit_iff_toNat.mp hdigit
      exact isBlank_eq_false (by omega) (by omega)

theorem eq_of_map_eq {α β : Type} {f : α → β} {xs ys : List α}
    (hinj : ∀ x ∈ xs, ∀ y, f y = f x → y = x) (h : ys.map f = xs.map f) : ys = xs := by
  induction xs generalizing ys with
  | nil => exact List.map_eq_nil_iff.mp h
  | cons x xs ih =>
      obtain ⟨hx, hxs⟩ := List.forall_mem_cons.mp hinj
      obtain ⟨y, ys, rfl, hy, hys⟩ := List.map_eq_cons_iff.mp h
      rw [hx y hy, ih hxs hys]

/-- The characters of numerals have no case. -/
theorem eq_of_char_toLower_eq {c x : Char} (hc : c = '+' ∨ c = '-' ∨ c.isDigit = true)
    (h : x.toLower = c.toLower) : x = c := by
  have hlow : c.toNat < 65 := by
    rcases hc with rfl | rfl | hc
    · decide
    · decide
    · have hdigit : c.toNat ≤ 57 := (Char.isDigit_iff_toNat.mp hc).2
      omega
  have hupper : ∀ {y : Char}, y.isUpper = true → 65 ≤ y.toNat ∧ y.toNat ≤ 90 := by
    intro y hy
    simpa [Char.isUpper, UInt32.le_iff_toNat_le] using hy
  have hcase : ¬c.isUpper = true := fun hc => by have := hupper hc; omega
  rw [Char.toLower_eq_of_not_isUpper hcase] at h
  by_cases hx : x.isUpper = true
  · have hbounds := hupper hx
    rw [Char.toLower_eq_of_isUpper hx] at h
    have hnat := congrArg Char.toNat h
    rw [Char.toNat_ofNat, if_pos (by simp [Nat.isValidChar]; omega)] at hnat
    omega
  · rwa [Char.toLower_eq_of_not_isUpper hx] at h

/-- An integer is spelled in one case. -/
theorem Spells.eq_of_toLower_eq {word word' : String} {v : Int} (h : Spells word.toList v)
    (hcase : word'.toLower = word.toLower) : word' = word := by
  have hchars := congrArg String.toList hcase
  rw [String.toLower, String.toLower, String.toList_map, String.toList_map] at hchars
  exact String.toList_injective
    (eq_of_map_eq (fun _ hc _ heq => eq_of_char_toLower_eq (h.mem hc) heq) hchars)

theorem isNumeral_toDigits (n : Nat) : IsNumeral (Nat.toDigits 10 n) :=
  ⟨Nat.toDigits_ne_nil, fun _ => Nat.isDigit_of_mem_toDigits (by decide) (by decide)⟩

theorem numeralValue_toDigits (n : Nat) : numeralValue (Nat.toDigits 10 n) = n :=
  Nat.ofDigitChars_toDigits (by decide) (by decide)

/-- Decimal text spells the integer it is written for. -/
theorem spells_toString (v : Int) : Spells (toString v).toList v := by
  cases v with
  | ofNat n =>
      have h := Spells.plain (isNumeral_toDigits n)
      rw [numeralValue_toDigits] at h
      rw [Int.toString_eq_repr, Int.repr, Nat.toList_repr]
      exact h
  | negSucc n =>
      have h := Spells.minus (isNumeral_toDigits n.succ)
      rw [numeralValue_toDigits] at h
      rw [Int.toString_eq_repr, Int.repr, String.toList_append, Nat.toList_repr]
      exact h

end DualMachine.Text
