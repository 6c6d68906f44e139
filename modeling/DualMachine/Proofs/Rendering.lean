import DualMachine.Json.Parser
import DualMachine.Json.Printer
import DualMachine.Proofs.Words

/-!
# Texts of JSON values

A text is read in two passes, so it is read back in two steps. The first pass cuts the text of
a value into the value's `lexemes` (`Lexer.tokens?_render`), the second puts them together
again (`Builder.foldlM_lexemes`).

A keyword or a number ends where something else begins, and the texts of values have only
commas and closing marks after them: `Lexer.Cuts` says what a text is cut into wherever it
stands in such surroundings. What is written for a value puts commas between parts of one kind,
which both passes meet one part at a time (`Lexer.scan_intercalate`,
`Builder.foldlM_intercalate`).
-/

namespace DualMachine.Json

/-- Values that their texts spell in full. A number that is no integer has any spelling, and a
string without a text is written as an empty one. -/
inductive Plain : Json → Prop where
  | null : Plain .null
  | bool (b : Bool) : Plain (.bool b)
  | integer (v : Int) : Plain (.integer v)
  | text (s : String) : Plain (.text s)
  | array {items : List Json} (h : ∀ item ∈ items, Plain item) : Plain (.array items)
  | record {ms : List (String × Json)} (h : ∀ m ∈ ms, Plain m.2) : Plain (.record ms)

/-! ## Lexemes of a value -/

mutual

/-- The lexemes of the text of a value. -/
def lexemes : Json → List Token
  | .string text => [.string text]
  | .array items => .openBracket :: ([.comma].intercalate (itemLexemes items) ++ [.closeBracket])
  | .object members => .openBrace :: ([.comma].intercalate (memberLexemes members) ++ [.closeBrace])
  | value => [.scalar value]

def itemLexemes : List Json → List (List Token)
  | [] => []
  | item :: items => item.lexemes :: itemLexemes items

def memberLexemes : List (Option String × Json) → List (List Token)
  | [] => []
  | (name, value) :: members => (.string name :: .colon :: value.lexemes) :: memberLexemes members

end

theorem itemLexemes_eq (items : List Json) : itemLexemes items = items.map lexemes := by
  induction items with
  | nil => rfl
  | cons item items ih => rw [itemLexemes, ih, List.map_cons]

theorem memberLexemes_eq (ms : List (String × Json)) :
    memberLexemes (ms.map fun m => (some m.1, m.2))
      = ms.map fun m => .string (some m.1) :: .colon :: m.2.lexemes := by
  induction ms with
  | nil => rfl
  | cons m ms ih => rw [List.map_cons, memberLexemes, ih, List.map_cons]

theorem renderItems_eq (items : List Json) : renderItems items = items.map render := by
  induction items with
  | nil => rfl
  | cons item items ih => rw [renderItems, ih, List.map_cons]

theorem renderMembers_eq (ms : List (String × Json)) :
    renderMembers (ms.map fun m => (some m.1, m.2))
      = ms.map fun m => renderText (some m.1) ++ ":" ++ m.2.render := by
  induction ms with
  | nil => rfl
  | cons m ms ih => rw [List.map_cons, renderMembers, ih, List.map_cons]

/-! ## Cutting a text into lexemes -/

namespace Lexer

/-- The lexemes, latest first, when the pass ends after some more characters. -/
def scan (l : Lexer) (cs : List Char) : Option (List Token) :=
  (cs.foldlM step l).bind fun l => l.close.map tokens

variable {tokens : List Token} {rest : List Char}

theorem scan_nil (l : Lexer) : l.scan [] = l.close.map Lexer.tokens := rfl

theorem scan_cons (l : Lexer) (c : Char) (cs : List Char) :
    l.scan (c :: cs) = (l.step c).bind fun l => l.scan cs := by
  rw [scan, List.foldlM_cons]
  exact Option.bind_assoc ..

theorem scan_of_step {l l' : Lexer} {c : Char} (h : l.step c = some l') (cs : List Char) :
    l.scan (c :: cs) = l'.scan cs := by
  rw [scan_cons, h, Option.bind_some]

theorem scan_of_start {l : Lexer} {c : Char} (h : start tokens c = some l) (cs : List Char) :
    scan ⟨tokens, .between⟩ (c :: cs) = l.scan cs :=
  scan_of_step (l := ⟨tokens, .between⟩) h cs

theorem tokens?_eq_scan (text : String) :
    tokens? text = (scan {} text.toList).map List.reverse := by
  rw [tokens?, scan, Option.map_bind]
  refine congrArg _ (funext fun l => ?_)
  rw [Function.comp_apply, Option.map_map]
  cases l.close <;> rfl

/-- What comes next, if anything, ends a keyword or a number. -/
def Apart (cs : List Char) : Prop := ∀ c ∈ cs.head?, c = ',' ∨ c = ']' ∨ c = '\x7d'

theorem scan_word {chars : List Char} {v : Json} (h : Apart rest)
    (hv : keyword? chars.reverse = some v) :
    scan ⟨tokens, .word chars⟩ rest = scan ⟨.scalar v :: tokens, .between⟩ rest := by
  cases rest with
  | nil => simp [scan_nil, close, hv]
  | cons c rest =>
      have hc : c.isLower = false := by
        rcases h c rfl with rfl | rfl | rfl <;> rfl
      simp [scan_cons, step, close, hc, hv]

theorem scan_number {chars : List Char} {v : Json} (h : Apart rest)
    (hv : number? chars.reverse = some v) :
    scan ⟨tokens, .number chars⟩ rest = scan ⟨.scalar v :: tokens, .between⟩ rest := by
  cases rest with
  | nil => simp [scan_nil, close, hv]
  | cons c rest =>
      have hc : isNumberChar c = false := by
        rcases h c rfl with rfl | rfl | rfl <;> rfl
      simp [scan_cons, step, close, hc, hv]

/-- A number goes on as long as its characters do. -/
theorem scan_number_append {cs : List Char} (h : ∀ c ∈ cs, isNumberChar c = true)
    (chars : List Char) :
    scan ⟨tokens, .number chars⟩ (cs ++ rest)
      = scan ⟨tokens, .number (cs.reverse ++ chars)⟩ rest := by
  induction cs generalizing chars with
  | nil => rfl
  | cons c cs ih =>
      obtain ⟨hc, hcs⟩ := List.forall_mem_cons.mp h
      have hstep : step ⟨tokens, .number chars⟩ c = some ⟨tokens, .number (c :: chars)⟩ := by
        simp [step, hc]
      rw [List.cons_append, scan_of_step hstep, ih hcs]
      simp

/-- The text is cut into these lexemes, whatever comes before it, and after it anything that ends
a keyword or a number. -/
def Cuts (cs : List Char) (lexemes : List Token) : Prop :=
  ∀ tokens rest, Apart rest →
    scan ⟨tokens, .between⟩ (cs ++ rest) = scan ⟨lexemes.reverse ++ tokens, .between⟩ rest

theorem cuts_null : Cuts "null".toList [.scalar .null] :=
  fun _ _ hrest => scan_word hrest rfl

theorem cuts_true : Cuts "true".toList [.scalar (.bool true)] :=
  fun _ _ hrest => scan_word hrest rfl

theorem cuts_false : Cuts "false".toList [.scalar (.bool false)] :=
  fun _ _ hrest => scan_word hrest rfl

/-! ### Numbers -/

theorem start_number {c : Char} (h : c.isDigit = true ∨ c = '-') (tokens : List Token) :
    start tokens c = some ⟨tokens, .number [c]⟩ := by
  rw [start.eq_def]
  split
  all_goals simp_all

theorem cuts_number {c : Char} {cs : List Char} {v : Json} (hc : c.isDigit = true ∨ c = '-')
    (hcs : ∀ x ∈ cs, x.isDigit = true) (hv : number? (c :: cs) = some v) :
    Cuts (c :: cs) [.scalar v] := by
  intro tokens rest hrest
  have hchars : ∀ x ∈ cs, isNumberChar x = true := fun x hx => by simp [isNumberChar, hcs x hx]
  rw [List.cons_append, scan_of_start (start_number hc tokens), scan_number_append hchars]
  exact scan_number hrest (by simpa using hv)

/-- Only zero is written with a zero in front. -/
theorem head?_toDigits {n : Nat} (h : n ≠ 0) : (Nat.toDigits 10 n).head? ≠ some '0' := by
  induction n using Nat.strong_induction_on with
  | _ n ih =>
      rcases Nat.lt_or_ge n 10 with hlt | hle
      · have hdigit : ∀ d < 10, d ≠ 0 → [d.digitChar].head? ≠ some '0' := by decide
        rw [Nat.toDigits_of_lt_base hlt]
        exact hdigit n hlt h
      · rw [Nat.toDigits_eq_if (by decide), if_neg (not_lt.mpr hle),
          List.head?_append_of_ne_nil _ Nat.toDigits_ne_nil]
        exact ih (n / 10) (by omega) (by omega)

theorem toDigits_length {n : Nat} (h : (Nat.toDigits 10 n).head? = some '0') :
    (Nat.toDigits 10 n).length = 1 := by
  obtain rfl : n = 0 := not_imp_not.mp head?_toDigits h
  rfl

theorem number?_toDigits (n : Nat) : number? (Nat.toDigits 10 n) = some (.integer n) := by
  obtain ⟨hne, hdigits⟩ := Text.isNumeral_toDigits n
  have hsign : (Nat.toDigits 10 n).head? ≠ some '-' := fun h =>
    absurd (hdigits _ (List.mem_of_mem_head? h)) (by decide)
  simpa [number?, hsign, List.takeWhile_eq_self_iff.mpr hdigits,
    List.dropWhile_eq_nil_iff.mpr hdigits, hne, Nat.ofDigitChars_toDigits] using toDigits_length

theorem number?_minus {n : Nat} (h : n ≠ 0) :
    number? ('-' :: Nat.toDigits 10 n) = some (.integer (-n)) := by
  obtain ⟨hne, hdigits⟩ := Text.isNumeral_toDigits n
  simp [number?, List.takeWhile_eq_self_iff.mpr hdigits,
    List.dropWhile_eq_nil_iff.mpr hdigits, hne, head?_toDigits h, Nat.ofDigitChars_toDigits, h]

theorem cuts_integer (v : Int) : Cuts (toString v).toList [.scalar (.integer v)] := by
  cases v with
  | ofNat n =>
      obtain ⟨c, cs, hcs⟩ := List.exists_cons_of_ne_nil (Text.isNumeral_toDigits n).1
      have hdigits := List.forall_mem_cons.mp (hcs ▸ (Text.isNumeral_toDigits n).2)
      rw [Int.toString_eq_repr, Int.repr, Nat.toList_repr, hcs]
      exact cuts_number (.inl hdigits.1) hdigits.2 (hcs ▸ number?_toDigits n)
  | negSucc n =>
      rw [Int.toString_eq_repr, Int.repr, String.toList_append, Nat.toList_repr]
      exact cuts_number (.inr rfl) (Text.isNumeral_toDigits _).2 (number?_minus n.succ_ne_zero)

/-! ### Strings -/

theorem hexValue?_digitChar {d : Nat} (h : d < 16) : hexValue? d.digitChar = some d := by
  revert d
  decide

/-- A control character is read back from its code. -/
theorem scan_code {c : Char} (h : c.toNat < 0x20) (chars rest : List Char) :
    scan ⟨tokens, .string { chars := some chars }⟩
        ('\\' :: 'u' :: '0' :: '0' :: (c.toNat / 16).digitChar :: (c.toNat % 16).digitChar :: rest)
      = scan ⟨tokens, .string { chars := some (c :: chars) }⟩ rest := by
  have hfirst : step ⟨tokens, .string { chars := some chars, escape := .code 2 0 }⟩
      (c.toNat / 16).digitChar
      = some ⟨tokens, .string { chars := some chars, escape := .code 3 (c.toNat / 16) }⟩ := by
    simp [step, stepString, hexValue?_digitChar (show c.toNat / 16 < 16 by omega)]
  have hsecond : step ⟨tokens, .string { chars := some chars, escape := .code 3 (c.toNat / 16) }⟩
      (c.toNat % 16).digitChar = some ⟨tokens, .string { chars := some (c :: chars) }⟩ := by
    have hunit : c.toNat / 16 * 16 + c.toNat % 16 = c.toNat := by omega
    have hlow : ¬0xD800 ≤ c.toNat := by omega
    have hhigh : ¬0xDC00 ≤ c.toNat := by omega
    simp [step, stepString, hexValue?_digitChar (show c.toNat % 16 < 16 by omega), hunit,
      Piece.pushUnit, hlow, hhigh]
  exact (scan_of_step hfirst _).trans (scan_of_step hsecond _)

/-- A character is read back from what is written for it. -/
theorem scan_escaped (c : Char) (chars rest : List Char) :
    scan ⟨tokens, .string { chars := some chars }⟩ ((escaped c).toList ++ rest)
      = scan ⟨tokens, .string { chars := some (c :: chars) }⟩ rest := by
  rw [escaped.eq_def]
  split
  case h_8 hquote hbackslash _ _ _ _ _ =>
    split
    · rename_i hcontrol
      rw [String.toList_append, String.toList_ofList, String.toList_ofList]
      exact scan_code hcontrol chars rest
    · rename_i hcontrol
      rw [Char.toString_eq_singleton, String.toList_singleton, List.singleton_append]
      refine scan_of_step ?_ rest
      simp [step, stepString, hcontrol, Piece.push]
  all_goals rfl

theorem scan_flatMap_escaped (cs chars rest : List Char) :
    scan ⟨tokens, .string { chars := some chars }⟩
        (cs.flatMap (fun c => (escaped c).toList) ++ rest)
      = scan ⟨tokens, .string { chars := some (cs.reverse ++ chars) }⟩ rest := by
  induction cs generalizing chars with
  | nil => rfl
  | cons c cs ih =>
      rw [List.flatMap_cons, List.append_assoc, scan_escaped, ih, List.reverse_cons,
        List.append_assoc, List.singleton_append]

/-- A text is read back from between its quotes. -/
theorem scan_renderText (s : String) (rest : List Char) :
    scan ⟨tokens, .between⟩ ((renderText (some s)).toList ++ rest)
      = scan ⟨.string (some s) :: tokens, .between⟩ rest := by
  have hchars : (renderText (some s)).toList ++ rest
      = '"' :: (s.toList.flatMap (fun c => (escaped c).toList) ++ '"' :: rest) := by
    simp [renderText, String.toList_join, List.flatMap_map]
  have hfinish : step ⟨tokens, .string { chars := some (s.toList.reverse ++ []) }⟩ '"'
      = some ⟨.string (some s) :: tokens, .between⟩ := by
    simp [step, stepString, Piece.finish]
  rw [hchars, scan_of_start rfl, scan_flatMap_escaped, scan_of_step hfinish]

/-! ### Values -/

theorem cuts_text (s : String) : Cuts (renderText (some s)).toList [.string (some s)] :=
  fun _ rest _ => scan_renderText s rest

/-- Texts with commas between them, before a mark that ends the last of them. -/
theorem scan_intercalate {texts : List (List Char)} {lexemes : List (List Token)}
    (h : List.Forall₂ Cuts texts lexemes) (hrest : Apart rest) :
    scan ⟨tokens, .between⟩ ([','].intercalate texts ++ rest)
      = scan ⟨([.comma].intercalate lexemes).reverse ++ tokens, .between⟩ rest := by
  induction h generalizing tokens with
  | nil => rfl
  | cons hfirst hothers ih =>
      cases hothers with
      | nil => simpa using hfirst tokens rest hrest
      | cons hsecond hothers =>
          rw [List.intercalate_cons_cons, List.intercalate_cons_cons, List.append_assoc,
            List.append_assoc, hfirst _ _ (by simp [Apart]), List.singleton_append,
            scan_of_start rfl, ih]
          simp

theorem cuts_member (name : String) {text : String} {lexemes : List Token}
    (h : Cuts text.toList lexemes) :
    Cuts (renderText (some name) ++ ":" ++ text).toList
      (.string (some name) :: .colon :: lexemes) := by
  intro tokens rest hrest
  rw [String.toList_append, String.toList_append, List.append_assoc, List.append_assoc,
    scan_renderText]
  refine (scan_of_start rfl _).trans ((h _ rest hrest).trans ?_)
  simp

/-- The text of a value has the value's lexemes. -/
theorem cuts {j : Json} (h : j.Plain) : Cuts j.render.toList j.lexemes := by
  induction h with
  | null => exact cuts_null
  | bool b => cases b; exacts [cuts_false, cuts_true]
  | integer v => exact cuts_integer v
  | text s => exact cuts_text s
  | @array items h ih =>
      intro tokens rest hrest
      have hitems :
          List.Forall₂ Cuts ((items.map render).map String.toList) (items.map lexemes) := by
        rw [List.map_map, List.forall₂_map_left_iff, List.forall₂_map_right_iff]
        exact List.forall₂_same.mpr ih
      have hchars : (array items).render.toList ++ rest
          = '[' :: ([','].intercalate ((items.map render).map String.toList) ++ ']' :: rest) := by
        simp [render, renderItems_eq, String.toList_intercalate]
      rw [hchars, scan_of_start rfl, scan_intercalate hitems (by simp [Apart]), scan_of_start rfl,
        lexemes, itemLexemes_eq]
      simp
  | @record ms h ih =>
      intro tokens rest hrest
      have hmembers : List.Forall₂ Cuts
          ((ms.map fun m => renderText (some m.1) ++ ":" ++ m.2.render).map String.toList)
          (ms.map fun m => .string (some m.1) :: .colon :: m.2.lexemes) := by
        rw [List.map_map, List.forall₂_map_left_iff, List.forall₂_map_right_iff]
        exact List.forall₂_same.mpr fun m hm => cuts_member m.1 (ih m hm)
      have hchars : (record ms).render.toList ++ rest = '\x7b' :: ([','].intercalate
          ((ms.map fun m => renderText (some m.1) ++ ":" ++ m.2.render).map String.toList)
            ++ '\x7d' :: rest) := by
        simp only [record, render, renderMembers_eq]
        simp [String.toList_intercalate]
      rw [hchars, scan_of_start rfl, scan_intercalate hmembers (by simp [Apart]),
        scan_of_start rfl, record, lexemes, memberLexemes_eq]
      simp

theorem tokens?_render {j : Json} (h : j.Plain) : tokens? j.render = some j.lexemes := by
  have hcuts := cuts h [] [] (by simp [Apart])
  rw [List.append_nil, List.append_nil] at hcuts
  rw [tokens?_eq_scan, hcuts, scan_nil, close]
  simp

end Lexer

/-! ## Putting lexemes together -/

namespace Builder

/-- Parts with commas between them: a part that finds the pass ready leaves it done with what the
part stands for, and a comma makes it ready again. -/
theorem foldlM_intercalate {α γ : Type} {part : α → List Token} {value : α → γ}
    {Ready : List γ → Builder → Prop} {done : List γ → Builder}
    (hcomma : ∀ before, ∃ b, step (done before) .comma = some b ∧ Ready before b) {xs : List α}
    (hpart : ∀ x ∈ xs, ∀ {before b}, Ready before b →
      (part x).foldlM step b = some (done (value x :: before)))
    (hne : xs ≠ []) {before : List γ} {b : Builder} (hb : Ready before b) :
    ([Token.comma].intercalate (xs.map part)).foldlM step b
      = some (done ((xs.map value).reverse ++ before)) := by
  induction xs generalizing before b with
  | nil => exact absurd rfl hne
  | cons x xs ih =>
      obtain ⟨hx, hxs⟩ := List.forall_mem_cons.mp hpart
      cases xs with
      | nil => simp [hx hb]
      | cons next xs =>
          obtain ⟨b', hstep, hb'⟩ := hcomma (value x :: before)
          have hrest := ih hxs (by simp) hb'
          rw [List.map_cons, List.map_cons, List.intercalate_cons_cons, ← List.map_cons,
            List.append_assoc, List.foldlM_append, hx hb]
          simpa [hstep] using hrest

variable {stack : List Frame}

/-- The pass waits for an item of an array or for a value of any kind. -/
def AwaitsItem (stack : List Frame) (items : List Json) (b : Builder) : Prop :=
  b = ⟨.array items :: stack, .value⟩ ∨ b = ⟨.array items :: stack, .item⟩

/-- The pass waits for a member of an object. -/
def AwaitsMember (stack : List Frame) (members : List (Option String × Json)) (b : Builder) :
    Prop :=
  b = ⟨.object members none :: stack, .name⟩ ∨ b = ⟨.object members none :: stack, .member⟩

theorem foldlM_items {items : List Json} (hne : items ≠ [])
    (h : ∀ item ∈ items, ∀ stack awaiting, awaiting = .value ∨ awaiting = .item →
      item.lexemes.foldlM step ⟨stack, awaiting⟩ = some (complete stack item)) :
    ([Token.comma].intercalate (items.map lexemes)).foldlM step ⟨.array [] :: stack, .item⟩
      = some ⟨.array items.reverse :: stack, .comma⟩ := by
  have hitems := @foldlM_intercalate Json Json lexemes id (AwaitsItem stack)
    (fun before => ⟨.array before :: stack, .comma⟩) (fun before => ⟨_, rfl, .inl rfl⟩) items
    (fun item hitem before b hb => by
      rcases hb with rfl | rfl
      · exact h item hitem _ _ (.inl rfl)
      · exact h item hitem _ _ (.inr rfl)) hne [] _ (.inr rfl)
  simpa using hitems

theorem foldlM_members {ms : List (String × Json)} (hne : ms ≠ [])
    (h : ∀ m ∈ ms, ∀ stack,
      m.2.lexemes.foldlM step ⟨stack, .value⟩ = some (complete stack m.2)) :
    ([Token.comma].intercalate (ms.map fun m => .string (some m.1) :: .colon :: m.2.lexemes)).foldlM
        step ⟨.object [] none :: stack, .member⟩
      = some ⟨.object (ms.map fun m => (some m.1, m.2)).reverse none :: stack, .comma⟩ := by
  have hmembers := @foldlM_intercalate (String × Json) (Option String × Json)
    (fun m => .string (some m.1) :: .colon :: m.2.lexemes) (fun m => (some m.1, m.2))
    (AwaitsMember stack) (fun before => ⟨.object before none :: stack, .comma⟩)
    (fun before => ⟨_, rfl, .inl rfl⟩) ms
    (fun m hm before b hb => by
      rcases hb with rfl | rfl
      · exact h m hm _
      · exact h m hm _) hne [] _ (.inr rfl)
  simpa using hmembers

/-- The lexemes of a value put it in its place. -/
theorem foldlM_lexemes {j : Json} (h : j.Plain) (stack : List Frame) (awaiting : Awaiting)
    (hvalue : awaiting = .value ∨ awaiting = .item) :
    j.lexemes.foldlM step ⟨stack, awaiting⟩ = some (complete stack j) := by
  induction h generalizing stack awaiting with
  | null | bool | integer => rcases hvalue with rfl | rfl <;> rfl
  | text s => rcases hvalue with rfl | rfl <;> rfl
  | @array items h ih =>
      have hopen : step ⟨stack, awaiting⟩ .openBracket = some ⟨.array [] :: stack, .item⟩ := by
        rcases hvalue with rfl | rfl <;> rfl
      rw [lexemes, itemLexemes_eq, List.foldlM_cons, hopen]
      rcases eq_or_ne items [] with rfl | hne
      · rfl
      · simp [foldlM_items hne ih, step, comma?, close?]
  | @record ms h ih =>
      have hopen :
          step ⟨stack, awaiting⟩ .openBrace = some ⟨.object [] none :: stack, .member⟩ := by
        rcases hvalue with rfl | rfl <;> rfl
      rw [record, lexemes, memberLexemes_eq, List.foldlM_cons, hopen]
      rcases eq_or_ne ms [] with rfl | hne
      · rfl
      · have hvalues := fun m hm stack => ih m hm stack .value (.inl rfl)
        simp [foldlM_members hne hvalues, step, comma?, close?]

end Builder

/-- A value is read back from its text. -/
theorem parse?_render {j : Json} (h : j.Plain) : parse? j.render = some j := by
  rw [parse?, Lexer.tokens?_render h]
  simp [Builder.foldlM_lexemes h [] .value (.inl rfl), Builder.complete]

end DualMachine.Json
