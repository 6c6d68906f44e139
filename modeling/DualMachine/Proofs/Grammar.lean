import DualMachine.Proofs.Assembly
import DualMachine.Proofs.Tables
import DualMachine.Proofs.Words

/-!
# The grammar of assembly text

A program is written as a sequence of groups of words: the name of an instruction, then a word for
each of its immediates. `Table.Sentence words code` says so without a parser, and says
which instructions are written. Words that some sentence begins with are `Table.Viable`.

Any list of words is a sentence, ends inside an instruction (`Table.Inside`), or has a word that is
rejected after those before it (`Table.Rejects`); this is about the grammar alone
(`Table.sentence_cases`). The parser goes through a sentence at the front of its words and is then
where it would be at the start of what follows (`Table.Sentence.parseWords_append`), which settles
its answer for each of the three kinds. So it accepts exactly the sentences, and what it
reports is about the first word after which the text cannot be completed any more
(`Table.parse_exact`).
-/

namespace DualMachine

/-! ## Immediates -/

/-- The values that can be written for an immediate: those that its bytes represent, signed or
unsigned, and for eight bytes the signed ones only. -/
def Immediate.Writable (size : Nat) (v : Int) : Prop :=
  if size < 8 then -2 ^ (8 * size - 1) ≤ v ∧ v ≤ 2 ^ (8 * size) - 1 else -2 ^ 63 ≤ v ∧ v < 2 ^ 63

/-- `word` is an integer that can be written for an immediate of `size` bytes, and `operand` is
what they keep of it: the signed value that differs from it by a multiple of `2 ^ (8 * size)`. -/
def Operand.Written (size : Nat) (word : String) (operand : Operand) : Prop :=
  ∃ v, Text.Spells word.toList v ∧ Immediate.Writable size v ∧
    operand = .value (v.bmod (2 ^ (8 * size)))

/-- Why `word` cannot be written for an immediate of `d` with `size` bytes: it is no integer of 64
signed bits, or the bytes do not represent it. -/
inductive Descriptor.Refuses (d : Descriptor) (size : Nat) (word : String) : AsmError → Prop where
  | malformed (h : ∀ v, Text.Spells word.toList v → ¬(-2 ^ 63 ≤ v ∧ v < 2 ^ 63)) :
      Refuses d size word (.malformedImmediate d.name word)
  | outOfRange {v : Int} (h : Text.Spells word.toList v) (hbits : -2 ^ 63 ≤ v ∧ v < 2 ^ 63)
      (hv : ¬Immediate.Writable size v) :
      Refuses d size word (.immediateOutOfRange d.name v size)

namespace Immediate

theorem range_eq (size : Nat) : range size = 2 ^ (8 * size) := (Nat.pow_mul 2 8 size).symm

theorem normalize_eq {size : Nat} (h : size ∈ sizes) (v : Int) :
    normalize size v = v.bmod (2 ^ (8 * size)) := by
  rw [normalize_eq_bmod h, range_eq]

theorem cast_range (size : Nat) : (range size : Int) = 2 ^ (8 * size) := by
  exact_mod_cast range_eq size

theorem fits_eq_true_iff {size : Nat} {v : Int} :
    fits size v = true ↔ 8 ≤ size ∨ -2 ^ (8 * size - 1) ≤ v ∧ v < 2 ^ (8 * size) := by
  have hhalf : (Nat.pow 2 (8 * size - 1) : Int) = 2 ^ (8 * size - 1) :=
    Nat.cast_pow 2 (8 * size - 1)
  rw [fits, cast_range, hhalf]
  simp only [Bool.or_eq_true, Bool.and_eq_true, decide_eq_true_eq]

theorem writable_iff {size : Nat} {v : Int} :
    Writable size v ↔ (-2 ^ 63 ≤ v ∧ v < 2 ^ 63) ∧ fits size v = true := by
  rw [Writable, fits_eq_true_iff]
  by_cases hsize : size < 8
  · have hlow : (2 : Int) ^ (8 * size - 1) ≤ 2 ^ 63 := pow_le_pow_right₀ (by decide) (by omega)
    have hhigh : (2 : Int) ^ (8 * size) ≤ 2 ^ 63 := pow_le_pow_right₀ (by decide) (by omega)
    rw [if_pos hsize]
    omega
  · rw [if_neg hsize]
    omega

theorem writable_zero (size : Nat) : Writable size 0 := by
  have hlow : (0 : Int) ≤ 2 ^ (8 * size - 1) := by positivity
  have hhigh : (1 : Int) ≤ 2 ^ (8 * size) := one_le_pow₀ (by decide)
  rw [Writable]
  split <;> omega

end Immediate

theorem Operand.written_zero (size : Nat) : ∃ operand, Written size "0" operand :=
  ⟨_, 0, Text.spells_toString 0, Immediate.writable_zero size, rfl⟩

/-- A word can be written for an immediate, or it is refused there. -/
theorem Descriptor.written_or_refused (d : Descriptor) (size : Nat) (word : String) :
    (∃ operand, Operand.Written size word operand) ∨ ∃ e, d.Refuses size word e := by
  by_cases hread : ∃ v, Text.Spells word.toList v ∧ -2 ^ 63 ≤ v ∧ v < 2 ^ 63
  · obtain ⟨v, hspells, hbits⟩ := hread
    by_cases hv : Immediate.Writable size v
    · exact .inl ⟨_, v, hspells, hv, rfl⟩
    · exact .inr ⟨_, .outOfRange hspells hbits hv⟩
  · exact .inr ⟨_, .malformed fun v hspells hbits => hread ⟨v, hspells, hbits⟩⟩

/-! ## Sentences -/

/-- Words for immediates of the given widths, and the operands that they are written for. -/
inductive Operand.Arguments : (sizes : List Nat) → (words : List String) → List Operand → Prop where
  | nil : Arguments [] [] []
  | cons {size : Nat} {word : String} {operand : Operand} {sizes : List Nat} {words : List String}
      {operands : List Operand} (hword : Written size word operand)
      (h : Arguments sizes words operands) :
      Arguments (size :: sizes) (word :: words) (operand :: operands)

namespace Table

open Operand

/-- A name of the table's instruction `d`, in any case of its letters. -/
structure Names (t : Table) (word : String) (d : Descriptor) : Prop where
  mem : d ∈ t.descriptors
  name : d.name.toLower = word.toLower

/-- The words of a program: for each instruction its name and a word for each immediate. -/
inductive Sentence (t : Table) : (words : List String) → (code : List Instruction) → Prop where
  | nil : Sentence t [] []
  | cons {name : String} {args words : List String} {d : Descriptor} {operands : List Operand}
      {code : List Instruction} (hname : t.Names name d) (hargs : Arguments d.sizes args operands)
      (h : Sentence t words code) : Sentence t (name :: args ++ words) (⟨d, operands⟩ :: code)

/-- The words are the beginning of a program. -/
def Viable (t : Table) (words : List String) : Prop :=
  ∃ more code, t.Sentence (words ++ more) code

/-- The words end inside the instruction `d`: there are words for the widths `given`, and the one
for `size` is next. -/
inductive Inside (t : Table) : (words : List String) → (d : Descriptor) → (given : List Nat) →
    (size : Nat) → Prop where
  | mk {front args : List String} {name : String} {d : Descriptor} {given missing : List Nat}
      {size : Nat} {operands : List Operand} {code : List Instruction}
      (hfront : t.Sentence front code) (hname : t.Names name d)
      (hsizes : d.sizes = given ++ size :: missing) (hargs : Arguments given args operands) :
      Inside t (front ++ name :: args) d given size

/-- Why `word` cannot come after the words `before`: where an instruction is due, no
instruction has this name; where an immediate is due, the word is refused. -/
inductive Rejects (t : Table) (before : List String) (word : String) : AsmError → Prop where
  | unknown {code : List Instruction} (hbefore : t.Sentence before code)
      (hname : ∀ d, ¬t.Names word d) : Rejects t before word (.unknownMnemonic word)
  | refused {d : Descriptor} {given : List Nat} {size : Nat} {e : AsmError}
      (hbefore : t.Inside before d given size) (hword : d.Refuses size word e) :
      Rejects t before word e

variable {t : Table} {words args before : List String} {name word : String} {d d' : Descriptor}
  {given missing sizes : List Nat} {size : Nat} {operand : Operand} {operands : List Operand}
  {code : List Instruction} {e : AsmError}

theorem arguments_zeros (sizes : List Nat) :
    ∃ operands, Arguments sizes (sizes.map fun _ => "0") operands := by
  induction sizes with
  | nil => exact ⟨[], .nil⟩
  | cons size sizes ih =>
      obtain ⟨operand, hoperand⟩ := written_zero size
      obtain ⟨operands, hoperands⟩ := ih
      exact ⟨operand :: operands, .cons hoperand hoperands⟩

theorem arguments_append {words : List String} {operands' : List Operand}
    (h : Arguments given args operands) (h' : Arguments sizes words operands') :
    Arguments (given ++ sizes) (args ++ words) (operands ++ operands') := by
  induction h with
  | nil => exact h'
  | cons hword _ ih => exact .cons hword ih

theorem Sentence.append {words' : List String} {code' : List Instruction}
    (h : t.Sentence words code) (h' : t.Sentence words' code') :
    t.Sentence (words ++ words') (code ++ code') := by
  induction h with
  | nil => exact h'
  | cons hname hargs _ ih =>
      rw [List.append_assoc]
      exact .cons hname hargs ih

theorem Sentence.viable (h : t.Sentence words code) : t.Viable words :=
  ⟨[], code, by rwa [List.append_nil]⟩

/-- An instruction that was begun can be completed. -/
theorem Inside.viable (h : t.Inside words d given size) : t.Viable words := by
  obtain @⟨front, args, name, _, _, missing, _, operands, code, hfront, hname, hsizes, hargs⟩ := h
  obtain ⟨zeros, hzeros⟩ := arguments_zeros (size :: missing)
  have hall := arguments_append hargs hzeros
  rw [← hsizes] at hall
  have hcode := hfront.append (.cons hname hall .nil)
  rw [List.append_nil, ← List.cons_append, ← List.append_assoc] at hcode
  exact ⟨_, _, hcode⟩

theorem Rejects.viable (h : t.Rejects before word e) : t.Viable before := by
  cases h with
  | unknown hbefore => exact hbefore.viable
  | refused hbefore => exact hbefore.viable

/-! ## Every text is one of three kinds -/

theorem Inside.cons (hname : t.Names name d) (hargs : Arguments d.sizes args operands)
    (h : t.Inside words d' given size) : t.Inside (name :: args ++ words) d' given size := by
  obtain ⟨hfront, hname', hsizes, hargs'⟩ := h
  rw [← List.append_assoc]
  exact .mk (.cons hname hargs hfront) hname' hsizes hargs'

theorem Rejects.cons (hname : t.Names name d) (hargs : Arguments d.sizes args operands)
    (h : t.Rejects before word e) : t.Rejects (name :: args ++ before) word e := by
  cases h with
  | unknown hbefore hnone => exact .unknown (.cons hname hargs hbefore) hnone
  | refused hbefore hword => exact .refused (.cons hname hargs hbefore) hword

/-- The words at the front are arguments for all widths, or for some of them and then there is no
further word or one that is refused. -/
theorem arguments_cases (d : Descriptor) (sizes : List Nat) (words : List String) :
    (∃ args rest operands, words = args ++ rest ∧ Arguments sizes args operands) ∨
      ∃ given size missing args rest operands, sizes = given ++ size :: missing ∧
        words = args ++ rest ∧ Arguments given args operands ∧
        ∀ word ∈ rest.head?, ∃ e, d.Refuses size word e := by
  induction sizes generalizing words with
  | nil => exact .inl ⟨[], words, [], rfl, .nil⟩
  | cons size sizes ih =>
      cases words with
      | nil => exact .inr ⟨[], size, sizes, [], [], [], rfl, rfl, .nil, by simp⟩
      | cons word words =>
          rcases d.written_or_refused size word with ⟨operand, hword⟩ | hrefused
          · rcases ih words with ⟨args, rest, operands, rfl, hargs⟩ |
              ⟨given, size', missing, args, rest, operands, rfl, rfl, hargs, hrest⟩
            · exact .inl ⟨word :: args, rest, operand :: operands, rfl, .cons hword hargs⟩
            · exact .inr ⟨size :: given, size', missing, word :: args, rest, operand :: operands,
                rfl, rfl, .cons hword hargs, hrest⟩
          · refine .inr ⟨[], size, sizes, [], word :: words, [], rfl, rfl, .nil, ?_⟩
            simpa using hrefused

theorem length_arguments (h : Arguments sizes args operands) : args.length = sizes.length := by
  induction h with
  | nil => rfl
  | cons _ _ ih => rw [List.length_cons, List.length_cons, ih]

theorem not_names_of_lookup? (h : t.lookup? word = none) (d : Descriptor) : ¬t.Names word d :=
  fun hd => lookup?_eq_none_iff.mp h d hd.mem hd.name

/-- Words are a sentence, or one of them is rejected after those before it, or they end inside an
instruction. -/
theorem sentence_cases (t : Table) (words : List String) :
    (∃ code, t.Sentence words code) ∨
      (∃ before word after e, words = before ++ word :: after ∧ t.Rejects before word e) ∨
      ∃ d given size, t.Inside words d given size := by
  induction words using parseWords.induct (t := t) with
  | case1 => exact .inl ⟨[], .nil⟩
  | case2 word words hnone =>
      exact .inr (.inl ⟨[], word, words, _, rfl, .unknown .nil (not_names_of_lookup? hnone)⟩)
  | case3 name words d hd ih =>
      obtain ⟨hmem, heq⟩ := lookup?_eq_some_iff.mp hd
      have hname : t.Names name d := ⟨hmem, heq⟩
      rcases arguments_cases d d.sizes words with ⟨args, rest, operands, rfl, hargs⟩ |
        ⟨given, size, missing, args, rest, operands, hsizes, rfl, hargs, hrest⟩
      · rw [← length_arguments hargs, List.drop_left] at ih
        rcases ih with ⟨code, hcode⟩ | ⟨before, word, after, e, rfl, hword⟩ |
          ⟨d', given, size, hinside⟩
        · exact .inl ⟨_, .cons hname hargs hcode⟩
        · refine .inr (.inl ⟨name :: args ++ before, word, after, e, ?_, hword.cons hname hargs⟩)
          rw [← List.cons_append, List.append_assoc]
        · exact .inr (.inr ⟨d', given, size, hinside.cons hname hargs⟩)
      · have hinside : t.Inside (name :: args) d given size := .mk .nil hname hsizes hargs
        cases rest with
        | nil =>
            rw [List.append_nil]
            exact .inr (.inr ⟨d, given, size, hinside⟩)
        | cons word rest =>
            obtain ⟨e, he⟩ := hrest word rfl
            exact .inr (.inl ⟨name :: args, word, rest, e, rfl, .refused hinside he⟩)

/-! ## What the parser answers for each kind -/

theorem parseImmediate_written (d : Descriptor) (hsize : size ∈ Immediate.sizes)
    (h : Written size word operand) : parseImmediate d size word = .ok operand := by
  obtain ⟨v, hspells, hv, rfl⟩ := h
  obtain ⟨hbits, hfits⟩ := Immediate.writable_iff.mp hv
  rw [parseImmediate, Text.readInteger?_eq_some_iff.mpr ⟨hspells, hbits⟩]
  dsimp only
  rw [if_pos hfits, Immediate.normalize_eq hsize]

theorem parseImmediate_refused (h : d.Refuses size word e) :
    parseImmediate d size word = .error e := by
  rw [parseImmediate]
  cases h with
  | malformed hnone =>
      have hread : Text.readInteger? word = none := by
        refine Option.eq_none_iff_forall_ne_some.mpr fun v hv => ?_
        obtain ⟨hspells, hbits⟩ := Text.readInteger?_eq_some_iff.mp hv
        exact hnone v hspells hbits
      rw [hread]
  | outOfRange hspells hbits hv =>
      have hfits : ¬Immediate.fits size _ = true := fun hfits =>
        hv (Immediate.writable_iff.mpr ⟨hbits, hfits⟩)
      rw [Text.readInteger?_eq_some_iff.mpr ⟨hspells, hbits⟩]
      dsimp only
      rw [if_neg hfits]

/-- Arguments at the front are taken, and what follows them is read for the other widths. -/
theorem parseImmediates_append (d : Descriptor) (hgiven : ∀ size ∈ given, size ∈ Immediate.sizes)
    (h : Arguments given args operands) (found : Nat) (sizes : List Nat) (rest : List String) :
    parseImmediates d found (given ++ sizes) (args ++ rest)
      = (operands ++ ·) <$> parseImmediates d (found + given.length) sizes rest := by
  induction h generalizing found with
  | nil =>
      simp only [List.nil_append, List.length_nil, Nat.add_zero]
      exact (id_map _).symm
  | @cons size word operand given args operands hword _ ih =>
      have hlength : found + (size :: given).length = found + 1 + given.length := by
        rw [List.length_cons]
        omega
      obtain ⟨hsize, hgiven⟩ := List.forall_mem_cons.mp hgiven
      rw [List.cons_append, List.cons_append, parseImmediates,
        parseImmediate_written d hsize hword, ih hgiven, hlength]
      cases parseImmediates d (found + 1 + given.length) sizes rest <;> rfl

theorem parseImmediates_arguments (d : Descriptor)
    (hsizes : ∀ size ∈ sizes, size ∈ Immediate.sizes) (h : Arguments sizes args operands)
    (rest : List String) : parseImmediates d 0 sizes (args ++ rest) = .ok operands := by
  have hall := parseImmediates_append d hsizes h 0 [] rest
  rw [List.append_nil, parseImmediates] at hall
  rw [hall]
  exact congrArg Except.ok (List.append_nil operands)

theorem parseWords_names (hname : t.Names name d) (words : List String) :
    t.parseWords (name :: words) = (parseImmediates d 0 d.sizes words >>= fun operands =>
      (⟨d, operands⟩ :: ·) <$> t.parseWords (words.drop d.sizes.length)) := by
  rw [parseWords, lookup?_eq_some_iff.mpr ⟨hname.mem, hname.name⟩]
  rfl

/-- A sentence at the front is read, and what follows it as if it stood alone. -/
theorem Sentence.parseWords_append (h : t.Sentence words code) (rest : List String) :
    t.parseWords (words ++ rest) = (code ++ ·) <$> t.parseWords rest := by
  induction h with
  | nil => exact (id_map _).symm
  | @cons name args words d operands code hname hargs _ ih =>
      rw [List.append_assoc, List.cons_append, parseWords_names hname,
        parseImmediates_arguments d (t.sizes_supported d hname.mem) hargs,
        ← length_arguments hargs, List.drop_left, ih]
      cases t.parseWords rest <;> rfl

theorem Sentence.parseWords_eq (h : t.Sentence words code) : t.parseWords words = .ok code := by
  have hwords := h.parseWords_append []
  rw [List.append_nil, parseWords] at hwords
  rw [hwords]
  exact congrArg Except.ok (List.append_nil code)

/-- Inside an instruction the next word decides. -/
theorem Inside.parseWords_error (h : t.Inside before d given size) {rest : List String}
    (herror : ∀ missing, d.sizes = given ++ size :: missing →
      parseImmediates d given.length (size :: missing) rest = .error e) :
    t.parseWords (before ++ rest) = .error e := by
  obtain @⟨front, args, name, _, _, missing, _, operands, code, hfront, hname, hsizes, hargs⟩ := h
  have hgiven : ∀ size ∈ given, size ∈ Immediate.sizes := fun size hsize =>
    t.sizes_supported d hname.mem size (hsizes ▸ List.mem_append_left _ hsize)
  have hall := parseImmediates_append d hgiven hargs 0 (size :: missing) rest
  rw [← hsizes, Nat.zero_add, herror missing hsizes] at hall
  rw [List.append_assoc, hfront.parseWords_append, List.cons_append, parseWords_names hname, hall]
  rfl

theorem Inside.parseWords_eq (h : t.Inside words d given size) :
    t.parseWords words = .error (.missingImmediate d.name d.sizes.length given.length) := by
  rw [← List.append_nil words]
  refine h.parseWords_error fun missing _ => ?_
  rw [parseImmediates]

theorem Rejects.parseWords_eq (h : t.Rejects before word e) (after : List String) :
    t.parseWords (before ++ word :: after) = .error e := by
  cases h with
  | unknown hbefore hnone =>
      have hlookup : t.lookup? word = none :=
        lookup?_eq_none_iff.mpr fun d hd hname => hnone d ⟨hd, hname⟩
      rw [hbefore.parseWords_append, parseWords, hlookup]
      rfl
  | refused hbefore hword =>
      refine hbefore.parseWords_error fun missing _ => ?_
      rw [parseImmediates, parseImmediate_refused hword]
      rfl

theorem parseWords_eq_ok_iff : t.parseWords words = .ok code ↔ t.Sentence words code := by
  refine ⟨fun h => ?_, Sentence.parseWords_eq⟩
  rcases t.sentence_cases words with ⟨code', hcode⟩ | ⟨before, word, after, e, rfl, hword⟩ |
    ⟨d, given, size, hinside⟩
  · obtain rfl := Except.ok.inj (hcode.parseWords_eq.symm.trans h)
    exact hcode
  · cases (hword.parseWords_eq after).symm.trans h
  · cases hinside.parseWords_eq.symm.trans h

/-- After a word that is rejected nothing makes a sentence. -/
theorem Rejects.not_viable (h : t.Rejects before word e) : ¬t.Viable (before ++ [word]) := by
  rintro ⟨more, code, hcode⟩
  rw [← List.append_cons] at hcode
  cases (h.parseWords_eq more).symm.trans hcode.parseWords_eq

/-! ## Case and spacing -/

theorem spells_argument (h : Arguments sizes args operands) :
    ∀ word ∈ args, ∃ v, Text.Spells word.toList v := by
  induction h with
  | nil => exact List.forall_mem_nil _
  | cons hwritten _ ih =>
      obtain ⟨v, hspells, -⟩ := hwritten
      exact List.forall_mem_cons.mpr ⟨⟨v, hspells⟩, ih⟩

theorem respelled_arguments {args' : List String} (h : Arguments sizes args operands)
    (hcase : args'.map String.toLower = args.map String.toLower) : args' = args := by
  refine Text.eq_of_map_eq (fun word hword word' heq => ?_) hcase
  obtain ⟨v, hspells⟩ := spells_argument h word hword
  exact hspells.eq_of_toLower_eq heq

/-- Names may be written in another case. -/
theorem Sentence.respelled {words' : List String} (h : t.Sentence words code)
    (hcase : words'.map String.toLower = words.map String.toLower) : t.Sentence words' code := by
  induction h generalizing words' with
  | nil =>
      obtain rfl := List.map_eq_nil_iff.mp hcase
      exact .nil
  | cons hname hargs _ ih =>
      rw [List.cons_append, List.map_cons, List.map_append] at hcase
      obtain ⟨name', rest, rfl, hname', hrest⟩ := List.map_eq_cons_iff.mp hcase
      obtain ⟨args', words', rfl, hargs', hwords'⟩ := List.map_eq_append_iff.mp hrest
      obtain rfl := respelled_arguments hargs hargs'
      exact .cons ⟨hname.mem, hname.name.trans hname'.symm⟩ hargs (ih hwords')

/-- The words of a text are its maximal runs of characters that are not blank. It is parsed
exactly when they are a sentence, to the instructions that are written, and these do not
depend on spacing or on the case of letters. Otherwise what is reported is about the first word
after which the text cannot be completed, or the text ends inside an instruction and the
words that it has for immediates are counted. -/
theorem parse_exact (t : Table) (text : String) :
    (∀ words, Text.words text = words ↔ Text.Spaced text.toList (words.map String.toList)) ∧
    (∀ code, t.parse text = .ok code ↔ t.Sentence (Text.words text) code) ∧
    (∀ code text', t.parse text = .ok code →
      (Text.words text').map String.toLower = (Text.words text).map String.toLower →
      t.parse text' = .ok code) ∧
    (∀ e, t.parse text = .error e ↔
      (∃ before word after, Text.words text = before ++ word :: after ∧ t.Viable before ∧
        ¬t.Viable (before ++ [word]) ∧ t.Rejects before word e) ∨
      ∃ d given size, t.Inside (Text.words text) d given size ∧ t.Viable (Text.words text) ∧
        e = .missingImmediate d.name d.sizes.length given.length) := by
  refine ⟨fun _ => Text.words_eq_iff, fun _ => parseWords_eq_ok_iff, ?_, fun e => ⟨fun h => ?_, ?_⟩⟩
  · intro code text' h hcase
    exact ((parseWords_eq_ok_iff.mp h).respelled hcase).parseWords_eq
  · rcases t.sentence_cases (Text.words text) with ⟨code, hcode⟩ |
      ⟨before, word, after, e', hwords, hword⟩ | ⟨d, given, size, hinside⟩
    · cases hcode.parseWords_eq.symm.trans h
    · have heq := hword.parseWords_eq after
      rw [← hwords] at heq
      obtain rfl := Except.error.inj (heq.symm.trans h)
      exact .inl ⟨before, word, after, hwords, hword.viable, hword.not_viable, hword⟩
    · exact .inr ⟨d, given, size, hinside, hinside.viable,
        Except.error.inj (h.symm.trans hinside.parseWords_eq)⟩
  · rintro (⟨before, word, after, hwords, -, -, hword⟩ | ⟨d, given, size, hinside, -, rfl⟩)
    · rw [parse, hwords]
      exact hword.parseWords_eq after
    · exact hinside.parseWords_eq

/-- `mixedText` in another case and with other blanks. -/
def respelledText : String :=
  "MIX 255\t+65535 4294967295 -1\n\n NoP mix -1 -32768 +2147483648 +7 "

theorem parse_exact_respelled : widths.parse respelledText = .ok mixedCode := by
  have hcase : (Text.words respelledText).map Text.foldCase
      = (Text.words mixedText).map Text.foldCase := by decide +kernel
  have hlower := congrArg (List.map String.ofList) hcase
  simp only [List.map_map, Function.comp_def, Text.ofList_foldCase] at hlower
  exact (parse_exact widths mixedText).2.2.1 mixedCode respelledText (by decide +kernel) hlower

-- an integer that does not fit in 64 bits is malformed, whatever the width of its immediate
example : widths.parse "mix 255 99999999999999999999 1" =
    .error (.malformedImmediate "Mix" "99999999999999999999") := by decide +kernel

end Table

end DualMachine
