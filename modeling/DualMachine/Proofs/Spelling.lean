import DualMachine.Proofs.Grammar

/-!
# Programs as they are written

A program is written in two places: a listing shows the instructions of a byte string, one line
for each with its offset, and a sequence of builder calls can be spelled out call by call. Both
texts are sentences, and what they are written for is what the assembler reads.

What the width of an immediate keeps of a value is written as decimal text and taken back
(`Operand.written_toString`), so the words of instructions with values are a sentence for them
(`Table.sentence_flatMap`, `Table.Concrete.sentence`). For a listing it remains to undo the layout:
lines are cut at line feeds and the offset before the first colon is removed
(`Table.unlisted_listing`). A builder appends the bytes of one call after the other, so it holds
those of the instructions (`Builder.holds_foldl`).
-/

namespace DualMachine

/-! ## Values -/

namespace Immediate

/-- What a width keeps unchanged can be written for it. -/
theorem writable_of_normalize {size : Nat} {v : Int} (hsize : size ∈ sizes)
    (h : normalize size v = v) : Writable size v := by
  rw [normalize_eq hsize] at h
  have hlow := Int.le_bmod (x := v) (m := 2 ^ (8 * size)) (Nat.two_pow_pos _)
  have hhigh := Int.bmod_lt (x := v) (m := 2 ^ (8 * size)) (Nat.two_pow_pos _)
  rw [h] at hlow hhigh
  rw [Writable]
  rcases mem_sizes.mp hsize with rfl | rfl | rfl | rfl <;> norm_num at hlow hhigh ⊢ <;> omega

end Immediate

namespace Operand

theorem written_toString {size : Nat} {v : Int} (hsize : size ∈ Immediate.sizes)
    (h : Immediate.Writable size v) :
    Written size (toString v) (.value (Immediate.normalize size v)) :=
  ⟨v, Text.spells_toString v, h, by rw [Immediate.normalize_eq hsize]⟩

theorem arguments_ofValues {sizes : List Nat} {values : List Int}
    (hsizes : ∀ size ∈ sizes, size ∈ Immediate.sizes)
    (h : List.Forall₂ Immediate.Writable sizes values) :
    Arguments sizes (values.map toString)
      (sizes.zipWith (fun size v => .value (Immediate.normalize size v)) values) := by
  induction h with
  | nil => exact .nil
  | cons hv _ ih =>
      obtain ⟨hsize, hsizes⟩ := List.forall_mem_cons.mp hsizes
      exact .cons (written_toString hsize hv) (ih hsizes)

theorem arguments_of_suits {sizes : List Nat} {operands : List Operand}
    (hsizes : ∀ size ∈ sizes, size ∈ Immediate.sizes) (h : List.Forall₂ Suits sizes operands)
    (hnames : operands.filterMap symbol? = []) :
    Arguments sizes (operands.map text) operands := by
  induction h with
  | nil => exact .nil
  | @cons size operand sizes operands hoperand _ ih =>
      obtain ⟨hsize, hsizes⟩ := List.forall_mem_cons.mp hsizes
      cases operand with
      | symbol name => cases hnames
      | value v =>
          have hkept : Immediate.normalize size v = v := hoperand
          have hwritten := written_toString hsize (Immediate.writable_of_normalize hsize hkept)
          rw [hkept] at hwritten
          exact .cons hwritten (ih hsizes hnames)

end Operand

/-! ## Instructions -/

/-- The words that an instruction is listed with. -/
def Instruction.words (i : Instruction) : List String :=
  i.descriptor.name :: i.operands.map Operand.text

theorem Instruction.text_eq (i : Instruction) : i.text = " ".intercalate i.words := by
  have hjoin : ∀ (name : String) (operands : List Operand),
      String.join (name :: operands.map fun o => " " ++ o.text)
        = " ".intercalate (name :: operands.map Operand.text) := by
    intro name operands
    induction operands generalizing name with
    | nil => rw [List.map_nil, List.map_nil, String.intercalate_singleton, String.join_cons,
        String.join_nil, String.append_empty]
    | cons operand operands ih =>
        rw [List.map_cons, List.map_cons, String.intercalate_cons_cons, ← ih, String.join_cons,
          String.join_cons, String.join_cons, String.append_assoc, String.append_assoc]
  exact hjoin i.descriptor.name i.operands

namespace Table

open Operand

/-- No name of the table is empty or has a blank in it. -/
def Plain (t : Table) : Prop := ∀ d ∈ t.descriptors, Text.IsWord d.name.toList

instance (t : Table) : Decidable t.Plain :=
  inferInstanceAs (Decidable (∀ d ∈ t.descriptors, Text.IsWord d.name.toList))

theorem plain_table (kind : Kind) : kind.table.Plain := by
  cases kind <;> decide +kernel

variable {t : Table} {code : List Instruction} {bytes : Bytes}

/-- Instructions one after the other, each with its name and words for its operands. -/
theorem sentence_flatMap {α : Type} (instruction : α → Instruction) (args : α → List String)
    {xs : List α} (h : ∀ x ∈ xs, (instruction x).descriptor ∈ t.descriptors ∧
      Arguments (instruction x).descriptor.sizes (args x) (instruction x).operands) :
    t.Sentence (xs.flatMap fun x => (instruction x).descriptor.name :: args x)
      (xs.map instruction) := by
  induction xs with
  | nil => exact .nil
  | cons x xs ih =>
      obtain ⟨⟨hd, hargs⟩, hxs⟩ := List.forall_mem_cons.mp h
      exact .cons ⟨hd, rfl⟩ hargs (ih hxs)

theorem assemble_of_sentence {text : String} (h : t.Sentence (Text.words text) code)
    (hbytes : Instruction.encodeAll code = .ok bytes) : t.assemble text = .ok bytes := by
  rw [assemble, parse, h.parseWords_eq]
  exact hbytes

theorem isWord_instruction (ht : t.Plain) {d : Descriptor} (hd : d ∈ t.descriptors)
    {args : List String} {operands : List Operand} (hargs : Arguments d.sizes args operands) :
    ∀ word ∈ d.name :: args, Text.IsWord word.toList := by
  refine List.forall_mem_cons.mpr ⟨ht d hd, fun word hword => ?_⟩
  obtain ⟨v, hspells⟩ := spells_argument hargs word hword
  exact hspells.isWord

namespace Concrete

theorem arguments (h : t.Concrete code) {i : Instruction} (hi : i ∈ code) :
    i.descriptor ∈ t.descriptors ∧
      Arguments i.descriptor.sizes (i.operands.map text) i.operands := by
  obtain ⟨hadmits, hnames⟩ := h i hi
  exact ⟨hadmits.mem, arguments_of_suits (t.sizes_supported _ hadmits.mem) hadmits.operands hnames⟩

/-- Instructions without names are written by the words they are listed with. -/
theorem sentence (h : t.Concrete code) : t.Sentence (code.flatMap Instruction.words) code := by
  have hcode := sentence_flatMap id (fun i => i.operands.map text) fun i hi => h.arguments hi
  rwa [List.map_id] at hcode

theorem words_text (h : t.Concrete code) (ht : t.Plain) {i : Instruction} (hi : i ∈ code) :
    Text.words i.text = i.words := by
  obtain ⟨hd, hargs⟩ := h.arguments hi
  rw [i.text_eq]
  exact Text.words_intercalate_words (isWord_instruction ht hd hargs)

end Concrete

end Table

/-! ## Reading a listing back -/

namespace Text

/-- A line without the carriage return that ends it. -/
def dropReturn (line : List Char) : List Char :=
  if line.getLast? = some '\r' then line.dropLast else line

/-- The lines of `chars`, the first of which already has the characters `line`. A line ends at a
line feed or at the end of the text, and a carriage return before the line feed is dropped. -/
def linesFrom : (line chars : List Char) → List (List Char)
  | [], [] => []
  | line, [] => [line]
  | line, c :: cs =>
    if c = '\n' then dropReturn line :: linesFrom [] cs else linesFrom (line ++ [c]) cs

/-- The lines of a text. -/
def lines (text : String) : List String := (linesFrom [] text.toList).map String.ofList

/-- What stands after the first colon that a space follows. -/
def afterColon? : List Char → Option (List Char)
  | [] => none
  | c :: cs => if c = ':' ∧ cs.head? = some ' ' then some cs.tail else afterColon? cs

/-- A line without all up to its first colon and space, if it has them. -/
def withoutOffset (line : String) : String :=
  (afterColon? line.toList).elim line String.ofList

/-- A listing without its offsets, the lines one after the other. -/
def unlisted (listing : String) : String := " ".intercalate ((lines listing).map withoutOffset)

example : unlisted "9999: push -4\n10004: dup\n" = "push -4 dup" := by decide +kernel

theorem linesFrom_line {front line : List Char} (hline : ∀ c ∈ line, c ≠ '\n') (rest : List Char) :
    linesFrom front (line ++ '\n' :: rest) = dropReturn (front ++ line) :: linesFrom [] rest := by
  induction line generalizing front with
  | nil => rw [List.nil_append, List.append_nil, linesFrom, if_pos rfl]
  | cons c line ih =>
      obtain ⟨hc, hline⟩ := List.forall_mem_cons.mp hline
      rw [List.cons_append, linesFrom, if_neg hc, ih hline, ← List.append_cons]

/-- Lines that were written are read back. -/
theorem lines_join {texts : List String}
    (h : ∀ text ∈ texts, ∀ c ∈ text.toList, c ≠ '\n' ∧ c ≠ '\r') :
    lines (String.join (texts.map (· ++ "\n"))) = texts := by
  have hchars : linesFrom [] (String.join (texts.map (· ++ "\n"))).toList
      = texts.map String.toList := by
    induction texts with
    | nil => rw [List.map_nil, String.join_nil, String.toList_empty, linesFrom, List.map_nil]
    | cons text texts ih =>
        obtain ⟨htext, htexts⟩ := List.forall_mem_cons.mp h
        have hreturn : dropReturn text.toList = text.toList :=
          if_neg fun hlast => (htext _ (List.mem_of_getLast? hlast)).2 rfl
        rw [List.map_cons, String.join_cons, String.append_assoc, String.toList_append,
          String.toList_append]
        show linesFrom [] (text.toList ++ '\n' :: (String.join _).toList) = _
        rw [linesFrom_line (fun c hc => (htext c hc).1), List.nil_append, hreturn, ih htexts,
          List.map_cons]
  rw [lines, hchars]
  simp

theorem afterColon?_append {front : List Char} (hfront : ':' ∉ front) (rest : List Char) :
    afterColon? (front ++ ':' :: ' ' :: rest) = some rest := by
  induction front with
  | nil => simp [afterColon?]
  | cons c front ih =>
      rw [List.mem_cons, not_or] at hfront
      rw [List.cons_append, afterColon?, if_neg fun h => hfront.1 h.1.symm, ih hfront.2]

theorem isDigit_of_mem_padded {width n : Nat} {c : Char} (hc : c ∈ (padded width n).toList) :
    c.isDigit = true := by
  rw [padded, String.toList_ofList, List.mem_append] at hc
  rcases hc with hzero | hdigit
  · rw [List.eq_of_mem_replicate hzero]
    rfl
  · exact (isNumeral_toDigits n).2 c hdigit

/-- Neither a character that is not blank nor a space ends a line. -/
theorem unbroken_of_isBlank {c : Char} (hc : isBlank c = false ∨ c = ' ') : c ≠ '\n' ∧ c ≠ '\r' := by
  rcases hc with hc | rfl
  · constructor <;>
    · rintro rfl
      exact absurd hc (by decide)
  · decide

end Text

namespace Table

variable {t : Table} {code : List Instruction} {bytes : Bytes}

/-- A line of a listing, without the line feed. -/
def listingText (entry : Nat × Instruction) : String :=
  Text.padded 4 entry.1 ++ ": " ++ entry.2.text

theorem toList_listingText (entry : Nat × Instruction) : (listingText entry).toList
    = (Text.padded 4 entry.1).toList ++ ':' :: ' ' :: entry.2.text.toList := by
  rw [listingText, String.toList_append, String.toList_append, List.append_assoc]
  rfl

theorem withoutOffset_listingText (entry : Nat × Instruction) :
    Text.withoutOffset (listingText entry) = entry.2.text := by
  have hoffset : ':' ∉ (Text.padded 4 entry.1).toList := fun hc =>
    absurd (Text.isDigit_of_mem_padded hc) (by decide)
  rw [Text.withoutOffset, toList_listingText, Text.afterColon?_append hoffset, Option.elim_some,
    String.ofList_toList]

theorem Concrete.unbroken (h : t.Concrete code) (ht : t.Plain) {i : Instruction} (hi : i ∈ code) :
    ∀ c ∈ i.text.toList, Text.isBlank c = false ∨ c = ' ' := by
  obtain ⟨hd, hargs⟩ := h.arguments hi
  have hwords := isWord_instruction ht hd hargs
  intro c hc
  rw [Instruction.text, String.toList_join, List.mem_flatMap] at hc
  obtain ⟨part, hpart, hc⟩ := hc
  rcases List.mem_cons.mp hpart with rfl | hpart
  · exact .inl ((hwords _ List.mem_cons_self).2 c hc)
  · obtain ⟨operand, hoperand, rfl⟩ := List.mem_map.mp hpart
    rw [String.toList_append, List.mem_append] at hc
    rcases hc with hc | hc
    · exact .inr (List.mem_singleton.mp hc)
    · exact .inl ((hwords _ (List.mem_cons_of_mem _ (List.mem_map_of_mem hoperand))).2 c hc)

/-- The layout of a listing is undone. -/
theorem unlisted_listing {entries : List (Nat × Instruction)} (ht : t.Plain)
    (h : t.Concrete (entries.map Prod.snd)) :
    Text.unlisted (String.join (entries.map fun entry => listingLine entry.1 entry.2))
      = " ".intercalate (entries.map fun entry => entry.2.text) := by
  have hlines : (entries.map fun entry => listingLine entry.1 entry.2)
      = (entries.map listingText).map (· ++ "\n") := by
    simp only [List.map_map, Function.comp_def, listingText, listingLine]
  have hunbroken : ∀ text ∈ entries.map listingText, ∀ c ∈ text.toList, c ≠ '\n' ∧ c ≠ '\r' := by
    intro text htext c hc
    obtain ⟨entry, hentry, rfl⟩ := List.mem_map.mp htext
    apply Text.unbroken_of_isBlank
    rw [toList_listingText, List.mem_append, List.mem_cons, List.mem_cons] at hc
    rcases hc with hdigit | rfl | rfl | htext
    · have hrange : 48 ≤ c.toNat ∧ c.toNat ≤ 57 :=
        Char.isDigit_iff_toNat.mp (Text.isDigit_of_mem_padded hdigit)
      exact .inl (Text.isBlank_eq_false (by omega) (by omega))
    · exact .inl (by decide)
    · exact .inr rfl
    · exact h.unbroken ht (List.mem_map_of_mem hentry) c htext
  have htexts : (entries.map listingText).map Text.withoutOffset
      = entries.map fun entry => entry.2.text := by
    simp only [List.map_map, Function.comp_def, withoutOffset_listingText]
  rw [Text.unlisted, hlines, Text.lines_join hunbroken, htexts]

/-! ## What a disassembler reads -/

theorem decodeImmediates_suits (sizes : List Nat) (bytes : Bytes) :
    List.Forall₂ Operand.Suits sizes (decodeImmediates sizes bytes) ∧
      (decodeImmediates sizes bytes).filterMap Operand.symbol? = [] := by
  induction sizes generalizing bytes with
  | nil => exact ⟨.nil, rfl⟩
  | cons size sizes ih =>
      obtain ⟨hsuits, hnames⟩ := ih (bytes.drop size)
      exact ⟨.cons (Immediate.normalize_decode size bytes) hsuits, hnames⟩

/-- A disassembler lists instructions of its table, without names. -/
theorem decodeFrom_concrete (t : Table) (offset : Nat) (bytes : Bytes) :
    ∀ entries, t.decodeFrom offset bytes = .ok entries → t.Concrete (entries.map Prod.snd) := by
  induction offset, bytes using decodeFrom.induct (t := t) with
  | case1 offset =>
      intro entries h
      rw [decodeFrom] at h
      obtain rfl := Except.ok.inj h
      exact List.forall_mem_nil _
  | case2 offset opcode rest hnone =>
      intro entries h
      rw [decodeFrom_unknown hnone] at h
      cases h
  | case3 offset opcode rest d hd immediates hshort =>
      intro entries h
      have hlt : rest.length < d.immediateLength := by
        rw [List.length_take] at hshort
        omega
      rw [decodeFrom_truncated hd hlt] at h
      cases h
  | case4 offset opcode rest d hd immediates hlong ih =>
      intro entries h
      have hlength : immediates.length = d.immediateLength := by
        rw [List.length_take] at hlong ⊢
        omega
      have hrest : rest = immediates ++ rest.drop d.immediateLength :=
        (List.take_append_drop d.immediateLength rest).symm
      rw [hrest, decodeFrom_instruction hd hlength] at h
      cases hfollowing : t.decodeFrom (offset + d.length) (rest.drop d.immediateLength) with
      | error e =>
          rw [hfollowing] at h
          cases h
      | ok following =>
          rw [hfollowing] at h
          obtain rfl := Except.ok.inj h
          obtain ⟨hsuits, hnames⟩ := decodeImmediates_suits d.sizes immediates
          exact List.forall_mem_cons.mpr
            ⟨⟨⟨get?_mem hd, hsuits⟩, hnames⟩, ih following hfollowing⟩

/-- What is disassembled is listed, and encoded again it gives the bytes back. -/
theorem entries_of_disassemble (h : t.disassemble bytes = .ok code) :
    ∃ entries, t.disassembleWithOffsets bytes = .ok entries ∧ entries.map Prod.snd = code ∧
      t.Concrete code ∧ Instruction.encodeAll code = .ok bytes := by
  obtain ⟨entries, hentries, hcode⟩ := bind_eq_ok_iff.mp h
  obtain rfl := Except.ok.inj hcode
  obtain ⟨listing, p, rest, rfl, -, -, hencode, hstops⟩ := t.decodeFrom_cases 0 bytes
  refine ⟨entries, hentries, rfl, decodeFrom_concrete t 0 _ entries hentries, ?_⟩
  rw [disassembleWithOffsets] at hentries
  rw [hentries] at hstops
  cases hstops
  rwa [List.append_nil]

/-- A listing of a byte string, with each line cut after its first colon and space and the lines
put one after the other, is assembled to these bytes, if no name of the table is empty or has
a blank in it. Both machines have such tables. -/
theorem listing_reassembles :
    (∀ kind : Kind, kind.table.Plain) ∧
    ∀ (t : Table) (bytes : Bytes) (code : List Instruction), t.Plain →
      t.disassemble bytes = .ok code →
      ∃ text, t.listing bytes = .ok text ∧ t.assemble (Text.unlisted text) = .ok bytes := by
  refine ⟨plain_table, fun t bytes code ht h => ?_⟩
  obtain ⟨entries, hentries, rfl, hconcrete, hbytes⟩ := entries_of_disassemble h
  refine ⟨String.join (entries.map fun entry => listingLine entry.1 entry.2), ?_, ?_⟩
  · rw [listing, hentries]
    rfl
  · have hwords : Text.words (" ".intercalate (entries.map fun entry => entry.2.text))
        = (entries.map Prod.snd).flatMap Instruction.words := by
      rw [Text.words_intercalate, List.flatMap_map, List.flatMap_map]
      exact List.flatMap_congr fun entry hentry =>
        hconcrete.words_text ht (List.mem_map_of_mem hentry)
    rw [unlisted_listing ht hconcrete]
    exact assemble_of_sentence (hwords ▸ hconcrete.sentence) hbytes

/-- The least value of every width, and an instruction without immediates. -/
def leastBytes : Bytes := [3, 128, 0, 128, 0, 0, 0, 128, 0, 0, 0, 0, 0, 0, 0, 128, 200]

theorem listing_reassembles_least :
    ∃ text, widths.listing leastBytes = .ok text ∧
      widths.assemble (Text.unlisted text) = .ok leastBytes :=
  listing_reassembles.2 widths leastBytes
    [⟨⟨"Mix", 3, [1, 2, 4, 8], .stack .halt⟩,
      [.value (-128), .value (-32768), .value (-2147483648), .value (-9223372036854775808)]⟩,
     ⟨⟨"NOP", 200, [], .stack .halt⟩, []⟩]
    (by decide +kernel) (by decide +kernel)

end Table

/-! ## Builders -/

/-- A builder call: an instruction of a table and the integers that are given for its
immediates. -/
structure Call where
  descriptor : Descriptor
  values : List Int
  deriving DecidableEq, Repr

namespace Call

/-- The name of the instruction, then the integers in decimal. -/
def words (c : Call) : List String := c.descriptor.name :: c.values.map toString

/-- The instruction that is called for. -/
def instruction (c : Call) : Instruction := .ofValues c.descriptor c.values

/-- The opcode, then the bytes of the integers, each in the width of its immediate. -/
def bytes (c : Call) : Bytes :=
  c.descriptor.opcode :: (c.descriptor.sizes.zipWith Immediate.encode c.values).flatten

/-- A call of an instruction of the table, with an integer for each immediate that can be written
there. -/
structure Proper (t : Table) (c : Call) : Prop where
  mem : c.descriptor ∈ t.descriptors
  values : List.Forall₂ Immediate.Writable c.descriptor.sizes c.values

theorem encodeAll_instructions (calls : List Call) :
    Instruction.encodeAll (calls.map instruction) = .ok (calls.flatMap bytes) := by
  induction calls with
  | nil => rfl
  | cons c calls ih =>
      rw [List.map_cons, Instruction.encodeAll, instruction, Instruction.encode_ofValues, ih]
      rfl

end Call

/-- The builder holds the program of these calls: the bytes that are assembled from the calls
written out, the encoding of their instructions, which is disassembled to them, and as long as
all of them together. -/
structure Builder.Holds (b : Builder) (t : Table) (calls : List Call) : Prop where
  assemble : t.assemble (" ".intercalate (calls.flatMap Call.words)) = .ok b.bytes
  encode : Instruction.encodeAll (calls.map Call.instruction) = .ok b.bytes
  disassemble : t.disassemble b.bytes = .ok (calls.map Call.instruction)
  length_eq : b.length = (calls.map fun c => c.descriptor.length).sum

namespace Builder

theorem holds_of_bytes {t : Table} {calls : List Call} (ht : t.Plain)
    (hcalls : ∀ c ∈ calls, c.Proper t) {b : Builder} (hb : b.bytes = calls.flatMap Call.bytes) :
    b.Holds t calls := by
  have hargs : ∀ c ∈ calls, Operand.Arguments c.descriptor.sizes (c.values.map toString)
      c.instruction.operands := fun c hc =>
    Operand.arguments_ofValues (t.sizes_supported _ (hcalls c hc).mem) (hcalls c hc).values
  have hwords : Text.words (" ".intercalate (calls.flatMap Call.words))
      = calls.flatMap Call.words := by
    refine Text.words_intercalate_words fun word hword => ?_
    obtain ⟨c, hc, hword⟩ := List.mem_flatMap.mp hword
    exact Table.isWord_instruction ht (hcalls c hc).mem (hargs c hc) word hword
  have hsentence : t.Sentence (calls.flatMap Call.words) (calls.map Call.instruction) :=
    Table.sentence_flatMap Call.instruction (fun c => c.values.map toString)
      fun c hc => ⟨(hcalls c hc).mem, hargs c hc⟩
  have hencode : Instruction.encodeAll (calls.map Call.instruction) = .ok b.bytes := by
    rw [hb]
    exact Call.encodeAll_instructions calls
  obtain ⟨hlength, hdisassemble⟩ :=
    (Table.parseWords_concrete hsentence.parseWords_eq).disassemble hencode
  refine ⟨Table.assemble_of_sentence ?_ hencode, hencode, hdisassemble, ?_⟩
  · rwa [hwords]
  · rw [Builder.length, hlength, Instruction.totalLength, List.map_map]
    rfl

variable {ι : Type} {add : Builder → ι → Builder} {toCall : ι → Call}

theorem bytes_foldl (hadd : ∀ b i, (add b i).bytes = b.bytes ++ (toCall i).bytes) (is : List ι)
    (b : Builder) : (is.foldl add b).bytes = b.bytes ++ (is.map toCall).flatMap Call.bytes := by
  induction is generalizing b with
  | nil => rw [List.foldl_nil, List.map_nil, List.flatMap_nil, List.append_nil]
  | cons i is ih =>
      rw [List.foldl_cons, ih, hadd, List.map_cons, List.flatMap_cons, List.append_assoc]

/-- A builder that appends the bytes of proper calls holds their program. -/
theorem holds_foldl {t : Table} (ht : t.Plain) (hproper : ∀ i, (toCall i).Proper t)
    (hadd : ∀ b i, (add b i).bytes = b.bytes ++ (toCall i).bytes) (is : List ι) :
    (is.foldl add {}).Holds t (is.map toCall) := by
  refine holds_of_bytes ht ?_ (bytes_foldl hadd is {})
  intro c hc
  obtain ⟨i, -, rfl⟩ := List.mem_map.mp hc
  exact hproper i

end Builder

namespace Immediate

theorem writable_register (r : UInt8) : Writable 1 r.toNat := by
  have hr := r.toNat_lt
  rw [Writable, if_pos (by decide)]
  omega

theorem writable_word (w : Word) : Writable 4 w.toInt := by
  have hlow := w.le_toInt
  have hhigh := w.toInt_lt
  rw [Writable, if_pos (by decide)]
  omega

end Immediate

namespace Register.Instr

/-- The builder call for an instruction. -/
def toCall (i : Instr) : Call := ⟨i.op.descriptor, i.values⟩

theorem proper_toCall (i : Instr) : i.toCall.Proper table where
  mem := Table.get?_mem (get_opcode i.op)
  values := by
    cases i <;>
      simp only [toCall, Op.descriptor, op, Op.sizes, values, List.forall₂_cons,
        List.Forall₂.nil, Immediate.writable_register, Immediate.writable_word, and_self]

end Register.Instr

namespace Stack.Instr

/-- The builder call for an instruction. -/
def toCall (i : Instr) : Call := ⟨i.op.descriptor, i.values⟩

theorem proper_toCall (i : Instr) : i.toCall.Proper table where
  mem := Table.get?_mem (get_opcode i.op)
  values := by
    cases i <;>
      simp only [toCall, Op.descriptor, op, Op.sizes, values, List.forall₂_cons,
        List.Forall₂.nil, Immediate.writable_word, and_self]

end Stack.Instr

/-- On either machine, after any calls, a builder holds their program. -/
theorem builders_agree :
    (∀ calls : List Register.Instr,
      (calls.foldl Builder.register {}).Holds Register.table (calls.map Register.Instr.toCall)) ∧
    (∀ calls : List Stack.Instr,
      (calls.foldl Builder.stack {}).Holds Stack.table (calls.map Stack.Instr.toCall)) :=
  ⟨Builder.holds_foldl (Table.plain_table .register) Register.Instr.proper_toCall
      fun b i => congrArg (b.bytes ++ ·) i.bytes_eq,
   Builder.holds_foldl (Table.plain_table .stack) Stack.Instr.proper_toCall
      fun b i => congrArg (b.bytes ++ ·) i.bytes_eq⟩

end DualMachine
