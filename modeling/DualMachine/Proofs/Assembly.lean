import DualMachine.Assembly.Parser
import DualMachine.Proofs.Decoding
import DualMachine.Proofs.Emission

/-!
# Programs as instructions, bytes and text

`Table.Admits t i` says that `i` is an instruction of the table with an operand for each of
its immediates, and that no operand loses anything in the width it is written in. If such
instructions are without names (`Table.Concrete`), they are written as bytes of the length that
was laid out for them, and a disassembler reads the very same instructions back
(`Table.Concrete.disassemble`).

The assembler makes no others: it looks a mnemonic up among the table's own entries and
cuts every value down to its width before it is written, however the value was spelled
(`Table.parseWords_concrete`). So a text that is accepted survives the way through the bytes
(`Table.text_round_trip`).
-/

namespace DualMachine

/-! ## Immediates -/

namespace Immediate

/-- What is written is read back as the value that its width keeps. -/
theorem decode_encode {size : Nat} (h : size ∈ sizes) (v : Int) (rest : Bytes) :
    decode size (encode size v ++ rest) = normalize size v := by
  have hpos : (0 : Int) < range size := by
    have : 0 < 256 ^ size := Nat.pow_pos (by decide)
    exact_mod_cast this
  have hlt : (v % range size).toNat < 256 ^ size := by
    have := Int.emod_lt_of_pos v hpos
    have hnonneg := Int.emod_nonneg v (Int.ne_of_gt hpos)
    zify
    rwa [Int.toNat_of_nonneg hnonneg]
  have hnumber : (ofLittleEndian (encode size v) : Int) = v % range size := by
    rw [encode_eq h, ofLittleEndian_littleEndian, Nat.mod_eq_of_lt hlt,
      Int.toNat_of_nonneg (Int.emod_nonneg v (Int.ne_of_gt hpos))]
  rw [decode_eq h, List.take_left' (length_encode (le_of_mem_sizes h) v), hnumber,
    normalize_eq_bmod h, normalize_eq_bmod h]
  exact Int.emod_bmod v (range size)

theorem normalize_normalize (size : Nat) (v : Int) :
    normalize size (normalize size v) = normalize size v := by
  unfold normalize
  split <;> simp only [Int8.ofInt_toInt, Int16.ofInt_toInt, Int32.ofInt_toInt, Int64.ofInt_toInt]

theorem normalize_decode (size : Nat) (bytes : Bytes) :
    normalize size (decode size bytes) = decode size bytes := by
  unfold normalize decode
  split <;> simp only [Int8.ofInt_toInt, Int16.ofInt_toInt, Int32.ofInt_toInt, Int64.ofInt_toInt]

end Immediate

/-! ## Instructions of a table -/

/-- An operand for an immediate of `size` bytes: a value that they keep, or a name, whose
address takes a word. -/
def Operand.Suits (size : Nat) : Operand → Prop
  | .value v => Immediate.normalize size v = v
  | .symbol _ => size = 4

/-- An instruction of the table with an operand for each of its immediates. -/
structure Table.Admits (t : Table) (i : Instruction) : Prop where
  mem : i.descriptor ∈ t.descriptors
  operands : List.Forall₂ Operand.Suits i.descriptor.sizes i.operands

/-- Instructions of the table that can be written as they are: no operand is a name. -/
def Table.Concrete (t : Table) (code : List Instruction) : Prop :=
  ∀ i ∈ code, t.Admits i ∧ i.symbols = []

/-- Operands without names are written in the bytes of their immediates and read back from
them. -/
theorem Instruction.encodeOperands_suits {sizes : List Nat} {operands : List Operand}
    (hsizes : ∀ size ∈ sizes, size ∈ Immediate.sizes)
    (h : List.Forall₂ Operand.Suits sizes operands)
    (hnames : operands.filterMap Operand.symbol? = []) :
    ∃ bytes, encodeOperands sizes operands = (bytes, none) ∧
      bytes.length = sizes.foldr (· + ·) 0 ∧
      ∀ rest, Table.decodeImmediates sizes (bytes ++ rest) = operands := by
  induction h with
  | nil => exact ⟨[], rfl, rfl, fun _ => rfl⟩
  | @cons size operand sizes operands hoperand _ ih =>
      cases operand with
      | symbol name => cases hnames
      | value v =>
          obtain ⟨hsize, hsizes⟩ := List.forall_mem_cons.mp hsizes
          obtain ⟨bytes, hencode, hlength, hdecode⟩ := ih hsizes hnames
          have hkept : Immediate.normalize size v = v := hoperand
          have hwidth := Immediate.length_encode (Immediate.le_of_mem_sizes hsize) v
          refine ⟨Immediate.encode size v ++ bytes, ?_, ?_, fun rest => ?_⟩
          · rw [encodeOperands, hencode]
          · rw [List.length_append, hwidth, hlength, List.foldr_cons]
          · rw [Table.decodeImmediates, List.append_assoc, Immediate.decode_encode hsize, hkept,
              List.drop_left' hwidth, hdecode]

namespace Table

variable {t : Table}

theorem Admits.encode {i : Instruction} (h : t.Admits i) (hnames : i.symbols = []) :
    ∃ immediates, i.encode = .ok (i.descriptor.opcode :: immediates) ∧
      immediates.length = i.descriptor.immediateLength ∧
      decodeImmediates i.descriptor.sizes immediates = i.operands := by
  obtain ⟨bytes, hencode, hlength, hdecode⟩ :=
    Instruction.encodeOperands_suits (t.sizes_supported _ h.mem) h.operands hnames
  refine ⟨bytes, ?_, hlength, ?_⟩
  · simp only [Instruction.encode, Instruction.encodePartial, hencode]
  · simpa using hdecode []

namespace Concrete

variable {code : List Instruction}

theorem mono {part : List Instruction} (h : t.Concrete code) (hpart : part ⊆ code) :
    t.Concrete part := fun i hi => h i (hpart hi)

/-- Concrete instructions are written in the bytes that are laid out for them, and read back
from wherever these bytes stand. -/
theorem decodeFrom (h : t.Concrete code) (offset : Nat) :
    ∃ bytes listing, Instruction.encodeAll code = .ok bytes ∧
      bytes.length = Instruction.totalLength code ∧
      t.decodeFrom offset bytes = .ok listing ∧ listing.map Prod.snd = code := by
  induction code generalizing offset with
  | nil => exact ⟨[], [], rfl, rfl, by rw [Table.decodeFrom], rfl⟩
  | cons i code ih =>
      obtain ⟨⟨hi, hnames⟩, hcode⟩ := List.forall_mem_cons.mp h
      obtain ⟨immediates, hencode, hlength, hdecode⟩ := hi.encode hnames
      obtain ⟨bytes, listing, hbytes, htotal, hlisting, rfl⟩ :=
        ih hcode (offset + i.descriptor.length)
      have hget : t.get? i.descriptor.opcode = some i.descriptor :=
        get?_eq_some_iff.mpr ⟨hi.mem, rfl⟩
      refine ⟨i.descriptor.opcode :: (immediates ++ bytes), (offset, i) :: listing, ?_, ?_, ?_, rfl⟩
      · rw [Instruction.encodeAll, hencode, hbytes]
        rfl
      · simp only [List.length_cons, List.length_append, hlength, htotal, Instruction.totalLength,
          List.map_cons, List.foldr_cons, Instruction.length, Descriptor.length]
        omega
      · rw [decodeFrom_instruction hget hlength, hlisting, hdecode]
        rfl

theorem encodeAll (h : t.Concrete code) : ∃ bytes, Instruction.encodeAll code = .ok bytes := by
  obtain ⟨bytes, -, hbytes, -⟩ := h.decodeFrom 0
  exact ⟨bytes, hbytes⟩

theorem disassemble (h : t.Concrete code) {bytes : Bytes}
    (hbytes : Instruction.encodeAll code = .ok bytes) :
    bytes.length = Instruction.totalLength code ∧ t.disassemble bytes = .ok code := by
  obtain ⟨bytes', listing, hbytes', hlength, hlisting, rfl⟩ := h.decodeFrom 0
  obtain rfl := Except.ok.inj (hbytes'.symm.trans hbytes)
  refine ⟨hlength, ?_⟩
  rw [Table.disassemble, disassembleWithOffsets, hlisting]
  rfl

end Concrete

/-! ## Text -/

/-- An immediate is taken for the value that its width keeps of what is spelled. -/
theorem parseImmediate_ok {d : Descriptor} {size : Nat} {word : String} {operand : Operand}
    (h : parseImmediate d size word = .ok operand) :
    ∃ v, Text.readInteger? word = some v ∧ operand = .value (Immediate.normalize size v) := by
  rw [parseImmediate] at h
  cases hread : Text.readInteger? word with
  | none => rw [hread] at h; cases h
  | some v =>
      rw [hread] at h
      dsimp only at h
      by_cases hfits : Immediate.fits size v
      · rw [if_pos hfits] at h
        exact ⟨v, rfl, (Except.ok.inj h).symm⟩
      · rw [if_neg hfits] at h
        cases h

theorem parseImmediates_suits {d : Descriptor} {found : Nat} {sizes : List Nat}
    {words : List String} {operands : List Operand}
    (h : parseImmediates d found sizes words = .ok operands) :
    List.Forall₂ Operand.Suits sizes operands ∧ operands.filterMap Operand.symbol? = [] := by
  induction sizes generalizing found words operands with
  | nil =>
      rw [parseImmediates] at h
      obtain rfl := Except.ok.inj h
      exact ⟨.nil, rfl⟩
  | cons size sizes ih =>
      cases words with
      | nil => cases h
      | cons word words =>
          obtain ⟨operand, hoperand, h⟩ := bind_eq_ok_iff.mp h
          obtain ⟨rest, hrest, h⟩ := bind_eq_ok_iff.mp h
          obtain rfl := Except.ok.inj h
          obtain ⟨v, -, rfl⟩ := parseImmediate_ok hoperand
          obtain ⟨hsuits, hnames⟩ := ih hrest
          exact ⟨.cons (Immediate.normalize_normalize size v) hsuits, hnames⟩

/-- An assembler makes instructions of its table, without names. -/
theorem parseWords_concrete {words : List String} {code : List Instruction}
    (h : t.parseWords words = .ok code) : t.Concrete code := by
  induction words using parseWords.induct (t := t) generalizing code with
  | case1 =>
      rw [parseWords] at h
      obtain rfl := Except.ok.inj h
      exact List.forall_mem_nil _
  | case2 word words hnone =>
      rw [parseWords, hnone] at h
      cases h
  | case3 word words d hd ih =>
      rw [parseWords, hd] at h
      obtain ⟨operands, hoperands, h⟩ := bind_eq_ok_iff.mp h
      obtain ⟨rest, hrest, h⟩ := bind_eq_ok_iff.mp h
      obtain rfl := Except.ok.inj h
      obtain ⟨hsuits, hnames⟩ := parseImmediates_suits hoperands
      exact List.forall_mem_cons.mpr ⟨⟨⟨lookup?_mem hd, hsuits⟩, hnames⟩, ih hrest⟩

/-- A text that is accepted is assembled to as many bytes as its instructions take, and the
bytes are disassembled to the instructions that the text was read as. -/
theorem text_round_trip (t : Table) (text : String) (code : List Instruction)
    (h : t.parse text = .ok code) :
    ∃ bytes, t.assemble text = .ok bytes ∧
      bytes.length = (code.map Instruction.length).sum ∧ t.disassemble bytes = .ok code := by
  have hcode := parseWords_concrete h
  obtain ⟨bytes, hbytes⟩ := hcode.encodeAll
  refine ⟨bytes, ?_, hcode.disassemble hbytes⟩
  rw [assemble, h]
  exact hbytes

/-- A table with an instruction of every width, names in mixed case and opcodes far apart. -/
def widths : Table :=
  (ofDescriptors .stack [⟨"Mix", 3, [1, 2, 4, 8], .stack .halt⟩, ⟨"NOP", 200, [], .stack .halt⟩]
    ).toOption.get (by decide +kernel)

/-- Values of every width, spelled unsigned, with a plus and negative. -/
def mixedText : String := "mIX 255 +65535 4294967295 -1 nop\nMIX -1 -32768 +2147483648 +7"

/-- What the text spells. -/
def mixedCode : List Instruction :=
  [⟨⟨"Mix", 3, [1, 2, 4, 8], .stack .halt⟩,
     [.value (-1), .value (-1), .value (-1), .value (-1)]⟩,
   ⟨⟨"NOP", 200, [], .stack .halt⟩, []⟩,
   ⟨⟨"Mix", 3, [1, 2, 4, 8], .stack .halt⟩,
     [.value (-1), .value (-32768), .value (-2147483648), .value 7]⟩]

theorem text_round_trip_widths :
    ∃ bytes, widths.assemble mixedText = .ok bytes ∧ bytes.length = 33 ∧
      widths.disassemble bytes = .ok mixedCode :=
  text_round_trip widths mixedText mixedCode (by decide +kernel)

end Table

end DualMachine
