import DualMachine.Proofs.Encoding
import DualMachine.Proofs.Tables

/-!
# Decoding byte strings

A disassembler reads a byte string from the front: an opcode, then as many bytes as the
immediates of its instruction take. Here it is compared with a description of byte
strings that does not mention it. `Table.IsEncoding` says what the bytes of one
instruction are, `Table.Decodable` strings are such bytes one after the other, and a
string is `Table.Stuck` where no instruction stands at its front.

Every byte string is a decodable part with a stuck one after it, and the disassembler
finds both (`Table.decodeFrom_cases`). The first part is then the longest prefix that is
decodable (`Table.Decodable.length_le_of_stuck`), so what the disassembler accepts and
where it fails does not depend on how it proceeds (`disassembly_exact`).
-/

namespace DualMachine

/-! ## Immediates -/

theorem ofLittleEndian_lt (bs : Bytes) : ofLittleEndian bs < 256 ^ bs.length := by
  induction bs with
  | nil => decide
  | cons b bs ih =>
      have hb := b.toNat_lt
      simp only [ofLittleEndian, List.length_cons, Nat.pow_succ]
      omega

theorem littleEndian_ofLittleEndian (bs : Bytes) :
    littleEndian bs.length (ofLittleEndian bs) = bs := by
  induction bs with
  | nil => rfl
  | cons b bs ih =>
      have hb := b.toNat_lt
      have hlow : UInt8.ofNat (b.toNat + 256 * ofLittleEndian bs) = b := by
        apply UInt8.toNat_inj.mp
        rw [UInt8.toNat_ofNat']
        omega
      have hhigh : (b.toNat + 256 * ofLittleEndian bs) / 256 = ofLittleEndian bs := by omega
      simp only [List.length_cons, ofLittleEndian, littleEndian, hlow, hhigh, ih]

namespace Immediate

theorem toNat_emod_range (bs : Bytes) :
    ((ofLittleEndian bs : Int) % range bs.length).toNat = ofLittleEndian bs := by
  have hlt : ofLittleEndian bs < range bs.length := ofLittleEndian_lt bs
  rw [← Int.natCast_emod, Nat.mod_eq_of_lt hlt, Int.toNat_natCast]

/-- What is read is written as the bytes it was read from. -/
theorem encode_decode {size : Nat} {bytes : Bytes} (hsize : size ∈ sizes)
    (h : size ≤ bytes.length) : encode size (decode size bytes) = bytes.take size := by
  have hlength : (bytes.take size).length = size := by simp [h]
  have hmod := toNat_emod_range (bytes.take size)
  have hbytes := littleEndian_ofLittleEndian (bytes.take size)
  rw [hlength] at hmod hbytes
  rw [decode_eq hsize, encode_normalize, encode_eq hsize, hmod, hbytes]

end Immediate

theorem Instruction.encodeOperands_decodeImmediates {sizes : List Nat} {bytes : Bytes}
    (hsizes : ∀ size ∈ sizes, size ∈ Immediate.sizes)
    (h : sizes.foldr (· + ·) 0 ≤ bytes.length) :
    encodeOperands sizes (Table.decodeImmediates sizes bytes)
      = (bytes.take (sizes.foldr (· + ·) 0), none) := by
  induction sizes generalizing bytes with
  | nil => simp [encodeOperands]
  | cons size sizes ih =>
      rw [List.foldr_cons] at h
      have hrest : sizes.foldr (· + ·) 0 ≤ (bytes.drop size).length := by
        rw [List.length_drop]
        omega
      have hfirst : size ≤ bytes.length := by omega
      obtain ⟨hsize, hsizes⟩ := List.forall_mem_cons.mp hsizes
      simp only [Table.decodeImmediates, encodeOperands, ih hsizes hrest,
        Immediate.encode_decode hsize hfirst, List.foldr_cons, List.take_add]

/-- An instruction that was read is written as the bytes it was read from. -/
theorem Instruction.encode_decoded {d : Descriptor} {immediates : Bytes}
    (hsizes : ∀ size ∈ d.sizes, size ∈ Immediate.sizes)
    (h : immediates.length = d.immediateLength) :
    (⟨d, Table.decodeImmediates d.sizes immediates⟩ : Instruction).encode
      = .ok (d.opcode :: immediates) := by
  have hoperands := encodeOperands_decodeImmediates hsizes (Nat.le_of_eq h.symm)
  rw [show d.sizes.foldr (· + ·) 0 = immediates.length from h.symm, List.take_length]
    at hoperands
  simp only [encode, encodePartial, hoperands]

/-! ## Byte strings -/

namespace Table

variable {t : Table}

/-- The bytes of one instruction: a registered opcode, then the bytes of its immediates. -/
def IsEncoding (t : Table) (part : Bytes) : Prop :=
  ∃ d ∈ t.descriptors, ∃ immediates, immediates.length = d.immediateLength ∧
    part = d.opcode :: immediates

/-- The bytes of instructions, one after the other. -/
def Decodable (t : Table) (bytes : Bytes) : Prop :=
  ∃ parts : List Bytes, (∀ part ∈ parts, t.IsEncoding part) ∧ parts.flatten = bytes

/-- No instruction stands at the front. -/
def Stuck (t : Table) (bytes : Bytes) : Prop := ∀ part, t.IsEncoding part → ¬part <+: bytes

theorem decodable_nil : t.Decodable [] := ⟨[], by simp, rfl⟩

theorem Decodable.cons {part bytes : Bytes} (hpart : t.IsEncoding part) (h : t.Decodable bytes) :
    t.Decodable (part ++ bytes) := by
  obtain ⟨parts, hparts, rfl⟩ := h
  exact ⟨part :: parts, by simpa using ⟨hpart, hparts⟩, rfl⟩

/-- Instructions at the front of one byte string are the same. -/
theorem IsEncoding.eq_of_front {a b bytes : Bytes} (ha : t.IsEncoding a) (hb : t.IsEncoding b)
    (hpa : a <+: bytes) (hpb : b <+: bytes) : a = b := by
  obtain ⟨d, hd, x, hx, rfl⟩ := ha
  obtain ⟨e, he, y, hy, rfl⟩ := hb
  obtain ⟨u, rfl⟩ := hpa
  obtain ⟨v, hv⟩ := hpb
  simp only [List.cons_append, List.cons.injEq] at hv
  obtain ⟨hopcode, htail⟩ := hv
  -- the opcode fixes the instruction and with it the number of bytes
  obtain rfl := t.consistent.eq_of_opcode he hd hopcode
  rw [List.append_inj_left htail (hy.trans hx.symm)]

/-- A decodable part with a stuck one after it is the longest decodable prefix. -/
theorem Decodable.length_le_of_stuck {p rest q : Bytes} (hp : t.Decodable p)
    (hrest : t.Stuck rest) (hq : t.Decodable q) (hfront : q <+: p ++ rest) :
    q.length ≤ p.length := by
  obtain ⟨ps, hps, rfl⟩ := hp
  obtain ⟨qs, hqs, rfl⟩ := hq
  -- both are read part by part, and the parts are the same as long as there are any
  induction ps generalizing qs with
  | nil =>
      cases qs with
      | nil => simp
      | cons b qs =>
          have hb : b <+: rest := (List.prefix_append b qs.flatten).trans (by simpa using hfront)
          exact absurd hb (hrest b (hqs b (by simp)))
  | cons a ps ih =>
      cases qs with
      | nil => simp
      | cons b qs =>
          simp only [List.flatten_cons, List.append_assoc] at hfront
          have hab : a = b := (hps a (by simp)).eq_of_front (hqs b (by simp))
            (List.prefix_append a _) ((List.prefix_append b _).trans hfront)
          subst hab
          have hle := ih (fun part hpart => hps part (by simp [hpart])) qs
            (fun part hpart => hqs part (by simp [hpart]))
            ((List.prefix_append_right_inj a).mp hfront)
          simp only [List.flatten_cons, List.length_append]
          omega

/-! ## Disassembly -/

theorem decodeFrom_unknown {opcode : UInt8} (h : t.get? opcode = none) (offset : Nat)
    (rest : Bytes) :
    t.decodeFrom offset (opcode :: rest) = .error (.unknownOpcode opcode offset) := by
  rw [decodeFrom, h]

theorem decodeFrom_truncated {opcode : UInt8} {d : Descriptor} (hd : t.get? opcode = some d)
    {rest : Bytes} (hlt : rest.length < d.immediateLength) (offset : Nat) :
    t.decodeFrom offset (opcode :: rest) = .error (.truncatedInstruction d.name offset) := by
  rw [decodeFrom, hd]
  have htake : (rest.take d.immediateLength).length < d.immediateLength := by
    rw [List.length_take]
    omega
  simp only [htake, if_true]

/-- A whole instruction at the front is listed, and what follows is decoded from its end on. -/
theorem decodeFrom_instruction {opcode : UInt8} {d : Descriptor} (hd : t.get? opcode = some d)
    {immediates : Bytes} (hlength : immediates.length = d.immediateLength) (offset : Nat)
    (rest : Bytes) :
    t.decodeFrom offset (opcode :: (immediates ++ rest))
      = (((offset, ⟨d, decodeImmediates d.sizes immediates⟩) :: ·) <$>
          t.decodeFrom (offset + d.length) rest) := by
  rw [decodeFrom, hd]
  simp only [← hlength, List.take_left, List.drop_left, Nat.lt_irrefl, if_false]
  rfl

end Table

/-- Instructions with their offsets that follow each other without gaps. -/
inductive Instruction.Tiles : (start : Nat) → List (Nat × Instruction) → (stop : Nat) → Prop where
  | nil (offset : Nat) : Tiles offset [] offset
  | cons {offset stop : Nat} {i : Instruction} {rest : List (Nat × Instruction)}
      (h : Tiles (offset + i.length) rest stop) : Tiles offset ((offset, i) :: rest) stop

namespace Table

variable {t : Table}

/-- What a disassembler answers that has listed instructions up to `offset` and has the bytes
`rest` before it, where there is no further instruction. -/
inductive Stops (t : Table) (listing : List (Nat × Instruction)) (offset : Nat) :
    (rest : Bytes) → Except AsmError (List (Nat × Instruction)) → Prop where
  | finished : Stops t listing offset [] (.ok listing)
  | unknown {opcode : UInt8} {rest : Bytes} (h : ∀ d ∈ t.descriptors, d.opcode ≠ opcode) :
      Stops t listing offset (opcode :: rest) (.error (.unknownOpcode opcode offset))
  | truncated {d : Descriptor} {rest : Bytes} (hd : d ∈ t.descriptors)
      (hlt : rest.length < d.immediateLength) :
      Stops t listing offset (d.opcode :: rest) (.error (.truncatedInstruction d.name offset))

namespace Stops

variable {listing : List (Nat × Instruction)} {offset : Nat} {rest : Bytes}
  {answer : Except AsmError (List (Nat × Instruction))}

theorem stuck (h : t.Stops listing offset rest answer) : t.Stuck rest := by
  rintro part ⟨e, he, immediates, hlength, rfl⟩ ⟨after, hafter⟩
  cases h with
  | finished => cases hafter
  | unknown hnone =>
      rw [List.cons_append, List.cons.injEq] at hafter
      exact hnone e he hafter.1
  | @truncated d rest hd hlt =>
      rw [List.cons_append, List.cons.injEq] at hafter
      obtain ⟨hopcode, rfl⟩ := hafter
      obtain rfl := t.consistent.eq_of_opcode he hd hopcode
      rw [List.length_append] at hlt
      omega

/-- An instruction listed before the others. -/
theorem cons (h : t.Stops listing offset rest answer) (entry : Nat × Instruction) :
    t.Stops (entry :: listing) offset rest ((entry :: ·) <$> answer) := by
  cases h with
  | finished => exact .finished
  | unknown hnone => exact .unknown hnone
  | truncated hd hlt => exact .truncated hd hlt

end Stops

/-- A disassembler lists the instructions of a decodable part and stops where no further one
stands. -/
theorem decodeFrom_cases (t : Table) (offset : Nat) (bytes : Bytes) :
    ∃ listing p rest, bytes = p ++ rest ∧ t.Decodable p ∧
      Instruction.Tiles offset listing (offset + p.length) ∧
      Instruction.encodeAll (listing.map (·.2)) = .ok p ∧
      t.Stops listing (offset + p.length) rest (t.decodeFrom offset bytes) := by
  induction offset, bytes using decodeFrom.induct (t := t) with
  | case1 offset =>
      refine ⟨[], [], [], rfl, decodable_nil, .nil offset, rfl, ?_⟩
      rw [decodeFrom]
      exact .finished
  | case2 offset opcode rest hnone =>
      refine ⟨[], [], opcode :: rest, rfl, decodable_nil, .nil offset, rfl, ?_⟩
      rw [decodeFrom_unknown hnone]
      exact .unknown (get?_eq_none_iff.mp hnone)
  | case3 offset opcode rest d hd immediates hshort =>
      obtain ⟨hmem, rfl⟩ := get?_eq_some_iff.mp hd
      have hlt : rest.length < d.immediateLength := by
        simp only [immediates, List.length_take] at hshort
        omega
      refine ⟨[], [], d.opcode :: rest, rfl, decodable_nil, .nil offset, rfl, ?_⟩
      rw [decodeFrom_truncated hd hlt]
      exact .truncated hmem hlt
  | case4 offset opcode rest d hd immediates hlong ih =>
      obtain ⟨hmem, rfl⟩ := get?_eq_some_iff.mp hd
      have hlength : immediates.length = d.immediateLength := by
        simp only [immediates, List.length_take] at hlong ⊢
        omega
      obtain ⟨listing, p, after, hsplit, hp, htiles, hencode, hstops⟩ := ih
      have hend : offset + (d.opcode :: immediates ++ p).length
          = offset + d.length + p.length := by
        simp only [List.length_append, List.length_cons, hlength, Descriptor.length]
        omega
      refine ⟨(offset, ⟨d, decodeImmediates d.sizes immediates⟩) :: listing,
        d.opcode :: immediates ++ p, after, ?_, ?_, ?_, ?_, ?_⟩
      · rw [List.append_assoc, ← hsplit, List.cons_append, List.take_append_drop]
      · exact hp.cons ⟨d, hmem, immediates, hlength, rfl⟩
      · rw [hend]
        exact .cons htiles
      · have hbytes := Instruction.encode_decoded (t.sizes_supported d hmem) hlength
        simp only [List.map_cons, Instruction.encodeAll, hbytes, hencode]
        rfl
      · have hstep := decodeFrom_instruction hd hlength offset
          (rest.drop d.immediateLength)
        rw [List.take_append_drop] at hstep
        rw [hend, hstep]
        exact hstops.cons _

end Table

/-- A byte string is disassembled exactly when it is the bytes of instructions; their offsets
are then consecutive from 0 to its length, and encoded again they give it back.
Otherwise disassembly fails at the end of the longest decodable prefix, by what the next
byte is: no opcode, or that of an instruction for which there are too few bytes. -/
theorem disassembly_exact (t : Table) (bytes : Bytes) :
    ((∃ listing, t.disassembleWithOffsets bytes = .ok listing) ↔ t.Decodable bytes) ∧
    (∀ listing, t.disassembleWithOffsets bytes = .ok listing →
      Instruction.Tiles 0 listing bytes.length ∧
        Instruction.encodeAll (listing.map (·.2)) = .ok bytes) ∧
    (¬t.Decodable bytes → ∃ p opcode rest, bytes = p ++ opcode :: rest ∧ t.Decodable p ∧
      (∀ q, q <+: bytes → t.Decodable q → q.length ≤ p.length) ∧
      ((∀ d ∈ t.descriptors, d.opcode ≠ opcode) ∧
          t.disassembleWithOffsets bytes = .error (.unknownOpcode opcode p.length) ∨
        ∃ d ∈ t.descriptors, d.opcode = opcode ∧ rest.length < d.immediateLength ∧
          t.disassembleWithOffsets bytes
            = .error (.truncatedInstruction d.name p.length))) := by
  obtain ⟨listing, p, rest, rfl, hp, htiles, hencode, hstops⟩ := t.decodeFrom_cases 0 bytes
  have hlongest : ∀ q, q <+: p ++ rest → t.Decodable q → q.length ≤ p.length :=
    fun q hfront hq => hp.length_le_of_stuck hstops.stuck hq hfront
  have hwhole : t.Decodable (p ++ rest) → rest = [] := by
    intro hall
    have hle := hlongest _ List.prefix_rfl hall
    rw [List.length_append] at hle
    exact List.length_eq_zero_iff.mp (by omega)
  rw [Nat.zero_add] at htiles hstops
  unfold Table.disassembleWithOffsets
  generalize t.decodeFrom 0 (p ++ rest) = answer at hstops ⊢
  cases hstops with
  | finished =>
      rw [List.append_nil]
      refine ⟨⟨fun _ => hp, fun _ => ⟨listing, rfl⟩⟩, fun other hother => ?_, fun hnot => ?_⟩
      · obtain rfl := Except.ok.inj hother
        exact ⟨htiles, hencode⟩
      · exact absurd hp hnot
  | @unknown opcode rest hnone =>
      refine ⟨⟨?_, fun hall => by cases hwhole hall⟩, ?_, fun _ => ?_⟩
      · rintro ⟨_, ⟨⟩⟩
      · rintro _ ⟨⟩
      · exact ⟨p, opcode, rest, rfl, hp, hlongest, .inl ⟨hnone, rfl⟩⟩
  | @truncated d rest hd hlt =>
      refine ⟨⟨?_, fun hall => by cases hwhole hall⟩, ?_, fun _ => ?_⟩
      · rintro ⟨_, ⟨⟩⟩
      · rintro _ ⟨⟩
      · exact ⟨p, d.opcode, rest, rfl, hp, hlongest, .inr ⟨d, hd, rfl, hlt, rfl⟩⟩

end DualMachine
