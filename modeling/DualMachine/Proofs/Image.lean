import DualMachine.Image
import DualMachine.Proofs.Decoding
import DualMachine.Proofs.Emission

/-!
# Stored images

An image is a sequence of fields, two of which say how long the field after them is.
`Reader.Takes r part a` says of a reader all that matters for such a format: from any input
that begins with `part` it takes exactly `part` and makes `a` of it, and if the input stops
anywhere inside of `part`, it finds that the input ends too early. Readers that take two
parts one after the other take both together (`Reader.Takes.bind`), so a cut at any place of an
image is a cut inside of one field.

The other way round, each field that is read stands in the input as it would be written
(`Reader.take_ok_iff`, `Reader.number_ok_iff`, `Reader.byte_ok_iff`), so an image has one written
form.
-/

namespace DualMachine

/-! ## Numbers, high byte first -/

theorem length_bigEndian (width n : Nat) : (bigEndian width n).length = width := by
  rw [bigEndian, List.length_reverse, length_littleEndian]

theorem ofBigEndian_bigEndian {width n : Nat} (h : n < 256 ^ width) :
    ofBigEndian (bigEndian width n) = n := by
  rw [ofBigEndian, bigEndian, List.reverse_reverse, ofLittleEndian_littleEndian,
    Nat.mod_eq_of_lt h]

theorem bigEndian_ofBigEndian (bs : Bytes) : bigEndian bs.length (ofBigEndian bs) = bs := by
  have hbytes := littleEndian_ofLittleEndian bs.reverse
  rw [List.length_reverse] at hbytes
  rw [ofBigEndian, bigEndian, hbytes, List.reverse_reverse]

theorem ofBigEndian_lt (bs : Bytes) : ofBigEndian bs < 256 ^ bs.length := by
  have hlt := ofLittleEndian_lt bs.reverse
  rwa [List.length_reverse] at hlt

/-! ## Readers -/

namespace Reader

variable {α β : Type} {r : Reader α} {f : α → Reader β} {part next : Bytes} {a : α} {b : β}

theorem take_eq (count : Nat) (input : Bytes) :
    take count input = if (input.take count).length < count
      then .error .endOfInput (input.drop count)
      else .ok (input.take count) (input.drop count) := by
  by_cases hlt : (input.take count).length < count
  · rw [if_pos hlt]
    show (if _ then _ else _ : Reader Bytes) _ = _
    rw [if_pos hlt]
    rfl
  · rw [if_neg hlt]
    show (if _ then _ else _ : Reader Bytes) _ = _
    rw [if_neg hlt]
    rfl

theorem take_ok_iff {count : Nat} {input bytes rest : Bytes} :
    take count input = .ok bytes rest ↔ bytes.length = count ∧ input = bytes ++ rest := by
  rw [take_eq]
  constructor
  · intro h
    by_cases hlt : (input.take count).length < count
    · rw [if_pos hlt] at h
      cases h
    · rw [if_neg hlt] at h
      obtain ⟨rfl, rfl⟩ := EStateM.Result.ok.inj h
      refine ⟨?_, (List.take_append_drop count input).symm⟩
      rw [List.length_take] at hlt ⊢
      omega
  · rintro ⟨rfl, rfl⟩
    rw [List.take_left, List.drop_left, if_neg (Nat.lt_irrefl _)]

theorem take_of_short {count : Nat} {input : Bytes} (h : input.length < count) :
    take count input = .error .endOfInput [] := by
  have hlt : (input.take count).length < count := by
    rw [List.length_take]
    omega
  rw [take_eq, if_pos hlt, List.drop_eq_nil_of_le (by omega)]

theorem number_ok_iff {width n : Nat} {input rest : Bytes} :
    number width input = .ok n rest ↔ n < 256 ^ width ∧ input = bigEndian width n ++ rest := by
  rw [number, bind_ok_iff]
  constructor
  · rintro ⟨bytes, _, htake, h⟩
    obtain ⟨rfl, rfl⟩ := EStateM.Result.ok.inj h
    obtain ⟨rfl, rfl⟩ := take_ok_iff.mp htake
    exact ⟨ofBigEndian_lt bytes, by rw [bigEndian_ofBigEndian]⟩
  · rintro ⟨hlt, rfl⟩
    refine ⟨bigEndian width n, rest, take_ok_iff.mpr ⟨length_bigEndian width n, rfl⟩, ?_⟩
    rw [ofBigEndian_bigEndian hlt]
    rfl

theorem byte_ok_iff {b : UInt8} {input rest : Bytes} :
    byte input = .ok b rest ↔ input = b :: rest := by
  have hone : ∀ n, n < 256 → bigEndian 1 n = [UInt8.ofNat n] := fun _ _ => rfl
  rw [byte, bind_ok_iff]
  constructor
  · rintro ⟨n, _, hnumber, h⟩
    obtain ⟨rfl, rfl⟩ := EStateM.Result.ok.inj h
    obtain ⟨hlt, rfl⟩ := number_ok_iff.mp hnumber
    rfl
  · rintro rfl
    refine ⟨b.toNat, rest, number_ok_iff.mpr ⟨b.toNat_lt, ?_⟩, ?_⟩
    · rw [hone b.toNat b.toNat_lt, UInt8.ofNat_toNat]
      rfl
    · rw [UInt8.ofNat_toNat]
      rfl

/-- A reader that goes on has passed the check before it. -/
theorem check_ok {c : Prop} [Decidable c] {k : Unit → Reader α} {e : ImageError}
    {input rest : Bytes} (h : (if c then k () else throw e >>= k) input = .ok a rest) :
    c ∧ k () input = .ok a rest := by
  by_cases hc : c
  · rw [if_pos hc] at h
    exact ⟨hc, h⟩
  · rw [if_neg hc] at h
    cases h

/-- From an input that begins with `part` the reader takes `part` and makes `a` of it; an input
that stops inside of `part` is used up and found to end too early. -/
structure Takes (r : Reader α) (part : Bytes) (a : α) : Prop where
  whole : ∀ rest, r (part ++ rest) = .ok a rest
  cut : ∀ front, front <+: part → front ≠ part → r front = .error .endOfInput []

namespace Takes

theorem pure (a : α) : Takes (Pure.pure a) [] a where
  whole _ := rfl
  cut _ hfront hne := absurd (List.prefix_nil.mp hfront) hne

/-- Parts that follow each other are taken one after the other. -/
theorem bind (hr : Takes r part a) (hf : Takes (f a) next b) :
    Takes (r >>= f) (part ++ next) b where
  whole rest := by
    refine bind_ok_iff.mpr ⟨a, next ++ rest, ?_, hf.whole rest⟩
    rw [List.append_assoc]
    exact hr.whole _
  cut front hfront hne := by
    by_cases hlength : part.length ≤ front.length
    · -- the first part is whole, and the cut is in the second
      obtain ⟨middle, rfl⟩ := List.prefix_of_prefix_length_le (List.prefix_append part next)
        hfront hlength
      have hmiddle : middle <+: next := (List.prefix_append_right_inj part).mp hfront
      have hcut := hf.cut middle hmiddle fun heq => hne (by rw [heq])
      show EStateM.bind r f (part ++ middle) = _
      rw [EStateM.bind, hr.whole middle]
      exact hcut
    · have hshort : front <+: part := List.prefix_of_prefix_length_le hfront
        (List.prefix_append part next) (by omega)
      have hcut := hr.cut front hshort fun heq => hlength (by rw [heq])
      show EStateM.bind r f front = _
      rw [EStateM.bind, hcut]

theorem take (part : Bytes) : Takes (Reader.take part.length) part part where
  whole _ := take_ok_iff.mpr ⟨rfl, rfl⟩
  cut front hfront hne := by
    refine take_of_short (Nat.lt_of_le_of_ne hfront.length_le fun heq => hne ?_)
    exact hfront.eq_of_length heq

theorem map (hr : Takes r part a) (g : α → β) :
    Takes (do return g (← r)) part (g a) := by
  have hread := hr.bind (f := fun a => Pure.pure (g a)) (Takes.pure (g a))
  rwa [List.append_nil] at hread

theorem number {width n : Nat} (h : n < 256 ^ width) :
    Takes (Reader.number width) (bigEndian width n) n := by
  have htake := Takes.take (bigEndian width n)
  rw [length_bigEndian] at htake
  have hread := htake.map ofBigEndian
  rwa [ofBigEndian_bigEndian h] at hread

theorem byte (b : UInt8) : Takes Reader.byte [b] b := by
  have hnumber : Takes (Reader.number 1) (bigEndian 1 b.toNat) b.toNat := .number b.toNat_lt
  have hread := hnumber.map UInt8.ofNat
  have hbytes : bigEndian 1 b.toNat = [UInt8.ofNat b.toNat] := rfl
  rwa [hbytes, UInt8.ofNat_toNat] at hread

end Takes

end Reader

/-! ## Images -/

theorem Kind.ofByte?_toByte (kind : Kind) : Kind.ofByte? kind.toByte = some kind := by
  cases kind <;> rfl

theorem Kind.toByte_of_ofByte? {b : UInt8} {kind : Kind} (h : Kind.ofByte? b = some kind) :
    kind.toByte = b := by
  unfold Kind.ofByte? at h
  by_cases hzero : b = 0
  · rw [if_pos hzero] at h
    obtain rfl := Option.some.inj h
    exact hzero.symm
  · rw [if_neg hzero] at h
    by_cases hone : b = 1
    · rw [if_pos hone] at h
      obtain rfl := Option.some.inj h
      exact hone.symm
    · rw [if_neg hone] at h
      cases h

namespace Image

/-- The bytes of a name. -/
abbrev nameBytes (name : String) : Bytes := name.toUTF8.data.toList

theorem fromUTF8?_nameBytes (name : String) :
    String.fromUTF8? ⟨(nameBytes name).toArray⟩ = some name := by
  rw [nameBytes, Array.toArray_toList]
  exact dif_pos name.isValidUTF8

theorem nameBytes_of_fromUTF8? {bytes : Bytes} {name : String}
    (h : String.fromUTF8? ⟨bytes.toArray⟩ = some name) : nameBytes name = bytes := by
  unfold String.fromUTF8? at h
  by_cases hvalid : ByteArray.IsValidUTF8 ⟨bytes.toArray⟩
  · rw [dif_pos hvalid] at h
    obtain rfl := Option.some.inj h
    rfl
  · rw [dif_neg hvalid] at h
    cases h

/-- The fields of an image in the order in which they are read. -/
theorem write_eq (image : Image) :
    image.write = bigEndian 4 magic ++ ([version] ++ ([image.kind.toByte]
      ++ (bigEndian 4 (nameBytes image.name).length ++ (nameBytes image.name
        ++ (bigEndian 4 image.code.length ++ image.code))))) := by
  simp [write, nameBytes]

theorem read_takes {image : Image} (hname : (nameBytes image.name).length < 2 ^ 32)
    (hcode : image.code.length < 2 ^ 32) : read.Takes image.write image := by
  rw [write_eq]
  refine (Reader.Takes.number (by decide)).bind ?_
  dsimp only
  rw [if_pos rfl]
  refine (Reader.Takes.byte version).bind ?_
  rw [if_pos rfl]
  refine (Reader.Takes.byte image.kind.toByte).bind ?_
  rw [Kind.ofByte?_toByte]
  refine (Reader.Takes.number hname).bind ((Reader.Takes.take _).bind ?_)
  rw [fromUTF8?_nameBytes]
  exact (Reader.Takes.number hcode).bind ((Reader.Takes.take image.code).map _)

/-- What is read as an image is written so. -/
theorem eq_write_of_read {input rest : Bytes} {image : Image} (h : read input = .ok image rest) :
    input = image.write ++ rest := by
  obtain ⟨mark, _, hmark, h₁⟩ := bind_ok_iff.mp h
  obtain ⟨rfl, h₂⟩ := Reader.check_ok h₁
  obtain ⟨format, _, hformat, h₃⟩ := bind_ok_iff.mp h₂
  obtain ⟨rfl, h₄⟩ := Reader.check_ok h₃
  obtain ⟨kindByte, _, hkindByte, h₅⟩ := bind_ok_iff.mp h₄
  cases hkind : Kind.ofByte? kindByte with
  | none => rw [hkind] at h₅; cases h₅
  | some kind =>
      rw [hkind] at h₅
      obtain ⟨nameLength, _, hnameLength, h₆⟩ := bind_ok_iff.mp h₅
      obtain ⟨bytes, _, hbytes, h₇⟩ := bind_ok_iff.mp h₆
      cases hname : String.fromUTF8? ⟨bytes.toArray⟩ with
      | none => rw [hname] at h₇; cases h₇
      | some name =>
          rw [hname] at h₇
          obtain ⟨codeLength, _, hcodeLength, h₈⟩ := bind_ok_iff.mp h₇
          obtain ⟨code, _, hcode, h₉⟩ := bind_ok_iff.mp h₈
          obtain ⟨rfl, rfl⟩ := EStateM.Result.ok.inj h₉
          -- every field stands in the input as it is written
          obtain ⟨-, rfl⟩ := Reader.number_ok_iff.mp hmark
          obtain rfl := Reader.byte_ok_iff.mp hformat
          obtain rfl := Reader.byte_ok_iff.mp hkindByte
          obtain rfl := Kind.toByte_of_ofByte? hkind
          obtain ⟨-, rfl⟩ := Reader.number_ok_iff.mp hnameLength
          obtain ⟨rfl, rfl⟩ := Reader.take_ok_iff.mp hbytes
          obtain rfl := nameBytes_of_fromUTF8? hname
          obtain ⟨-, rfl⟩ := Reader.number_ok_iff.mp hcodeLength
          obtain ⟨rfl, rfl⟩ := Reader.take_ok_iff.mp hcode
          rw [write_eq]
          simp only [List.append_assoc, List.cons_append, List.nil_append]

end Image

/-- An image whose name and code are shorter than 2³² bytes is read back from what is written of
it, whatever follows, and what follows is left; from less than what is written, reading fails
because the input ends. What is read from any input is written as the part of it that was taken. -/
theorem image_codec :
    (∀ image : Image, image.name.utf8ByteSize < 2 ^ 32 → image.code.length < 2 ^ 32 →
      (∀ rest, Image.read (image.write ++ rest) = .ok image rest) ∧
      ∀ front, front <+: image.write → front ≠ image.write →
        Image.read front = .error .endOfInput []) ∧
    ∀ input image rest, Image.read input = .ok image rest → input = image.write ++ rest := by
  refine ⟨fun image hname hcode => ?_, fun _ _ _ h => Image.eq_write_of_read h⟩
  have htakes : Image.read.Takes image.write image := Image.read_takes hname hcode
  exact ⟨htakes.whole, htakes.cut⟩

/-- An image whose name takes more bytes than it has letters. -/
def Image.accented : Image := ⟨"né", .stack, [22]⟩

theorem image_codec_accented :
    Image.read (Image.accented.write ++ [7, 7]) = .ok Image.accented [7, 7] ∧
    -- cut between the two bytes of the second letter
    Image.read (Image.accented.write.take 12) = .error .endOfInput [] ∧
    [0x52, 0x53, 0x56, 0x4D, 1, 1, 0, 0, 0, 3, 110, 0xC3, 0xA9, 0, 0, 0, 1, 22, 7, 7]
      = Image.accented.write ++ [7, 7] := by
  obtain ⟨hread, hcut⟩ := image_codec.1 Image.accented (by decide +kernel) (by decide +kernel)
  exact ⟨hread [7, 7], hcut _ (List.take_prefix _ _) (by decide +kernel),
    image_codec.2 _ _ _ rfl⟩

end DualMachine
