import DualMachine.Assembly.Builder
import DualMachine.Proofs.Effects
import DualMachine.Proofs.Trace

/-!
# The instruction sets of the two machines

Both machines write an instruction as its opcode and its immediates, low byte
first, and read it back in the same order. Here this is put together from the
immediates (`encode_register`, `encode_word`) and from what the counter reads
(`fetchByte_eq`, `fetchWord_eq`) to the two instances of `InstructionSet`.
-/

namespace DualMachine

/-! ## Immediates -/

theorem length_littleEndian (width n : Nat) : (littleEndian width n).length = width := by
  induction width generalizing n with
  | zero => rfl
  | succ width ih => rw [littleEndian, List.length_cons, ih]

theorem ofLittleEndian_littleEndian (width n : Nat) :
    ofLittleEndian (littleEndian width n) = n % 256 ^ width := by
  induction width generalizing n with
  | zero => rw [littleEndian, ofLittleEndian, Nat.pow_zero, Nat.mod_one]
  | succ width ih =>
      have hlow : (UInt8.ofNat n).toNat = n % 256 := UInt8.toNat_ofNat'
      rw [littleEndian, ofLittleEndian, ih, hlow, Nat.pow_succ, Nat.mul_comm (256 ^ width),
        Nat.mod_mul]

@[simp] theorem length_wordBytes (w : Word) : (wordBytes w).length = 4 :=
  length_littleEndian 4 _

theorem ofNat_wordBytes (w : Word) : Int32.ofNat (ofLittleEndian (wordBytes w)) = w := by
  have hlt : w.toUInt32.toNat < 256 ^ 4 := w.toUInt32.toNat_lt
  rw [wordBytes, ofLittleEndian_littleEndian, Nat.mod_eq_of_lt hlt, ← UInt32.toInt32_ofNat',
    UInt32.ofNat_toNat, Int32.toInt32_toUInt32]

namespace Immediate

theorem mem_sizes {size : Nat} : size ∈ sizes ↔ size = 1 ∨ size = 2 ∨ size = 4 ∨ size = 8 := by
  simp only [sizes, List.mem_cons, List.not_mem_nil, or_false]

theorem le_of_mem_sizes {size : Nat} (h : size ∈ sizes) : size ≤ 8 := by
  rcases mem_sizes.mp h with rfl | rfl | rfl | rfl <;> decide

@[simp] theorem length_buffer (size : Nat) (v : Int) : (buffer size v).length = 8 := by
  unfold buffer
  split <;> simp [length_littleEndian]

@[simp] theorem length_encode {size : Nat} (h : size ≤ 8) (v : Int) :
    (encode size v).length = size := by
  rw [encode, List.length_take, length_buffer, Nat.min_eq_left h]

/-- The casts of the four widths keep the residue in the signed range. -/
theorem normalize_eq_bmod {size : Nat} (h : size ∈ sizes) (v : Int) :
    normalize size v = v.bmod (range size) := by
  rcases mem_sizes.mp h with rfl | rfl | rfl | rfl
  · exact Int8.toInt_ofInt
  · exact Int16.toInt_ofInt
  · exact Int32.toInt_ofInt
  · exact Int64.toInt_ofInt

/-- The slice of the buffer is the number that the cast leaves, in `size` bytes. -/
theorem encode_eq {size : Nat} (h : size ∈ sizes) (v : Int) :
    encode size v = littleEndian size (v % range size).toNat := by
  have htake (width n k : Nat) :
      (littleEndian width n ++ List.replicate k 0).take width = littleEndian width n :=
    List.take_left' (length_littleEndian width n)
  rcases mem_sizes.mp h with rfl | rfl | rfl | rfl
  · exact htake 1 _ 7
  · exact htake 2 _ 6
  · exact htake 4 _ 4
  · exact List.take_of_length_le (length_littleEndian 8 _).le

theorem decode_eq {size : Nat} (h : size ∈ sizes) (bytes : Bytes) :
    decode size bytes = normalize size (ofLittleEndian (bytes.take size)) := by
  rcases mem_sizes.mp h with rfl | rfl | rfl | rfl
  · exact congrArg Int8.toInt (Int8.ofInt_eq_ofNat).symm
  · exact congrArg Int16.toInt (Int16.ofInt_eq_ofNat).symm
  · exact congrArg Int32.toInt (Int32.ofInt_eq_ofNat).symm
  · exact congrArg Int64.toInt (Int64.ofInt_eq_ofNat).symm

/-- Cutting a value down to its width does not change its bytes. -/
theorem encode_normalize (size : Nat) (v : Int) :
    encode size (normalize size v) = encode size v := by
  unfold encode buffer normalize
  split <;> simp only [Int8.ofInt_toInt, Int16.ofInt_toInt, Int32.ofInt_toInt, Int64.ofInt_toInt]

theorem encode_register (r : UInt8) : encode 1 (r.toNat : Int) = registerByte r := by
  have hlt := r.toNat_lt
  have hmod : ((r.toNat : Int) % range 1).toNat = r.toNat := by
    show ((r.toNat : Int) % 256).toNat = r.toNat
    omega
  rw [encode_eq (by decide), hmod, littleEndian, littleEndian, UInt8.ofNat_toNat, registerByte]

theorem encode_word (v : Int) : encode 4 v = wordBytes (Int32.ofInt v) :=
  List.take_left' (length_littleEndian 4 _)

theorem encode_toInt (w : Word) : encode 4 w.toInt = wordBytes w := by
  rw [encode_word, Int32.ofInt_toInt]

end Immediate

/-! ## Instructions with concrete operands -/

namespace Instruction

theorem resolveOperands_values (addresses : String → Option Int) (f : Nat → Int → Int) :
    ∀ (sizes sizes' : List Nat) (values : List Int),
      resolveOperands addresses sizes (sizes'.zipWith (fun size v => .value (f size v)) values)
        = (sizes'.zipWith (fun size v => .value (f size v)) values, none)
  | sizes, [], values => by
      cases sizes <;> rfl
  | sizes, _ :: _, [] => by
      cases sizes <;> rfl
  | [], _ :: _, _ :: _ => rfl
  | _ :: sizes, _ :: sizes', _ :: values => by
      rw [List.zipWith_cons_cons, resolveOperands,
        resolveOperands_values addresses f sizes sizes' values]

theorem encodeOperands_values (f : Nat → Int → Int) :
    ∀ (sizes : List Nat) (values : List Int),
      encodeOperands sizes (sizes.zipWith (fun size v => .value (f size v)) values)
        = ((sizes.zipWith (fun size v => Immediate.encode size (f size v)) values).flatten, none)
  | [], _ => rfl
  | _ :: _, [] => rfl
  | _ :: sizes, _ :: values => by
      rw [List.zipWith_cons_cons, List.zipWith_cons_cons, encodeOperands,
        encodeOperands_values f sizes values, List.flatten_cons]

theorem resolve_ofValues (addresses : String → Option Int) (d : Descriptor)
    (values : List Int) :
    (ofValues d values).resolve addresses = (ofValues d values, none) := by
  rw [resolve, ofValues, resolveOperands_values]

theorem encode_ofValues (d : Descriptor) (values : List Int) :
    (ofValues d values).encode
      = .ok (d.opcode :: (d.sizes.zipWith Immediate.encode values).flatten) := by
  rw [encode, encodePartial, ofValues, encodeOperands_values]
  simp only [Immediate.encode_normalize]

/-- A named call of a descriptor with one word becomes the call of an address. -/
theorem resolve_ofSymbol {d : Descriptor} (hd : d.sizes = [4])
    {addresses : String → Option Int} {name : String} {address : Int}
    (h : addresses name = some address) :
    (ofSymbol d name).resolve addresses = (ofValues d [address], none) := by
  rw [resolve, ofSymbol, ofValues, hd, resolveOperands, h]
  rfl

theorem resolve_ofSymbol_none {d : Descriptor} (hd : d.sizes = [4])
    {addresses : String → Option Int} {name : String} (h : addresses name = none) :
    ((ofSymbol d name).resolve addresses).2 = some name := by
  rw [resolve, ofSymbol, hd, resolveOperands, h]

end Instruction

/-! ## Reading at the counter -/

namespace Exec

variable {s : State}

theorem fetchByte_eq {b : UInt8} {bs : Bytes} (h : s.Reads (b :: bs)) :
    fetchByte s = .ok b (s.skip 1) := by
  obtain ⟨rest, hrest⟩ := h
  have hget : s.program[s.pc]? = some b := by
    rw [← Array.getElem?_toList, ← Nat.add_zero s.pc, ← List.getElem?_drop, ← hrest]
    rfl
  rw [fetchByte, get_bind_eq]
  simp only [hget]
  rfl

theorem fetchWord_eq {w : Word} (h : s.Reads (wordBytes w)) :
    fetchWord s = .ok w (s.skip 4) := by
  have hlen : s.pc + 4 ≤ s.program.size := by
    have := h.length_le
    rw [length_wordBytes, List.length_drop, Array.length_toList] at this
    omega
  have hword : (s.program.extract s.pc (s.pc + 4)).toList = wordBytes w := by
    obtain ⟨rest, hrest⟩ := h
    rw [Array.toList_extract, List.extract_eq_take_drop, ← hrest, Nat.add_sub_cancel_left,
      ← length_wordBytes w, List.take_left]
  rw [fetchWord, get_bind_eq]
  simp only [if_pos hlen, hword, ofNat_wordBytes]
  rfl

end Exec

/-- A step at an opcode of the table performs the opcode's action. -/
theorem Table.step_eq {t : Table} {d : Descriptor} {s : State} {bs : Bytes}
    (hd : t.get? d.opcode = some d) (h : s.Reads (d.opcode :: bs)) :
    t.step s = d.action.perform (s.skip 1) := by
  rw [Table.step, Exec.get_bind_eq, Exec.bind_eq (Exec.fetchByte_eq h)]
  simp only [hd]

/-! ## The register machine -/

namespace Register

theorem get_opcode (op : Op) : table.get? op.opcode = some op.descriptor := by
  cases op with
  | alu op => cases op <;> rfl
  | _ => rfl

/-- The immediates of an instruction as bytes. -/
def Instr.immediates (i : Instr) : Bytes :=
  (i.op.sizes.zipWith Immediate.encode i.values).flatten

theorem Instr.bytes_eq (i : Instr) : i.bytes = i.op.opcode :: i.immediates := by
  cases i <;>
    simp only [Instr.bytes, Instr.immediates, Op.sizes, Instr.op, Instr.values,
      List.zipWith_cons_cons, List.zipWith_nil_left, List.flatten_cons, List.flatten_nil,
      Immediate.encode_register, Immediate.encode_toInt, List.append_nil, List.append_assoc]

theorem Instr.length_immediates (i : Instr) :
    i.immediates.length = i.op.descriptor.immediateLength := by
  cases i <;>
    simp [Instr.immediates, Op.descriptor, Descriptor.immediateLength, Op.sizes, Instr.op,
      Instr.values]

/-- The operands of an instruction are read where its immediates stand. -/
theorem Instr.fetch_eq (i : Instr) {s : State} (h : s.Reads i.immediates) :
    i.op.fetch s = .ok i (s.skip i.immediates.length) := by
  cases i <;>
    simp only [Instr.immediates, Op.sizes, Instr.op, Instr.values, List.zipWith_cons_cons,
      List.zipWith_nil_left, List.flatten_cons, List.flatten_nil, Immediate.encode_register,
      Immediate.encode_toInt, List.append_nil, registerByte, List.cons_append,
      List.nil_append] at h ⊢
  -- what is left depends only on which immediates there are
  case ret | halt => rfl
  case jump | call =>
      rw [Op.fetch, Exec.bind_eq (Exec.fetchWord_eq h), length_wordBytes]
      rfl
  case mov | cjump =>
      rw [Op.fetch, Exec.bind_eq (Exec.fetchByte_eq h), Exec.bind_eq (Exec.fetchWord_eq h.tail),
        List.length_cons, length_wordBytes]
      rfl
  case not | dup | swap =>
      rw [Op.fetch, Exec.bind_eq (Exec.fetchByte_eq h), Exec.bind_eq (Exec.fetchByte_eq h.tail)]
      rfl
  case alu | load | store =>
      rw [Op.fetch, Exec.bind_eq (Exec.fetchByte_eq h), Exec.bind_eq (Exec.fetchByte_eq h.tail),
        Exec.bind_eq (Exec.fetchByte_eq h.tail.tail)]
      rfl

theorem Instr.step_eq (i : Instr) (s : State) (h : s.Reads i.bytes) :
    table.step s = i.exec (s.skip i.bytes.length) := by
  rw [i.bytes_eq] at h ⊢
  rw [Table.step_eq (d := i.op.descriptor) (get_opcode i.op) h]
  show (i.op.fetch >>= Instr.exec) (s.skip 1) = _
  rw [Exec.bind_eq (i.fetch_eq h.tail), List.length_cons,
    Nat.add_comm, State.skip, State.skip, State.skip, Nat.add_assoc]

instance : InstructionSet Instr where
  table := table
  descriptor i := i.op.descriptor
  bytes := Instr.bytes
  symbolic := Instr.toInstruction
  exec := Instr.exec
  call := .call
  callDescriptor := Op.descriptor .call
  halt := .halt
  get_opcode i := get_opcode i.op
  bytes_eq i := ⟨i.immediates, i.bytes_eq, i.length_immediates⟩
  descriptor_symbolic _ := rfl
  resolve_symbolic addresses i := Instruction.resolve_ofValues addresses _ _
  encode_symbolic i := by
    rw [Instr.toInstruction, Instruction.encode_ofValues, i.bytes_eq]
    rfl
  descriptor_call _ := rfl
  resolve_call addresses name address h :=
    ⟨_, Instruction.resolve_ofSymbol rfl h, by
      rw [Instruction.encode_ofValues, Instr.bytes_eq, Instr.immediates]
      simp only [Instr.values, Immediate.encode_toInt, ← Immediate.encode_word,
        List.zipWith_cons_cons, Op.descriptor, Op.sizes, Instr.op]⟩
  resolve_call_none addresses name h := Instruction.resolve_ofSymbol_none rfl h
  exec_call _ := rfl
  exec_halt := rfl
  step_eq := Instr.step_eq

end Register

/-! ## The stack machine -/

namespace Stack

theorem get_opcode (op : Op) : table.get? op.opcode = some op.descriptor := by
  cases op with
  | alu op => cases op <;> rfl
  | _ => rfl

/-- The immediates of an instruction as bytes. -/
def Instr.immediates (i : Instr) : Bytes :=
  (i.op.sizes.zipWith Immediate.encode i.values).flatten

theorem Instr.bytes_eq (i : Instr) : i.bytes = i.op.opcode :: i.immediates := by
  cases i <;>
    simp only [Instr.bytes, Instr.immediates, Op.sizes, Instr.op, Instr.values,
      List.zipWith_cons_cons, List.zipWith_nil_left, List.flatten_cons, List.flatten_nil,
      Immediate.encode_toInt, List.append_nil]

theorem Instr.length_immediates (i : Instr) :
    i.immediates.length = i.op.descriptor.immediateLength := by
  cases i <;>
    simp [Instr.immediates, Op.descriptor, Descriptor.immediateLength, Op.sizes, Instr.op,
      Instr.values]

/-- The operand of an instruction is read where its immediate stands. -/
theorem Instr.fetch_eq (i : Instr) {s : State} (h : s.Reads i.immediates) :
    i.op.fetch s = .ok i (s.skip i.immediates.length) := by
  cases i
  case push | call =>
      simp only [Instr.immediates, Op.sizes, Instr.op, Instr.values, List.zipWith_cons_cons,
        List.zipWith_nil_left, List.flatten_cons, List.flatten_nil, Immediate.encode_toInt,
        List.append_nil] at h ⊢
      rw [Op.fetch, Exec.bind_eq (Exec.fetchWord_eq h), length_wordBytes]
      rfl
  all_goals rfl

theorem Instr.step_eq (i : Instr) (s : State) (h : s.Reads i.bytes) :
    table.step s = i.exec (s.skip i.bytes.length) := by
  rw [i.bytes_eq] at h ⊢
  rw [Table.step_eq (d := i.op.descriptor) (get_opcode i.op) h]
  show (i.op.fetch >>= Instr.exec) (s.skip 1) = _
  rw [Exec.bind_eq (i.fetch_eq h.tail), List.length_cons,
    Nat.add_comm, State.skip, State.skip, State.skip, Nat.add_assoc]

instance : InstructionSet Instr where
  table := table
  descriptor i := i.op.descriptor
  bytes := Instr.bytes
  symbolic := Instr.toInstruction
  exec := Instr.exec
  call := .call
  callDescriptor := Op.descriptor .call
  halt := .halt
  get_opcode i := get_opcode i.op
  bytes_eq i := ⟨i.immediates, i.bytes_eq, i.length_immediates⟩
  descriptor_symbolic _ := rfl
  resolve_symbolic addresses i := Instruction.resolve_ofValues addresses _ _
  encode_symbolic i := by
    rw [Instr.toInstruction, Instruction.encode_ofValues, i.bytes_eq]
    rfl
  descriptor_call _ := rfl
  resolve_call addresses name address h :=
    ⟨_, Instruction.resolve_ofSymbol rfl h, by
      rw [Instruction.encode_ofValues, Instr.bytes_eq, Instr.immediates]
      simp only [Instr.values, Immediate.encode_toInt, ← Immediate.encode_word,
        List.zipWith_cons_cons, Op.descriptor, Op.sizes, Instr.op]⟩
  resolve_call_none addresses name h := Instruction.resolve_ofSymbol_none rfl h
  exec_call _ := rfl
  exec_halt := rfl
  step_eq := Instr.step_eq

end Stack

end DualMachine
