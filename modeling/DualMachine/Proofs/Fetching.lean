import DualMachine.Proofs.Decoding
import DualMachine.Proofs.Locality

/-!
# A machine and its disassembler decode alike

The widths of the immediates stand in the descriptors, where the disassembler looks them
up; a machine reads each immediate by the code of its operation. `Exec.Reading` says that
code reads immediates of given widths and nothing else, up to the point where the program
ends. It holds of every operation with the widths of its descriptor
(`Action.fetch_reading`), so a machine finds the instruction that the disassembler lists
first, or fails as it does (`Kind.fetch_cases`).
-/

namespace DualMachine

/-- The bytes from the counter on. -/
def State.remaining (s : State) : Bytes := s.program.toList.drop s.pc

/-- An operand as a machine reads it: a single byte is unsigned. -/
def Operand.reading (size : Nat) : Operand → Int
  | .value v => if size = 1 then v % 256 else v
  | .symbol _ => 0

/-- The operands of an instruction as a machine reads them. -/
def Instruction.readings (i : Instruction) : List Int :=
  i.descriptor.sizes.zipWith Operand.reading i.operands

namespace Operation

def descriptor : Operation → Descriptor
  | .register i => i.op.descriptor
  | .stack i => i.op.descriptor

/-- The operands as integers, in encoding order. -/
def values : Operation → List Int
  | .register i => i.values
  | .stack i => i.values

end Operation

def Action.descriptor : Action → Descriptor
  | .register op => op.descriptor
  | .stack op => op.descriptor

/-- The instruction at the counter is `i`, which a machine takes for `op`: it is what the
disassembler makes of the bytes of `i` and lists first, and when its operands have been
read the counter stands behind it. -/
structure Table.Decodes (t : Table) (s : State) (i : Instruction) (op : Operation) : Prop where
  front : t.disassemble (s.remaining.take i.length) = .ok [i]
  first : ∀ listing, t.disassembleWithOffsets s.remaining = .ok listing →
    ∃ rest, listing = (0, i) :: rest
  descriptor : op.descriptor = i.descriptor
  values : op.values = i.readings
  fetch : t.fetch s = .ok op (s.skip i.length)

/-! ## Reading immediates -/

namespace Exec

variable {α β : Type}

/-- The immediates of the given widths at the front of `bytes` as a machine reads them. -/
def readings (sizes : List Nat) (bytes : Bytes) : List Int :=
  sizes.zipWith Operand.reading (Table.decodeImmediates sizes bytes)

/-- Reads immediates of the given widths and nothing else. What comes of it is related by `Q`
to the values read, those `taken` before included; the only fault is that the program ends
too early. -/
def Reading (x : Exec α) (sizes : List Nat) (taken : List Int) (Q : α → List Int → Prop) : Prop :=
  ∀ s : State,
    (∀ immediates, s.Reads immediates → immediates.length = sizes.foldr (· + ·) 0 →
      ∃ a, x s = .ok a (s.skip immediates.length) ∧ Q a (taken ++ readings sizes immediates)) ∧
    (s.pc ≤ s.program.size → s.program.size < s.pc + sizes.foldr (· + ·) 0 →
      ∃ pc s', x s = .error (.truncatedInstruction pc) s')

theorem readings_byte (b : UInt8) (sizes : List Nat) (rest : Bytes) :
    readings (1 :: sizes) (b :: rest) = (b.toNat : Int) :: readings sizes rest := by
  have hb := b.toNat_lt
  have hvalue : Immediate.decode 1 (b :: rest) % 256 = b.toNat := by
    have hmod : (b.toNat : Int).bmod 256 % (256 : Nat) = b.toNat % (256 : Nat) := Int.bmod_emod
    rw [Immediate.decode_eq (by decide), Immediate.normalize_eq_bmod (by decide)]
    show (b.toNat : Int).bmod 256 % 256 = b.toNat
    omega
  simp only [readings, Table.decodeImmediates, List.zipWith_cons_cons, Operand.reading, if_true,
    hvalue, List.drop_one, List.tail_cons]

theorem readings_word (w : Word) (sizes : List Nat) (rest : Bytes) :
    readings (4 :: sizes) (wordBytes w ++ rest) = w.toInt :: readings sizes rest := by
  have hlength := length_wordBytes w
  have htake : (wordBytes w ++ rest).take 4 = wordBytes w := by rw [← hlength, List.take_left]
  have hdrop : (wordBytes w ++ rest).drop 4 = rest := by rw [← hlength, List.drop_left]
  have hvalue : Immediate.decode 4 (wordBytes w ++ rest) = w.toInt := by
    rw [Immediate.decode, htake, ofNat_wordBytes]
  simp only [readings, Table.decodeImmediates, List.zipWith_cons_cons, Operand.reading, hvalue,
    hdrop]
  simp

namespace Reading

variable {sizes : List Nat} {taken : List Int} {Q : α → List Int → Prop}

protected theorem pure {a : α} (h : Q a taken) : Reading (pure a) [] taken Q := by
  intro s
  refine ⟨fun immediates _ hlength => ?_, fun hle hlt => ?_⟩
  · obtain rfl := List.length_eq_zero_iff.mp hlength
    exact ⟨a, rfl, by simpa [readings, Table.decodeImmediates] using h⟩
  · simp only [List.foldr_nil] at hlt
    omega

theorem map {x : Exec α} {g : α → β} {P : β → List Int → Prop} (hx : Reading x sizes taken Q)
    (h : ∀ a values, Q a values → P (g a) values) :
    Reading (x >>= fun a => pure (g a)) sizes taken P := by
  intro s
  refine ⟨fun immediates hreads hlength => ?_, fun hle hlt => ?_⟩
  · obtain ⟨a, ha, hQ⟩ := (hx s).1 immediates hreads hlength
    exact ⟨g a, bind_eq ha _, h a _ hQ⟩
  · obtain ⟨pc, s', hfault⟩ := (hx s).2 hle hlt
    exact ⟨pc, s', bind_error_eq hfault _⟩

theorem byte {f : UInt8 → Exec α} (hf : ∀ b, Reading (f b) sizes (taken ++ [(b.toNat : Int)]) Q) :
    Reading (fetchByte >>= f) (1 :: sizes) taken Q := by
  intro s
  rw [List.foldr_cons]
  refine ⟨fun immediates hreads hlength => ?_, fun hle hlt => ?_⟩
  · cases immediates with
    | nil => simp only [List.length_nil] at hlength; omega
    | cons b rest =>
        rw [List.length_cons] at hlength
        obtain ⟨a, ha, hQ⟩ := (hf b (s.skip 1)).1 rest hreads.tail (by omega)
        refine ⟨a, ?_, ?_⟩
        · rw [bind_eq (fetchByte_eq hreads), ha]
          simp only [State.skip, List.length_cons, Nat.add_assoc, Nat.add_comm 1]
        · rwa [readings_byte, List.append_cons]
  · cases hbyte : s.program[s.pc]? with
    | none =>
        refine ⟨s.pc, s, ?_⟩
        rw [fetchByte, bind_assoc, get_bind_eq]
        simp only [hbyte]
        rfl
    | some b =>
        have hfetch : fetchByte s = .ok b (s.skip 1) := by
          rw [fetchByte, get_bind_eq]
          simp only [hbyte]
          rfl
        have hpc : s.pc < s.program.size := (Array.getElem?_eq_some_iff.mp hbyte).1
        obtain ⟨pc, s', hfault⟩ := (hf b (s.skip 1)).2 hpc (by simp only [State.skip]; omega)
        exact ⟨pc, s', by rw [bind_eq hfetch, hfault]⟩

theorem word {f : Word → Exec α} (hf : ∀ w, Reading (f w) sizes (taken ++ [w.toInt]) Q) :
    Reading (fetchWord >>= f) (4 :: sizes) taken Q := by
  intro s
  rw [List.foldr_cons]
  refine ⟨fun immediates hreads hlength => ?_, fun hle hlt => ?_⟩
  · obtain ⟨w, rest, rfl⟩ : ∃ w rest, immediates = wordBytes w ++ rest := by
      refine ⟨Int32.ofInt (Immediate.decode 4 immediates), immediates.drop 4, ?_⟩
      rw [← Immediate.encode_word, Immediate.encode_decode (by decide) (by omega),
        List.take_append_drop]
    rw [List.length_append, length_wordBytes] at hlength
    have hrest : (s.skip 4).Reads rest := by
      have := hreads.right
      rwa [length_wordBytes] at this
    obtain ⟨a, ha, hQ⟩ := (hf w (s.skip 4)).1 rest hrest (by omega)
    refine ⟨a, ?_, ?_⟩
    · rw [bind_eq (fetchWord_eq hreads.left), ha]
      simp only [State.skip, List.length_append, length_wordBytes, Nat.add_assoc]
    · rwa [readings_word, List.append_cons]
  · by_cases hfour : s.pc + 4 ≤ s.program.size
    · have hfetch : ∃ w, fetchWord s = .ok w (s.skip 4) := by
        rw [fetchWord, get_bind_eq, if_pos hfour]
        exact ⟨_, rfl⟩
      obtain ⟨w, hfetch⟩ := hfetch
      obtain ⟨pc, s', hfault⟩ := (hf w (s.skip 4)).2 hfour (by simp only [State.skip]; omega)
      exact ⟨pc, s', by rw [bind_eq hfetch, hfault]⟩
    · refine ⟨s.pc, s, ?_⟩
      rw [fetchWord, bind_assoc, get_bind_eq, if_neg hfour]
      rfl

end Reading

end Exec

open Exec (Reading)

theorem Register.Op.fetch_reading (op : Register.Op) :
    Reading op.fetch op.sizes [] fun i values => i.op = op ∧ i.values = values := by
  cases op with
  | mov => exact .byte fun _ => .word fun _ => .pure ⟨rfl, rfl⟩
  | alu op => exact .byte fun _ => .byte fun _ => .byte fun _ => .pure ⟨rfl, rfl⟩
  | not => exact .byte fun _ => .byte fun _ => .pure ⟨rfl, rfl⟩
  | jump => exact .word fun _ => .pure ⟨rfl, rfl⟩
  | cjump => exact .byte fun _ => .word fun _ => .pure ⟨rfl, rfl⟩
  | load => exact .byte fun _ => .byte fun _ => .byte fun _ => .pure ⟨rfl, rfl⟩
  | store => exact .byte fun _ => .byte fun _ => .byte fun _ => .pure ⟨rfl, rfl⟩
  | dup => exact .byte fun _ => .byte fun _ => .pure ⟨rfl, rfl⟩
  | call => exact .word fun _ => .pure ⟨rfl, rfl⟩
  | ret => exact .pure ⟨rfl, rfl⟩
  | swap => exact .byte fun _ => .byte fun _ => .pure ⟨rfl, rfl⟩
  | halt => exact .pure ⟨rfl, rfl⟩

theorem Stack.Op.fetch_reading (op : Stack.Op) :
    Reading op.fetch op.sizes [] fun i values => i.op = op ∧ i.values = values := by
  cases op with
  | push => exact .word fun _ => .pure ⟨rfl, rfl⟩
  | call => exact .word fun _ => .pure ⟨rfl, rfl⟩
  | _ => exact .pure ⟨rfl, rfl⟩

/-- The code of an operation reads the immediates that its descriptor declares. -/
theorem Action.fetch_reading (a : Action) :
    Reading a.fetch a.descriptor.sizes []
      fun op values => op.descriptor = a.descriptor ∧ op.values = values := by
  cases a with
  | register op =>
      refine op.fetch_reading.map fun i values h => ?_
      exact ⟨congrArg Register.Op.descriptor h.1, h.2⟩
  | stack op =>
      refine op.fetch_reading.map fun i values h => ?_
      exact ⟨congrArg Stack.Op.descriptor h.1, h.2⟩

/-! ## Decoding an instruction -/

theorem Kind.descriptor_action {kind : Kind} {d : Descriptor} (h : d ∈ kind.table.descriptors) :
    d.action.descriptor = d := by
  cases kind with
  | register =>
      obtain ⟨op, -, rfl⟩ := List.mem_map.mp (Register.descriptors_table ▸ h)
      rfl
  | stack =>
      obtain ⟨op, -, rfl⟩ := List.mem_map.mp (Stack.descriptors_table ▸ h)
      rfl

namespace Table

variable {t : Table} {bytes : Bytes}

theorem disassemble_error {e : AsmError} (h : t.disassembleWithOffsets bytes = .error e) :
    t.disassemble bytes = .error e := by
  rw [disassemble, h]
  rfl

theorem disassemble_ok {listing : List (Nat × Instruction)}
    (h : t.disassembleWithOffsets bytes = .ok listing) :
    t.disassemble bytes = .ok (listing.map (·.2)) := by
  rw [disassemble, h]
  rfl

/-- Disassembly that has passed an instruction does not fail at the front any more. -/
theorem not_error_at_front {entry : Nat × Instruction} {offset : Nat} {rest : Bytes}
    (hoffset : 0 < offset)
    (h : t.disassembleWithOffsets bytes = ((entry :: ·) <$> t.decodeFrom offset rest)) :
    (∀ opcode, t.disassemble bytes ≠ .error (.unknownOpcode opcode 0)) ∧
      ∀ name, t.disassemble bytes ≠ .error (.truncatedInstruction name 0) := by
  obtain ⟨listing, p, after, -, -, -, -, hstops⟩ := t.decodeFrom_cases offset rest
  generalize t.decodeFrom offset rest = answer at hstops h
  cases hstops with
  | finished =>
      rw [disassemble_ok h]
      exact ⟨by rintro _ ⟨⟩, by rintro _ ⟨⟩⟩
  | unknown =>
      rw [disassemble_error h]
      refine ⟨fun opcode heq => ?_, by rintro _ ⟨⟩⟩
      injection heq with heq
      injection heq with _ heq
      omega
  | truncated =>
      rw [disassemble_error h]
      refine ⟨by rintro _ ⟨⟩, fun name heq => ?_⟩
      injection heq with heq
      injection heq with _ heq
      omega

end Table

namespace Kind

variable {kind : Kind} {s : State}

/-- A whole instruction at the counter is decoded by the machine as by the disassembler. -/
theorem decodes {d : Descriptor} (hd : kind.table.get? d.opcode = some d)
    {immediates after : Bytes} (hlength : immediates.length = d.immediateLength)
    (hbytes : s.remaining = d.opcode :: (immediates ++ after)) :
    ∃ op, kind.table.Decodes s ⟨d, Table.decodeImmediates d.sizes immediates⟩ op := by
  have hreads : s.Reads (d.opcode :: (immediates ++ after)) := by
    rw [← hbytes]
    exact List.prefix_rfl
  have hread := d.action.fetch_reading (s.skip 1)
  rw [descriptor_action (Table.get?_mem hd)] at hread
  obtain ⟨op, hop, hdescriptor, hvalues⟩ := hread.1 immediates hreads.tail.left hlength
  refine ⟨op, ?_, ?_, hdescriptor, hvalues, ?_⟩
  · have hfront : s.remaining.take d.length = d.opcode :: (immediates ++ []) := by
      rw [hbytes, Descriptor.length, ← hlength, Nat.add_comm, List.take_succ_cons,
        List.take_left, List.append_nil]
    have hlisting := Table.decodeFrom_instruction hd hlength 0 []
    rw [Table.decodeFrom] at hlisting
    exact Table.disassemble_ok (hfront ▸ hlisting)
  · intro listing hlisting
    rw [Table.disassembleWithOffsets, hbytes, Table.decodeFrom_instruction hd hlength] at hlisting
    cases hafter : kind.table.decodeFrom (0 + d.length) after with
    | error e => rw [hafter] at hlisting; cases hlisting
    | ok rest =>
        rw [hafter] at hlisting
        exact ⟨rest, (Except.ok.inj hlisting).symm⟩
  · rw [Table.fetch_eq hd hreads, hop]
    simp only [State.skip, Instruction.length, Descriptor.length, hlength, Nat.add_assoc]

/-- Where an instruction is left to fetch, a machine and the disassembler find the same one or
fail alike. -/
theorem fetch_cases (kind : Kind) (hpc : s.pc < s.program.size) :
    (∃ opcode s', kind.table.fetch s = .error (.unknownOpcode opcode s.pc) s' ∧
      kind.table.disassemble s.remaining = .error (.unknownOpcode opcode 0)) ∨
    (∃ pc s' name, kind.table.fetch s = .error (.truncatedInstruction pc) s' ∧
      kind.table.disassemble s.remaining = .error (.truncatedInstruction name 0)) ∨
    ∃ i op, kind.table.Decodes s i op ∧
      (∀ opcode, kind.table.disassemble s.remaining ≠ .error (.unknownOpcode opcode 0)) ∧
      ∀ name, kind.table.disassemble s.remaining ≠ .error (.truncatedInstruction name 0) := by
  have hsize : s.remaining.length = s.program.size - s.pc := by
    rw [State.remaining, List.length_drop, Array.length_toList]
  obtain ⟨opcode, rest, hbytes⟩ : ∃ opcode rest, s.remaining = opcode :: rest := by
    refine List.exists_cons_of_length_pos ?_
    omega
  rw [hbytes, List.length_cons] at hsize
  have hreads : s.Reads (opcode :: rest) := by
    rw [← hbytes]
    exact List.prefix_rfl
  cases hd : kind.table.get? opcode with
  | none =>
      refine .inl ⟨opcode, s.skip 1, ?_, ?_⟩
      · rw [Table.fetch, Exec.get_bind_eq, Exec.bind_eq (Exec.fetchByte_eq hreads)]
        simp only [hd]
        rfl
      · exact Table.disassemble_error (hbytes ▸ Table.decodeFrom_unknown hd 0 rest)
  | some d =>
      obtain ⟨hmem, rfl⟩ := Table.get?_eq_some_iff.mp hd
      by_cases hlt : rest.length < d.immediateLength
      · have hread := d.action.fetch_reading (s.skip 1)
        rw [descriptor_action hmem] at hread
        obtain ⟨pc, s', hfault⟩ := hread.2 hpc (by
          show s.program.size < s.pc + 1 + d.immediateLength
          omega)
        refine .inr (.inl ⟨pc, s', d.name, (Table.fetch_eq hd hreads).trans hfault, ?_⟩)
        exact Table.disassemble_error (hbytes ▸ Table.decodeFrom_truncated hd hlt 0)
      · obtain ⟨immediates, after, rfl, hlength⟩ :
            ∃ immediates after, rest = immediates ++ after ∧
              immediates.length = d.immediateLength := by
          refine ⟨rest.take d.immediateLength, rest.drop d.immediateLength,
            (List.take_append_drop ..).symm, ?_⟩
          rw [List.length_take]
          omega
        obtain ⟨op, hop⟩ := decodes hd hlength hbytes
        refine .inr (.inr ⟨_, op, hop, ?_⟩)
        have hlisting := Table.decodeFrom_instruction hd hlength 0 after
        have hpos : 0 < 0 + d.length := by
          rw [Descriptor.length]
          omega
        rw [← hbytes] at hlisting
        exact Table.not_error_at_front hpos hlisting

end Kind

/-- A step faults as decoding does exactly when decoding faults. -/
theorem Table.step_error_iff {t : Table} {fault : Fault} {s s' : State}
    (h : fault.ofDecoding = true) :
    t.step s = .error fault s' ↔ t.fetch s = .error fault s' := by
  rw [step_eq_fetch]
  constructor
  · intro hstep
    rcases bind_error_cases hstep with hfetch | ⟨op, s₁, -, hexec⟩
    · exact hfetch
    · rw [Operation.exec_error hexec] at h
      cases h
  · exact fun hfetch => Exec.bind_error_eq hfetch _

/-- A machine with an instruction left to fetch decodes it as the disassembler does. It finds an
unknown opcode or too few bytes exactly when disassembly of what is left fails so at the front.
Otherwise it reads the operands of the instruction that is disassembled there, and carries it
out with the counter behind it: an instruction that does not transfer control leaves it there,
a branch that is taken goes by its offset from there, and a call pushes that position. -/
theorem decoding_agrees (kind : Kind) {s : State} (hpc : s.pc < s.program.size) :
    (∀ opcode, (∃ pc s', kind.table.step s = .error (.unknownOpcode opcode pc) s') ↔
      kind.table.disassemble s.remaining = .error (.unknownOpcode opcode 0)) ∧
    ((∃ pc s', kind.table.step s = .error (.truncatedInstruction pc) s') ↔
      ∃ name, kind.table.disassemble s.remaining = .error (.truncatedInstruction name 0)) ∧
    ((∀ opcode, kind.table.disassemble s.remaining ≠ .error (.unknownOpcode opcode 0)) →
      (∀ name, kind.table.disassemble s.remaining ≠ .error (.truncatedInstruction name 0)) →
      ∃ i op, kind.table.Decodes s i op ∧ kind.table.step s = op.exec (s.skip i.length) ∧
        ∀ s', kind.table.step s = .ok () s' →
          (op.role ∉ [.jump, .branch, .call, .ret, .halt] → s'.pc = s.pc + i.length) ∧
          (∀ offset, op.taken? s.holder = some offset →
            (s'.pc : Int) = (s.pc + i.length : Nat) + offset.toInt) ∧
          (op.role = .branch → op.taken? s.holder = none → s'.pc = s.pc + i.length) ∧
          (op.role = .call → s'.calls = (s.pc + i.length) :: s.calls)) := by
  simp only [Table.step_error_iff (show Fault.ofDecoding (.unknownOpcode _ _) = true from rfl),
    Table.step_error_iff (show Fault.ofDecoding (.truncatedInstruction _) = true from rfl)]
  rcases kind.fetch_cases hpc with ⟨opcode, s₁, hfetch, herror⟩ | ⟨pc, s₁, name, hfetch, herror⟩ |
    ⟨i, op, hdecodes, hknown, hwhole⟩
  · rw [hfetch, herror]
    refine ⟨fun other => ⟨?_, ?_⟩, ⟨?_, ?_⟩, fun hknown => absurd rfl (hknown opcode)⟩
    · rintro ⟨_, _, ⟨⟩⟩
      rfl
    · rintro ⟨⟩
      exact ⟨s.pc, s₁, rfl⟩
    · rintro ⟨_, _, ⟨⟩⟩
    · rintro ⟨_, ⟨⟩⟩
  · rw [hfetch, herror]
    refine ⟨fun other => ⟨?_, ?_⟩, ⟨fun _ => ⟨name, rfl⟩, fun _ => ⟨pc, s₁, rfl⟩⟩,
      fun _ hwhole => absurd rfl (hwhole name)⟩
    · rintro ⟨_, _, ⟨⟩⟩
    · rintro ⟨⟩
  · rw [hdecodes.fetch]
    refine ⟨fun opcode => ⟨?_, fun h => absurd h (hknown opcode)⟩,
      ⟨?_, fun ⟨name, h⟩ => absurd h (hwhole name)⟩, fun _ _ => ⟨i, op, hdecodes, ?_⟩⟩
    · rintro ⟨_, _, ⟨⟩⟩
    · rintro ⟨_, _, ⟨⟩⟩
    have hstep : kind.table.step s = op.exec (s.skip i.length) := by
      rw [Table.step_eq_fetch, Exec.bind_eq hdecodes.fetch]
    refine ⟨hstep, fun s' hok => ?_⟩
    rw [hstep] at hok
    obtain ⟨hstraight, hrelative⟩ := Operation.exec_pc hok
    refine ⟨fun hrole => hstraight ?_, fun offset htaken => ?_, fun hrole htaken => ?_,
      fun hrole => ?_⟩
    · cases hop : op.role <;> simp [hop] at hrole <;> rfl
    · rw [hrelative (Operation.relative_of_taken? htaken)]
      simp only [State.skip, htaken, Option.elim_some]
    · have hmoved := hrelative (by rw [hrole]; rfl)
      simp only [State.skip, htaken, Option.elim_none] at hmoved
      omega
    · rcases Operation.exec_calls hok with ⟨-, hcalls⟩ | ⟨hret, -⟩ | ⟨hcall, -⟩
      · exact hcalls
      · rw [hrole] at hret
        cases hret
      · exact absurd hrole hcall

/-- A register machine before a branch by 2 on register 1, which holds 7. -/
def branching : State :=
  { State.initial (.registers #[0, 7]) [21, 10, 1, 2, 0, 0, 0, 13, 0, 1] with pc := 1 }

theorem decoding_agrees_branching :
    branching.pc < branching.program.size ∧
    ∃ i, Kind.register.table.Decodes branching i (.register (.cjump 1 2)) ∧
      ∀ s', Kind.register.table.step branching = .ok () s' → s'.pc = 9 := by
  have hpc : branching.pc < branching.program.size := by decide
  have hlisting : Kind.register.table.disassembleWithOffsets branching.remaining = _ :=
    Table.decodeFrom_instruction (Register.get_opcode .cjump)
      (show [1, 2, 0, 0, 0].length = 5 from rfl) 0 [13, 0, 1]
  have hfront := Table.not_error_at_front (by decide) hlisting
  obtain ⟨i, op, hdecodes, -, hmoves⟩ :=
    (decoding_agrees .register hpc).2.2 hfront.1 hfront.2
  have hfetch : Kind.register.table.fetch branching
      = .ok (.register (.cjump 1 2)) (branching.skip 6) := rfl
  obtain ⟨rfl, hskip⟩ := EStateM.Result.ok.inj (hdecodes.fetch.symm.trans hfetch)
  have hlength : 1 + i.length = 1 + 6 := congrArg State.pc hskip
  refine ⟨hpc, i, hdecodes, fun s' hok => ?_⟩
  have htaken : (s'.pc : Int) = (1 + i.length : Nat) + 2 := (hmoves s' hok).2.1 2 rfl
  omega

end DualMachine
