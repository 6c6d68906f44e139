import Mathlib
import DualMachine.Assembly.Decoder
import DualMachine.Vm

/-!
# Programs as instructions

A machine runs bytes; its code generators and their proofs speak of instructions.
`InstructionSet` says what the two have to do with each other: how an instruction
is written, that its bytes are decoded to it and that a step at its bytes carries
it out. Both machines are instances.

For a program that is the encoding of `code`, `CodeAt code pc part` places `part` at
byte `pc`, and `Trace code n s s'` are `n` successful steps, each from the first
byte of an instruction of `code`. A trace is what a run does (`Trace.runFrom`), and two traces
from one state agree as far as both go (`Trace.split`).
-/

namespace DualMachine

namespace State

/-- The state with its counter moved on. -/
def skip (s : State) (count : Nat) : State := { s with pc := s.pc + count }

/-- The bytes from the counter on start with `bs`. -/
def Reads (s : State) (bs : Bytes) : Prop := bs <+: s.program.toList.drop s.pc

theorem Reads.left {s : State} {a b : Bytes} (h : s.Reads (a ++ b)) : s.Reads a :=
  (List.prefix_append a b).trans h

theorem Reads.right {s : State} {a b : Bytes} (h : s.Reads (a ++ b)) :
    (s.skip a.length).Reads b := by
  obtain ⟨rest, hrest⟩ := h
  refine ⟨rest, ?_⟩
  show b ++ rest = s.program.toList.drop (s.pc + a.length)
  rw [← List.drop_drop, ← hrest, List.append_assoc, List.drop_left]

theorem Reads.tail {s : State} {b : UInt8} {bs : Bytes} (h : s.Reads (b :: bs)) :
    (s.skip 1).Reads bs :=
  Reads.right (a := [b]) h

end State

/-- The instructions of one machine, with their encoding and their effect. -/
class InstructionSet (ι : Type) where
  table : Table
  descriptor : ι → Descriptor
  bytes : ι → Bytes
  /-- The instruction in the form that code generators emit. -/
  symbolic : ι → Instruction
  exec : ι → Exec Unit
  /-- The instruction that calls an absolute position. -/
  call : Word → ι
  callDescriptor : Descriptor
  halt : ι
  get_opcode : ∀ i, table.get? (descriptor i).opcode = some (descriptor i)
  /-- An opcode, then the immediates. -/
  bytes_eq : ∀ i, ∃ immediates, bytes i = (descriptor i).opcode :: immediates
    ∧ immediates.length = (descriptor i).immediateLength
  descriptor_symbolic : ∀ i, (symbolic i).descriptor = descriptor i
  resolve_symbolic : ∀ addresses i, (symbolic i).resolve addresses = (symbolic i, none)
  encode_symbolic : ∀ i, (symbolic i).encode = .ok (bytes i)
  descriptor_call : ∀ w, descriptor (call w) = callDescriptor
  /-- A named call becomes a call of the name's address. -/
  resolve_call : ∀ addresses name address, addresses name = some address →
    ∃ resolved, (Instruction.ofSymbol callDescriptor name).resolve addresses = (resolved, none)
      ∧ resolved.encode = .ok (bytes (call (Int32.ofInt address)))
  /-- A named call without an address is reported. -/
  resolve_call_none : ∀ addresses name, addresses name = none →
    ((Instruction.ofSymbol callDescriptor name).resolve addresses).2 = some name
  exec_call : ∀ target, exec (call target) = Exec.call target
  exec_halt : exec halt = Exec.halt
  /-- A step at the first byte of an instruction carries it out. -/
  step_eq : ∀ i (s : State), s.Reads (bytes i) →
    table.step s = exec i (s.skip (bytes i).length)

section

variable {ι : Type} [InstructionSet ι]

open InstructionSet

/-! ## Code and its length -/

/-- Length of an instruction in bytes. -/
def width (i : ι) : Nat := (bytes i).length

theorem width_eq (i : ι) : width i = (descriptor i).length := by
  obtain ⟨immediates, hbytes, hlen⟩ := bytes_eq i
  rw [width, hbytes, List.length_cons, hlen, Descriptor.length, Nat.add_comm]

theorem width_pos (i : ι) : 0 < width i := by
  rw [width_eq, Descriptor.length]
  omega

/-- The bytes of a sequence of instructions. -/
def codeBytes (code : List ι) : Bytes := code.flatMap bytes

/-- Length of a sequence of instructions in bytes. -/
def codeLength (code : List ι) : Nat := (code.map width).sum

@[simp] theorem codeLength_nil : codeLength ([] : List ι) = 0 := rfl

@[simp] theorem codeLength_cons (i : ι) (code : List ι) :
    codeLength (i :: code) = width i + codeLength code := by
  simp [codeLength]

@[simp] theorem codeLength_append (a b : List ι) :
    codeLength (a ++ b) = codeLength a + codeLength b := by
  simp [codeLength]

@[simp] theorem codeBytes_append (a b : List ι) :
    codeBytes (a ++ b) = codeBytes a ++ codeBytes b := by
  simp [codeBytes]

theorem codeBytes_cons (i : ι) (code : List ι) :
    codeBytes (i :: code) = bytes i ++ codeBytes code := by
  simp [codeBytes]

@[simp] theorem length_codeBytes (code : List ι) :
    (codeBytes code).length = codeLength code := by
  simp only [codeBytes, codeLength, List.length_flatMap]
  rfl

/-! ## Parts of a program -/

/-- The instructions `part` stand in `code` from byte `pc` on. -/
def CodeAt (code : List ι) (pc : Nat) (part : List ι) : Prop :=
  ∃ before after, code = before ++ part ++ after ∧ pc = codeLength before

namespace CodeAt

variable {code a b : List ι} {pc : Nat} {i : ι}

theorem left (h : CodeAt code pc (a ++ b)) : CodeAt code pc a := by
  obtain ⟨before, after, rfl, rfl⟩ := h
  exact ⟨before, b ++ after, by simp, rfl⟩

theorem right (h : CodeAt code pc (a ++ b)) : CodeAt code (pc + codeLength a) b := by
  obtain ⟨before, after, rfl, rfl⟩ := h
  exact ⟨before ++ a, after, by simp, by simp⟩

theorem head (h : CodeAt code pc (i :: a)) : CodeAt code pc [i] :=
  left (a := [i]) h

theorem tail (h : CodeAt code pc (i :: a)) : CodeAt code (pc + width i) a := by
  have := right (a := [i]) h
  rwa [codeLength_cons, codeLength_nil, Nat.add_zero] at this

theorem end_le (h : CodeAt code pc a) : pc + codeLength a ≤ codeLength code := by
  obtain ⟨before, after, rfl, rfl⟩ := h
  simp only [codeLength_append]
  omega

theorem bytes_prefix (h : CodeAt code pc [i]) : bytes i <+: (codeBytes code).drop pc := by
  obtain ⟨before, after, rfl, rfl⟩ := h
  refine ⟨codeBytes after, ?_⟩
  rw [List.append_assoc, codeBytes_append, List.singleton_append, codeBytes_cons,
    ← length_codeBytes, List.drop_left]

end CodeAt

/-! ## Steps -/

/-- The counter of a state that runs `code` is at the first byte of `i`. -/
structure At (code : List ι) (i : ι) (s : State) : Prop where
  program : s.program = (codeBytes code).toArray
  code : CodeAt code s.pc [i]

theorem At.reads {code : List ι} {i : ι} {s : State} (h : At code i s) : s.Reads (bytes i) := by
  rw [State.Reads, h.program]
  exact h.code.bytes_prefix

theorem At.step_eq {code : List ι} {i : ι} {s : State} (h : At code i s) :
    (table ι).step s = exec i (s.skip (width i)) :=
  InstructionSet.step_eq i s h.reads

theorem At.running {code : List ι} {i : ι} {s : State} (h : At code i s) :
    s.running = true := by
  have hend := h.code.end_le
  have hpos := width_pos i
  rw [codeLength_cons, codeLength_nil] at hend
  rw [State.running, h.program, decide_eq_true_eq, List.size_toArray, length_codeBytes]
  omega

/-- Successful steps, each from the first byte of an instruction. -/
inductive Trace (code : List ι) : Nat → State → State → Prop where
  | refl (s : State) : Trace code 0 s s
  | step {n : Nat} {i : ι} {s s' s'' : State} (hat : At code i s)
      (hexec : exec i (s.skip (width i)) = .ok () s') (rest : Trace code n s' s'') :
      Trace code (n + 1) s s''

/-- The step from a state raises a fault. -/
def Faults (code : List ι) (fault : Fault) (s : State) : Prop :=
  ∃ i s', At code i s ∧ exec i (s.skip (width i)) = .error fault s'

namespace Trace

variable {code : List ι} {n k : Nat} {i : ι} {s s' s'' : State}

theorem one (hat : At code i s) (hexec : exec i (s.skip (width i)) = .ok () s') :
    Trace code 1 s s' :=
  .step hat hexec (.refl s')

theorem trans (h : Trace code n s s') (h' : Trace code k s' s'') :
    Trace code (n + k) s s'' := by
  induction h with
  | refl s => rwa [Nat.zero_add]
  | @step m i s t s' hat hexec rest ih =>
      rw [Nat.add_right_comm]
      exact .step hat hexec (ih h')

/-- Of two traces from one state, the longer goes through the end of the other. -/
theorem split (h : Trace code n s s') (h' : Trace code k s s'') (hle : n ≤ k) :
    Trace code (k - n) s' s'' := by
  induction h generalizing k with
  | refl s => exact h'
  | @step m i s t s' hat hexec rest ih =>
      cases h' with
      | refl s => omega
      | @step j i' s t' s'' hat' hexec' rest' =>
          -- the instructions may have been found in different ways, but a state has one step
          have hboth := hexec.symm.trans ((hat.step_eq.symm.trans hat'.step_eq).trans hexec')
          obtain ⟨-, rfl⟩ := EStateM.Result.ok.inj hboth
          rw [Nat.add_sub_add_right]
          exact ih rest' (by omega)

/-- A run goes through every trace for which there are steps left. -/
theorem runFrom (h : Trace code n s s') (limit executed : Nat) :
    (table ι).runFrom (n + limit) executed s
      = (table ι).runFrom limit (executed + n) s' := by
  induction h generalizing executed with
  | refl s => rw [Nat.zero_add, Nat.add_zero]
  | @step m i s t s' hat hexec rest ih =>
      rw [Nat.add_right_comm, Table.runFrom, if_pos hat.running, hat.step_eq, hexec]
      dsimp only
      rw [ih, Nat.add_assoc, Nat.add_comm 1 m]

end Trace

end

end DualMachine
