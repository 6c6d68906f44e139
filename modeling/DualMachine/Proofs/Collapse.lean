import DualMachine.Proofs.Acceptance
import DualMachine.Proofs.Assembly
import DualMachine.Proofs.Frames

/-!
# Programs of finished sessions

Finishing a session lays the functions that the entry point needs one after the other,
behind a call of the entry point and a halt, and puts offsets in place of names. Here this is
said of any session whose functions a backend has compiled, without a look at what the
functions do.

* A name without an offset is the only thing that can go wrong, and it is a name that one of
  the laid out instructions calls (`Link.collapse_cases`). Functions that are needed and
  compiled are laid out, so it is a name that no function has (`Session.Dangling`).
* The offsets are found by adding up lengths before any name is resolved. Each function gets
  the offset at which its code stands in the end, and every byte behind the preamble belongs to
  one function (`Link.place_partition`, `Link.encodeAll_slice`).
-/

namespace DualMachine

open Source

/-! ## Names and offsets -/

/-- The operand, with the offset of a name in place of the name where there is one. -/
def Operand.placed (offset? : String → Option Int) : Operand → Operand
  | .value v => .value v
  | .symbol name => (offset? name).elim (.symbol name) .value

/-- The instruction, with offsets in place of names. -/
def Instruction.placed (offset? : String → Option Int) (i : Instruction) : Instruction :=
  { i with operands := i.operands.map (Operand.placed offset?) }

/-- What a word keeps of the offset of a name. -/
def Link.wordOffset? (symbols : List (String × Nat)) (name : String) : Option Int :=
  (address? symbols name).map (Immediate.normalize 4)

namespace Instruction

theorem totalLength_map_placed (offset? : String → Option Int) (code : List Instruction) :
    totalLength (code.map (placed offset?)) = totalLength code := by
  rw [totalLength, List.map_map]
  rfl

/-- Operands are resolved up to the first name that has no address, if there is one. -/
theorem resolveOperands_cases (addresses : String → Option Int) {sizes : List Nat}
    {operands : List Operand} (h : List.Forall₂ Operand.Suits sizes operands) :
    (∃ name ∈ operands.filterMap Operand.symbol?, addresses name = none ∧
      (resolveOperands addresses sizes operands).2 = some name) ∨
    (∀ name ∈ operands.filterMap Operand.symbol?, (addresses name).isSome) ∧
      resolveOperands addresses sizes operands = (operands.map
        (Operand.placed fun name => (addresses name).map (Immediate.normalize 4)), none) := by
  induction h with
  | nil => exact .inr ⟨by simp, rfl⟩
  | @cons size operand sizes operands hoperand _ ih =>
      cases operand with
      | value v =>
          rcases ih with ⟨name, hname, hnone, hmissing⟩ | ⟨hnamed, hresolved⟩
          · exact .inl ⟨name, hname, hnone, hmissing⟩
          · refine .inr ⟨hnamed, ?_⟩
            rw [resolveOperands, hresolved]
            rfl
      | symbol name =>
          cases haddress : addresses name with
          | none =>
              refine .inl ⟨name, List.mem_cons_self, haddress, ?_⟩
              rw [resolveOperands, haddress]
          | some address =>
              obtain rfl : size = 4 := hoperand
              have hfirst : resolveOperands addresses (4 :: sizes) (.symbol name :: operands)
                  = (.value (Immediate.normalize 4 address)
                        :: (resolveOperands addresses sizes operands).1,
                      (resolveOperands addresses sizes operands).2) := by
                rw [resolveOperands, haddress]
              rw [hfirst]
              rcases ih with ⟨missing, hname, hnone, hmissing⟩ | ⟨hnamed, hresolved⟩
              · exact .inl ⟨missing, List.mem_cons_of_mem _ hname, hnone, hmissing⟩
              · refine .inr ⟨List.forall_mem_cons.mpr ⟨by rw [haddress]; rfl, hnamed⟩, ?_⟩
                rw [hresolved, List.map_cons, Operand.placed, haddress]
                rfl

end Instruction

namespace Link

variable {t : Table} (symbols : List (String × Nat))

/-- An instruction is resolved, or one of its names has no offset. -/
theorem resolveCalls_cases {i : Instruction} (h : t.Admits i) :
    (∃ name ∈ i.symbols, symbols.lookup name = none ∧
      resolveCalls symbols i = .error (.undefinedFunction name)) ∨
    (∀ name ∈ i.symbols, (symbols.lookup name).isSome) ∧
      resolveCalls symbols i = .ok (i.placed (wordOffset? symbols)) := by
  have haddress : ∀ name, (address? symbols name).isSome = (symbols.lookup name).isSome :=
    fun name => Option.isSome_map
  rcases Instruction.resolveOperands_cases (address? symbols) h.operands with
    ⟨name, hname, hnone, hmissing⟩ | ⟨hnamed, hresolved⟩
  · refine .inl ⟨name, hname, Option.map_eq_none_iff.mp hnone, ?_⟩
    rw [resolveCalls, Instruction.resolve]
    simp only [hmissing]
  · refine .inr ⟨fun name hname => haddress name ▸ hnamed name hname, ?_⟩
    rw [resolveCalls, Instruction.resolve, hresolved]
    rfl

theorem mapM_resolveCalls_cases {code : List Instruction} (h : ∀ i ∈ code, t.Admits i) :
    (∃ name, (∃ i ∈ code, name ∈ i.symbols) ∧ symbols.lookup name = none ∧
      code.mapM (resolveCalls symbols) = .error (.undefinedFunction name)) ∨
    (∀ i ∈ code, ∀ name ∈ i.symbols, (symbols.lookup name).isSome) ∧
      code.mapM (resolveCalls symbols)
        = .ok (code.map (Instruction.placed (wordOffset? symbols))) := by
  induction code with
  | nil => exact .inr ⟨by simp, rfl⟩
  | cons i code ih =>
      obtain ⟨hi, hcode⟩ := List.forall_mem_cons.mp h
      rw [List.mapM_cons]
      rcases resolveCalls_cases symbols hi with
        ⟨name, hname, hnone, herror⟩ | ⟨hnamed, hok⟩
      · refine .inl ⟨name, ⟨i, List.mem_cons_self, hname⟩, hnone, ?_⟩
        rw [herror]
        rfl
      · rw [hok]
        rcases ih hcode with ⟨name, ⟨j, hj, hname⟩, hnone, herror⟩ | ⟨hrest, hresolved⟩
        · refine .inl ⟨name, ⟨j, List.mem_cons_of_mem _ hj, hname⟩, hnone, ?_⟩
          rw [herror]
          rfl
        · refine .inr ⟨List.forall_mem_cons.mpr ⟨hnamed, hrest⟩, ?_⟩
          rw [hresolved]
          rfl

end Link

/-- Where every name has an offset, the resolved instruction is one of the table without
names. -/
theorem Table.Admits.placed {t : Table} {i : Instruction} (h : t.Admits i)
    {symbols : List (String × Nat)} (hnamed : ∀ name ∈ i.symbols, (symbols.lookup name).isSome) :
    t.Admits (i.placed (Link.wordOffset? symbols)) ∧
      (i.placed (Link.wordOffset? symbols)).symbols = [] := by
  suffices hoperands : List.Forall₂ Operand.Suits i.descriptor.sizes
      (i.operands.map (Operand.placed (Link.wordOffset? symbols))) ∧
      (i.operands.map (Operand.placed (Link.wordOffset? symbols))).filterMap Operand.symbol?
        = [] from ⟨⟨h.mem, hoperands.1⟩, hoperands.2⟩
  have hnames : ∀ name ∈ i.operands.filterMap Operand.symbol?, (symbols.lookup name).isSome :=
    hnamed
  have hsuits := h.operands
  generalize i.descriptor.sizes = sizes, i.operands = operands at hsuits hnames ⊢
  induction hsuits with
  | nil => exact ⟨.nil, rfl⟩
  | @cons size operand sizes operands hoperand _ ih =>
      cases operand with
      | value v =>
          obtain ⟨hrest, hnone⟩ := ih hnames
          exact ⟨.cons hoperand hrest, hnone⟩
      | symbol name =>
          obtain rfl : size = 4 := hoperand
          obtain ⟨hname, hothers⟩ := List.forall_mem_cons.mp hnames
          obtain ⟨offset, hoffset⟩ := Option.isSome_iff_exists.mp hname
          obtain ⟨hrest, hnone⟩ := ih hothers
          have hplaced : (Operand.symbol name).placed (Link.wordOffset? symbols)
              = .value (Immediate.normalize 4 offset) := by
            rw [Operand.placed, Link.wordOffset?, Link.address?, hoffset]
            rfl
          rw [List.map_cons, hplaced]
          exact ⟨.cons (Immediate.normalize_normalize 4 offset) hrest, hnone⟩

namespace Link

/-- The code of a preamble and functions that follow it, with offsets in place of names. -/
def resolved (preamble : List Instruction) (fs : List CompiledFunction) : List Instruction :=
  (preamble ++ fs.flatMap (·.body)).map
    (Instruction.placed (wordOffset? (place (Instruction.totalLength preamble) fs)))

variable {t : Table} {preamble : List Instruction} {fs : List CompiledFunction}

/-- Code is laid out and encoded, or it calls a name that none of the functions has. -/
theorem collapse_cases (h : ∀ i ∈ preamble ++ fs.flatMap (·.body), t.Admits i) :
    (∃ name, (∃ i ∈ preamble ++ fs.flatMap (·.body), name ∈ i.symbols) ∧
      name ∉ fs.map (·.name) ∧ collapse preamble fs = .error (.undefinedFunction name)) ∨
    (∀ i ∈ preamble ++ fs.flatMap (·.body), ∀ name ∈ i.symbols, name ∈ fs.map (·.name)) ∧
      t.Concrete (resolved preamble fs) ∧
      ∃ bytes, Instruction.encodeAll (resolved preamble fs) = .ok bytes ∧
        collapse preamble fs = .ok (bytes, place (Instruction.totalLength preamble) fs) := by
  have hlookup : ∀ name, ((place (Instruction.totalLength preamble) fs).lookup name).isSome ↔
      name ∈ fs.map (·.name) := by
    intro name
    rw [Option.isSome_iff_exists, lookup_place]
  rcases mapM_resolveCalls_cases (place (Instruction.totalLength preamble) fs) h with
    ⟨name, hcalled, hnone, herror⟩ | ⟨hnamed, hok⟩
  · refine .inl ⟨name, hcalled, fun hmem => ?_, ?_⟩
    · rw [← hlookup, hnone] at hmem
      cases hmem
    · rw [collapse, herror]
      rfl
  · have hconcrete : t.Concrete (resolved preamble fs) := by
      intro i hi
      obtain ⟨j, hj, rfl⟩ := List.mem_map.mp hi
      exact (h j hj).placed (hnamed j hj)
    obtain ⟨bytes, hbytes⟩ := hconcrete.encodeAll
    refine .inr ⟨fun i hi name hname => (hlookup name).mp (hnamed i hi name hname), hconcrete,
      bytes, hbytes, ?_⟩
    rw [resolved] at hbytes
    rw [collapse, hok]
    simp only [bind, Except.bind, hbytes]
    rfl

end Link

/-! ## Where functions stand -/

namespace Instruction

theorem encodeAll_append {a b : List Instruction} {bytes : Bytes}
    (h : encodeAll (a ++ b) = .ok bytes) :
    ∃ front back, encodeAll a = .ok front ∧ encodeAll b = .ok back ∧ bytes = front ++ back := by
  induction a generalizing bytes with
  | nil => exact ⟨[], bytes, rfl, h, rfl⟩
  | cons i a ih =>
      rw [List.cons_append, encodeAll] at h
      obtain ⟨first, hfirst, h⟩ := bind_eq_ok_iff.mp h
      obtain ⟨rest, hrest, h⟩ := bind_eq_ok_iff.mp h
      obtain rfl := Except.ok.inj h
      obtain ⟨front, back, hfront, hback, rfl⟩ := ih hrest
      refine ⟨first ++ front, back, ?_, hback, (List.append_assoc ..).symm⟩
      rw [encodeAll, hfirst, hfront]
      rfl

end Instruction

namespace Link

variable {t : Table} {fs : List CompiledFunction} {f g : CompiledFunction} {offset p : Nat}

/-- The bytes of a part of the code are where the code before it ends. -/
theorem encodeAll_slice {before part after : List Instruction} {bytes : Bytes}
    (hconcrete : t.Concrete (before ++ part ++ after))
    (h : Instruction.encodeAll (before ++ part ++ after) = .ok bytes) :
    Instruction.encodeAll part = .ok ((bytes.drop (Instruction.totalLength before)).take
      (Instruction.totalLength part)) := by
  obtain ⟨front, back, hfront, -, rfl⟩ := Instruction.encodeAll_append h
  obtain ⟨x, y, hx, hy, rfl⟩ := Instruction.encodeAll_append hfront
  have hbefore : t.Concrete before := hconcrete.mono (by simp)
  have hpart : t.Concrete part := hconcrete.mono (by simp)
  obtain ⟨hxlength, -⟩ := hbefore.disassemble hx
  obtain ⟨hylength, -⟩ := hpart.disassemble hy
  rw [hy, List.append_assoc, List.drop_left' hxlength, List.take_left' hylength]

theorem totalLength_flatMap_body (fs : List CompiledFunction) :
    Instruction.totalLength (fs.flatMap (·.body)) = (fs.map (·.length)).sum := by
  induction fs with
  | nil => rfl
  | cons f fs ih =>
      rw [List.flatMap_cons, Instruction.totalLength_append, ih, List.map_cons, List.sum_cons,
        CompiledFunction.length]

/-- Of functions with different names each has the offset at which those before it end. -/
theorem place_of_mem (offset : Nat) (hnodup : (fs.map (·.name)).Nodup) (hf : f ∈ fs) :
    ∃ before after, fs = before ++ f :: after ∧
      (place offset fs).lookup f.name = some (offset + (before.map (·.length)).sum) := by
  have hplaced : ∃ address, (place offset fs).lookup f.name = some address :=
    lookup_place.mpr (List.mem_map_of_mem hf)
  obtain ⟨address, hlookup⟩ := hplaced
  obtain ⟨before, g, after, hsplit, hname, rfl⟩ := place_lookup hlookup
  have hg : g ∈ fs := by simp [hsplit]
  obtain rfl := List.inj_on_of_nodup_map hnodup hg hf hname
  exact ⟨before, after, hsplit, hlookup⟩

/-- A byte belongs to the code of a function. -/
def Covers (symbols : List (String × Nat)) (f : CompiledFunction) (p : Nat) : Prop :=
  ∃ offset, symbols.lookup f.name = some offset ∧ offset ≤ p ∧ p < offset + f.length

theorem covers_first :
    Covers (place offset (f :: fs)) f p ↔ offset ≤ p ∧ p < offset + f.length := by
  rw [Covers, place, List.lookup_cons_self]
  simp

theorem covers_rest (hne : g.name ≠ f.name) :
    Covers (place offset (f :: fs)) g p ↔ Covers (place (offset + f.length) fs) g p := by
  rw [Covers, Covers, place, List.lookup_cons, beq_false_of_ne hne]

/-- Functions with different names take up the bytes from their first offset on, and no
others. -/
theorem bounds_of_covers (hnodup : (fs.map (·.name)).Nodup) (hf : f ∈ fs)
    (h : Covers (place offset fs) f p) :
    offset ≤ p ∧ p < offset + (fs.map (·.length)).sum := by
  obtain ⟨before, after, rfl, hlookup⟩ := place_of_mem offset hnodup hf
  obtain ⟨_, hoffset, hle, hlt⟩ := h
  obtain rfl := Option.some.inj (hlookup.symm.trans hoffset)
  simp only [List.map_append, List.map_cons, List.sum_append, List.sum_cons]
  omega

/-- Each of these bytes belongs to exactly one of the functions. -/
theorem place_partition (hnodup : (fs.map (·.name)).Nodup) (hle : offset ≤ p)
    (hlt : p < offset + (fs.map (·.length)).sum) :
    ∃! f, f ∈ fs ∧ Covers (place offset fs) f p := by
  induction fs generalizing offset with
  | nil =>
      rw [List.map_nil, List.sum_nil] at hlt
      omega
  | cons f fs ih =>
      rw [List.map_cons, List.nodup_cons] at hnodup
      obtain ⟨hnew, hnodup⟩ := hnodup
      have hne : ∀ g ∈ fs, g.name ≠ f.name :=
        fun g hg heq => hnew (heq ▸ List.mem_map_of_mem hg)
      by_cases hfirst : p < offset + f.length
      · -- the functions after the first one begin behind the byte
        refine ⟨f, ⟨List.mem_cons_self, covers_first.mpr ⟨hle, hfirst⟩⟩, ?_⟩
        rintro g ⟨hg, hcovers⟩
        rcases List.mem_cons.mp hg with rfl | hg
        · rfl
        · have := bounds_of_covers hnodup hg ((covers_rest (hne g hg)).mp hcovers)
          omega
      · have hrest : p < offset + f.length + (fs.map (·.length)).sum := by
          rw [List.map_cons, List.sum_cons] at hlt
          omega
        obtain ⟨g, ⟨hg, hcovers⟩, hunique⟩ := ih hnodup (by omega) hrest
        refine ⟨g, ⟨List.mem_cons_of_mem f hg, (covers_rest (hne g hg)).mpr hcovers⟩, ?_⟩
        rintro g' ⟨hg', hcovers'⟩
        rcases List.mem_cons.mp hg' with rfl | hg'
        · exact absurd (covers_first.mp hcovers').2 hfirst
        · exact hunique g' ⟨hg', (covers_rest (hne g' hg')).mp hcovers'⟩

end Link

/-! ## Code that backends emit -/

/-- Values cut down to the widths of a descriptor are operands of it. -/
theorem Table.admits_ofValues {t : Table} {d : Descriptor} {values : List Int}
    (hd : d ∈ t.descriptors) (hlength : values.length = d.sizes.length) :
    t.Admits (.ofValues d values) where
  mem := hd
  operands := by
    rw [Instruction.ofValues]
    generalize d.sizes = sizes at hlength
    induction sizes generalizing values with
    | nil => exact .nil
    | cons size sizes ih =>
        cases values with
        | nil => cases hlength
        | cons v values =>
            exact .cons (Immediate.normalize_normalize size v) (ih (Nat.succ.inj hlength))

theorem Table.admits_ofSymbol {t : Table} {d : Descriptor} (hd : d ∈ t.descriptors)
    (hsizes : d.sizes = [4]) (name : String) : t.Admits (.ofSymbol d name) :=
  ⟨hd, by rw [show (Instruction.ofSymbol d name).descriptor.sizes = [4] from hsizes]
          exact .cons rfl .nil⟩

/-- A program starts with a call by name and a halt, as the table has them. -/
structure Backend.Start (b : Backend) (call halt : Descriptor) : Prop where
  call_eq : b.table.lookup? "call" = some call
  halt_eq : b.table.lookup? "halt" = some halt
  call_sizes : call.sizes = [4]
  halt_sizes : halt.sizes = []
  preamble_eq : ∀ entry, b.preamble entry = [.ofSymbol call entry, ⟨halt, []⟩]

/-- The instructions of a line, where those of the machine are admitted. -/
theorem Line.admits {ι : Type} [InstructionSet ι] {t : Table}
    (hplain : ∀ i : ι, t.Admits (InstructionSet.symbolic i))
    (hcall : ∀ name, t.Admits (.ofSymbol (InstructionSet.callDescriptor ι) name)) (l : Line ι) :
    t.Admits l.symbolic := by
  cases l with
  | plain i => exact hplain i
  | call name => exact hcall name

theorem Register.admits (i : Register.Instr) : Register.table.Admits i.toInstruction := by
  refine Table.admits_ofValues (Table.get?_mem (Register.get_opcode i.op)) ?_
  cases i <;> rfl

theorem Stack.admits (i : Stack.Instr) : Stack.table.Admits i.toInstruction := by
  refine Table.admits_ofValues (Table.get?_mem (Stack.get_opcode i.op)) ?_
  cases i <;> rfl

/-- The instructions of a function, where all lines are admitted. -/
theorem Target.Compiler.admits {ι : Type} [InstructionSet ι] {T : Target ι} {b : Backend}
    (C : T.Compiler b) (hlines : ∀ l : Line ι, b.table.Admits l.symbolic) {scope : Scope}
    {d : Definition} {f : CompiledFunction} (hf : b.compileFunction scope d = .ok f) :
    ∀ i ∈ f.body, b.table.Admits i := by
  intro i hi
  obtain ⟨-, rfl⟩ := (C.generator.compileFunction_ok C.compileBody_eq).mp hf
  obtain ⟨l, -, rfl⟩ := List.mem_map.mp hi
  exact hlines l

namespace Backend.Provided

variable {b : Backend}

theorem start (h : b.Provided) : ∃ call halt, b.Start call halt := by
  cases h with
  | register file =>
      have hcall : Register.table.lookup? "call" = some Register.Op.call.descriptor := by
        decide +kernel
      have hhalt : Register.table.lookup? "halt" = some Register.Op.halt.descriptor := by
        decide +kernel
      exact ⟨_, _, hcall, hhalt, rfl, rfl, fun _ => rfl⟩
  | stack =>
      have hcall : Stack.table.lookup? "call" = some Stack.Op.call.descriptor := by
        decide +kernel
      have hhalt : Stack.table.lookup? "halt" = some Stack.Op.halt.descriptor := by
        decide +kernel
      exact ⟨_, _, hcall, hhalt, rfl, rfl, fun _ => rfl⟩

/-- Compiled code consists of instructions of the backend's table. -/
theorem admits (h : b.Provided) {scope : Scope} {d : Definition} {f : CompiledFunction}
    (hf : b.compileFunction scope d = .ok f) : ∀ i ∈ f.body, b.table.Admits i := by
  cases h with
  | register file =>
      exact (RegisterCode.compiler file).admits (Line.admits Register.admits
        (Table.admits_ofSymbol (Table.get?_mem (Register.get_opcode .call)) rfl)) hf
  | stack =>
      exact StackCode.compiler.admits (Line.admits Stack.admits
        (Table.admits_ofSymbol (Table.get?_mem (Stack.get_opcode .call)) rfl)) hf

end Backend.Provided

/-! ## Finished sessions -/

theorem Link.wordOffset?_eq {symbols : List (String × Nat)}
    (h : ∀ name offset, symbols.lookup name = some offset → offset < 2 ^ 31) :
    wordOffset? symbols = address? symbols := by
  funext name
  rw [wordOffset?, address?]
  cases hlookup : symbols.lookup name with
  | none => rfl
  | some offset =>
      have hlt := h name offset hlookup
      have hkept : Immediate.normalize 4 (offset : Int) = offset := by
        rw [Immediate.normalize_eq_bmod (by decide)]
        refine Int.bmod_eq_of_le ?_ ?_
        · show -((4294967296 : Int) / 2) ≤ offset
          omega
        · show (offset : Int) < (4294967296 + 1) / 2
          omega
      exact congrArg some hkept

namespace Session

/-- Every function of the session is one that its backend has compiled. -/
def Compiled (s : Session) : Prop :=
  ∀ f ∈ s.functions, ∃ scope d, s.backend.compileFunction scope d = .ok f

/-- A name that a function calls which the entry point needs, and that no function has. -/
structure Dangling (s : Session) (name : String) : Prop where
  called : ∃ f, Link.Reached s.functions [s.entry] f ∧ name ∈ f.callees
  missing : name ∉ s.functions.map (·.name)

/-- The functions that calls lead to from the entry point, which comes first; the others are
in the order in which they were compiled. -/
structure Keeps (s : Session) (kept : List CompiledFunction) : Prop where
  mem_iff : ∀ f, f ∈ kept ↔ Link.Reached s.functions [s.entry] f
  nodup : (kept.map (·.name)).Nodup
  order : ∃ first others, kept = first :: others ∧ first.name = s.entry ∧
    others.Sublist s.functions

variable {s : Session} {kept : List CompiledFunction}

theorem reachable_of_missing (h : s.entry ∉ s.functions.map (·.name)) :
    Link.reachable s.functions s.entry = .error (.missingEntryPoint s.entry) := by
  have hnone : s.functions.find? (·.name == s.entry) = none := by
    rw [List.find?_eq_none]
    intro f hf heq
    exact h (List.mem_map.mpr ⟨f, hf, eq_of_beq heq⟩)
  rw [Link.reachable, hnone]

theorem exists_keeps (hnames : (s.functions.map (·.name)).Nodup)
    (h : s.entry ∈ s.functions.map (·.name)) :
    ∃ kept, Link.reachable s.functions s.entry = .ok kept ∧ s.Keeps kept := by
  obtain ⟨f, hf, hname⟩ := List.mem_map.mp h
  have hfind : s.functions.find? (·.name == s.entry) = some f := by
    rw [← hname]
    exact find?_of_nodup hnames hf
  have hkept : Link.reachable s.functions s.entry = .ok (f :: s.functions.filter fun g =>
      g.name != s.entry && (Link.reach s.functions [s.entry]).contains g.name) := by
    rw [Link.reachable, hfind]
  have hsublist := (List.filter_sublist (l := s.functions)
    (p := fun g => g.name != s.entry && (Link.reach s.functions [s.entry]).contains g.name))
  refine ⟨_, hkept, fun g => Link.mem_reachable_iff hnames hkept, ?_, f, _, rfl, hname, hsublist⟩
  rw [List.map_cons, List.nodup_cons]
  refine ⟨fun hmem => ?_, hnames.sublist (hsublist.map _)⟩
  -- the entry point is not among the others
  obtain ⟨g, hg, heq⟩ := List.mem_map.mp hmem
  have hother := (List.mem_filter.mp hg).2
  simp [heq, hname] at hother

theorem totalLength_preamble {b : Backend} {call halt : Descriptor} (h : b.Start call halt)
    (entry : String) : Instruction.totalLength (b.preamble entry) = 6 := by
  rw [h.preamble_eq]
  simp [Instruction.totalLength, Instruction.length, Instruction.ofSymbol, Descriptor.length,
    Descriptor.immediateLength, h.call_sizes, h.halt_sizes]

theorem admits_code (hbackend : s.backend.Provided) (hcompiled : s.Compiled)
    (hkeeps : s.Keeps kept) :
    ∀ i ∈ s.backend.preamble s.entry ++ kept.flatMap (·.body), s.backend.table.Admits i := by
  obtain ⟨call, halt, hstart⟩ := hbackend.start
  intro i hi
  rcases List.mem_append.mp hi with hi | hi
  · rw [hstart.preamble_eq, List.mem_pair] at hi
    rcases hi with rfl | rfl
    · exact Table.admits_ofSymbol (Table.lookup?_mem hstart.call_eq) hstart.call_sizes _
    · exact ⟨Table.lookup?_mem hstart.halt_eq, by rw [hstart.halt_sizes]; exact .nil⟩
  · obtain ⟨f, hf, hi⟩ := List.mem_flatMap.mp hi
    obtain ⟨scope, d, hcompile⟩ := hcompiled f ((hkeeps.mem_iff f).mp hf).mem
    exact hbackend.admits hcompile i hi

/-- A name in the code of a program is the entry point or is called by a kept function. -/
theorem mem_symbols_code (hbackend : s.backend.Provided) {name : String} :
    (∃ i ∈ s.backend.preamble s.entry ++ kept.flatMap (·.body), name ∈ i.symbols) ↔
      name = s.entry ∨ ∃ f ∈ kept, name ∈ f.callees := by
  obtain ⟨call, halt, hstart⟩ := hbackend.start
  simp only [hstart.preamble_eq, List.mem_append, or_and_right, exists_or]
  refine or_congr ?_ ?_
  · simp [Instruction.symbols, Instruction.ofSymbol, Operand.symbol?, eq_comm]
  · simp only [List.mem_flatMap, CompiledFunction.mem_callees]
    constructor
    · rintro ⟨i, ⟨f, hf, hi⟩, hname⟩
      exact ⟨f, hf, i, hi, hname⟩
    · rintro ⟨f, hf, i, hi, hname⟩
      exact ⟨i, ⟨f, hf, hi⟩, hname⟩

/-- What kept functions call and no kept function is, is missing altogether. -/
theorem dangling_iff (hkeeps : s.Keeps kept) {name : String} :
    s.Dangling name ↔ (∃ f ∈ kept, name ∈ f.callees) ∧ name ∉ kept.map (·.name) := by
  constructor
  · rintro ⟨⟨f, hf, hcall⟩, hmissing⟩
    refine ⟨⟨f, (hkeeps.mem_iff f).mpr hf, hcall⟩, fun hmem => hmissing ?_⟩
    obtain ⟨g, hg, rfl⟩ := List.mem_map.mp hmem
    exact List.mem_map_of_mem ((hkeeps.mem_iff g).mp hg).mem
  · rintro ⟨⟨f, hf, hcall⟩, hmissing⟩
    have hreached := (hkeeps.mem_iff f).mp hf
    refine ⟨⟨f, hreached, hcall⟩, fun hmem => hmissing ?_⟩
    obtain ⟨g, hg, rfl⟩ := List.mem_map.mp hmem
    exact List.mem_map_of_mem ((hkeeps.mem_iff g).mpr (hreached.call hg hcall))

/-- The program is the code of the kept functions, resolved and encoded. -/
structure Links (s : Session) (kept : List CompiledFunction) (program : Program) : Prop where
  symbols_eq : program.symbols = Link.place 6 kept
  concrete : s.backend.table.Concrete (Link.resolved (s.backend.preamble s.entry) kept)
  encode_eq : Instruction.encodeAll (Link.resolved (s.backend.preamble s.entry) kept)
    = .ok program.bytes

/-- Where there is an entry point, a session is finished unless a name is dangling. -/
theorem finish_cases (hbackend : s.backend.Provided) (hcompiled : s.Compiled)
    (hkept : Link.reachable s.functions s.entry = .ok kept) (hkeeps : s.Keeps kept) :
    (∃ name, s.Dangling name ∧ s.finish = .error (.undefinedFunction name)) ∨
    (∀ name, ¬s.Dangling name) ∧ ∃ program, s.finish = .ok program ∧ s.Links kept program := by
  obtain ⟨call, halt, hstart⟩ := hbackend.start
  obtain ⟨first, others, hfirst, hentry, -⟩ := hkeeps.order
  have hnamed : s.entry ∈ kept.map (·.name) := by simp [hfirst, hentry]
  have hfinish : s.finish = (Link.collapse (s.backend.preamble s.entry) kept).map
      fun out => ⟨s.backend.target, out.1, out.2⟩ := by
    rw [finish, hkept]
    show (Link.collapse (s.backend.preamble s.entry) kept).bind _ = _
    cases Link.collapse (s.backend.preamble s.entry) kept <;> rfl
  rcases Link.collapse_cases (admits_code hbackend hcompiled hkeeps) with
    ⟨name, hcalled, hmissing, herror⟩ | ⟨hnames, hconcrete, bytes, hbytes, hcollapse⟩
  · refine .inl ⟨name, (dangling_iff hkeeps).mpr ⟨?_, hmissing⟩, ?_⟩
    · rcases (mem_symbols_code hbackend).mp hcalled with rfl | hcalled
      · exact absurd hnamed hmissing
      · exact hcalled
    · rw [hfinish, herror]
      rfl
  · refine .inr ⟨fun name hdangling => ?_, ⟨s.backend.target, bytes, Link.place 6 kept⟩, ?_, rfl,
      hconcrete, hbytes⟩
    · obtain ⟨hcalled, hmissing⟩ := (dangling_iff hkeeps).mp hdangling
      obtain ⟨i, hi, hname⟩ := (mem_symbols_code hbackend).mpr (.inr hcalled)
      exact hmissing (hnames i hi name hname)
    · rw [hfinish, hcollapse, totalLength_preamble hstart]
      rfl

theorem compileAll_compiled {ι : Type} [InstructionSet ι] {T : Target ι} {backend : Backend}
    (C : T.Compiler backend) (entry : String) (ps : List Package) :
    (({ backend, entry } : Session).compileAll ps).Compiled := by
  intro f hf
  obtain ⟨us, hfits, hsession⟩ := compileAll_functions C (s := { backend, entry }) rfl ps
  rw [hsession] at hf ⊢
  obtain ⟨u, hu, rfl⟩ := List.mem_map.mp hf
  exact ⟨u.1, u.2, (C.generator.compileFunction_ok C.compileBody_eq).mpr ⟨hfits u hu, rfl⟩⟩

end Session

/-- The program is a call of the entry point, a halt and the code of the functions in
order, in which every name has become the offset of the function with this name. The call and
the halt take six bytes, and each byte after them belongs to one function. -/
structure Program.LaidOut (program : Program) (t : Table) (entry : String)
    (kept : List CompiledFunction) : Prop where
  names : program.symbols.map Prod.fst = kept.map (·.name)
  listing : ∃ call halt offset, t.lookup? "call" = some call ∧ t.lookup? "halt" = some halt ∧
    Link.address? program.symbols entry = some offset ∧
    Instruction.encodeAll [⟨call, [.value offset]⟩, ⟨halt, []⟩] = .ok (program.bytes.take 6) ∧
    t.disassemble program.bytes = .ok (⟨call, [.value offset]⟩ :: ⟨halt, []⟩ ::
      (kept.flatMap (·.body)).map (Instruction.placed (Link.address? program.symbols)))
  code : ∀ f ∈ kept, ∃ offset, program.symbols.lookup f.name = some offset ∧
    Instruction.encodeAll (f.body.map (Instruction.placed (Link.address? program.symbols)))
      = .ok ((program.bytes.drop offset).take f.length)
  six_le : 6 ≤ program.bytes.length
  partition : ∀ p < program.bytes.length,
    (p < 6 ∧ ∀ f ∈ kept, ¬Link.Covers program.symbols f p) ∨
    (6 ≤ p ∧ ∃! f, f ∈ kept ∧ Link.Covers program.symbols f p)
  inside : ∀ f ∈ kept, ∀ p, Link.Covers program.symbols f p → p < program.bytes.length

namespace Session.Links

variable {s : Session} {kept : List CompiledFunction} {program : Program}

theorem length_eq (h : s.Links kept program) (hbackend : s.backend.Provided) :
    program.bytes.length = 6 + (kept.map (·.length)).sum := by
  obtain ⟨call, halt, hstart⟩ := hbackend.start
  obtain ⟨hlength, -⟩ := h.concrete.disassemble h.encode_eq
  rw [hlength, Link.resolved, Instruction.totalLength_map_placed, Instruction.totalLength_append,
    totalLength_preamble hstart, Link.totalLength_flatMap_body]

/-- Every offset is one in the program, so a word keeps it. -/
theorem resolved_eq (h : s.Links kept program) (hbackend : s.backend.Provided)
    (hsize : program.bytes.length < 2 ^ 31) :
    Link.resolved (s.backend.preamble s.entry) kept
      = (s.backend.preamble s.entry ++ kept.flatMap (·.body)).map
        (Instruction.placed (Link.address? program.symbols)) := by
  obtain ⟨call, halt, hstart⟩ := hbackend.start
  have hlength := h.length_eq hbackend
  rw [Link.resolved, totalLength_preamble hstart, h.symbols_eq, Link.wordOffset?_eq]
  intro name offset hoffset
  obtain ⟨before, f, after, rfl, -, rfl⟩ := Link.place_lookup hoffset
  simp only [List.map_append, List.map_cons, List.sum_append, List.sum_cons] at hlength
  omega

/-- The bytes of a kept function are found at its offset. -/
theorem code_eq (h : s.Links kept program) (hbackend : s.backend.Provided) (hkeeps : s.Keeps kept)
    (hsize : program.bytes.length < 2 ^ 31) {f : CompiledFunction} (hf : f ∈ kept) :
    ∃ offset, program.symbols.lookup f.name = some offset ∧
      Instruction.encodeAll (f.body.map (Instruction.placed (Link.address? program.symbols)))
        = .ok ((program.bytes.drop offset).take f.length) := by
  obtain ⟨call, halt, hstart⟩ := hbackend.start
  obtain ⟨before, after, hsplit, hlookup⟩ := Link.place_of_mem 6 hkeeps.nodup hf
  refine ⟨_, h.symbols_eq ▸ hlookup, ?_⟩
  have hresolved : Link.resolved (s.backend.preamble s.entry) kept
      = (s.backend.preamble s.entry ++ before.flatMap (·.body)).map
          (Instruction.placed (Link.address? program.symbols))
        ++ f.body.map (Instruction.placed (Link.address? program.symbols))
        ++ (after.flatMap (·.body)).map (Instruction.placed (Link.address? program.symbols)) := by
    rw [h.resolved_eq hbackend hsize]
    simp [hsplit]
  have hslice := Link.encodeAll_slice (hresolved ▸ h.concrete) (hresolved ▸ h.encode_eq)
  rwa [Instruction.totalLength_map_placed, Instruction.totalLength_map_placed,
    Instruction.totalLength_append, totalLength_preamble hstart,
    Link.totalLength_flatMap_body] at hslice

theorem laidOut (h : s.Links kept program) (hbackend : s.backend.Provided) (hkeeps : s.Keeps kept)
    (hsize : program.bytes.length < 2 ^ 31) : program.LaidOut s.backend.table s.entry kept := by
  obtain ⟨call, halt, hstart⟩ := hbackend.start
  obtain ⟨first, others, hfirst, hentry, -⟩ := hkeeps.order
  have hlength := h.length_eq hbackend
  have hoffset : Link.address? program.symbols s.entry = some 6 := by
    rw [Link.address?, h.symbols_eq, hfirst, Link.place, ← hentry, List.lookup_cons_self]
    rfl
  have hresolved : Link.resolved (s.backend.preamble s.entry) kept
      = [] ++ [⟨call, [.value 6]⟩, ⟨halt, []⟩]
        ++ (kept.flatMap (·.body)).map (Instruction.placed (Link.address? program.symbols)) := by
    rw [h.resolved_eq hbackend hsize, hstart.preamble_eq]
    simp [Instruction.placed, Instruction.ofSymbol, Operand.placed, hoffset]
  have hpreamble := Link.encodeAll_slice (hresolved ▸ h.concrete) (hresolved ▸ h.encode_eq)
  have hsix : Instruction.totalLength [⟨call, [.value 6]⟩, ⟨halt, []⟩] = 6 := by
    simp [Instruction.totalLength, Instruction.length, Descriptor.length,
      Descriptor.immediateLength, hstart.call_sizes, hstart.halt_sizes]
  rw [hsix] at hpreamble
  obtain ⟨-, hlisting⟩ := h.concrete.disassemble h.encode_eq
  refine ⟨?_, ⟨call, halt, 6, hstart.call_eq, hstart.halt_eq, hoffset, hpreamble, ?_⟩,
    fun f hf => h.code_eq hbackend hkeeps hsize hf, by omega, fun p hp => ?_, fun f hf p hp => ?_⟩
  · rw [h.symbols_eq, Link.map_fst_place]
  · rw [hlisting, hresolved]
    rfl
  · rw [h.symbols_eq]
    rcases Nat.lt_or_ge p 6 with hlt | hle
    · refine .inl ⟨hlt, fun f hf hcovers => ?_⟩
      have := (Link.bounds_of_covers hkeeps.nodup hf hcovers).1
      omega
    · exact .inr ⟨hle, Link.place_partition hkeeps.nodup hle (by omega)⟩
  · rw [h.symbols_eq] at hp
    have := (Link.bounds_of_covers hkeeps.nodup hf hp).2
    omega

end Session.Links

/-- A session is finished exactly when its entry point is compiled and no name is dangling, and
it says which of the two is amiss. Its program then consists of the functions that calls lead
to from the entry point, laid out without gaps and with every call resolved. -/
theorem finish_exact {s : Session} (hbackend : s.backend.Provided) (hcompiled : s.Compiled)
    (hnames : (s.functions.map (·.name)).Nodup) :
    (∀ name, s.finish = .error (.missingEntryPoint name) ↔
      name = s.entry ∧ s.entry ∉ s.functions.map (·.name)) ∧
    (s.entry ∈ s.functions.map (·.name) →
      (∀ e, s.finish = .error e → ∃ name, e = .undefinedFunction name ∧ s.Dangling name) ∧
      ((∃ e, s.finish = .error e) ↔ ∃ name, s.Dangling name)) ∧
    ∀ program, s.finish = .ok program → program.bytes.length < 2 ^ 31 →
      ∃ kept, s.Keeps kept ∧ program.LaidOut s.backend.table s.entry kept := by
  by_cases hentry : s.entry ∈ s.functions.map (·.name)
  · obtain ⟨kept, hkept, hkeeps⟩ := Session.exists_keeps hnames hentry
    rcases Session.finish_cases hbackend hcompiled hkept hkeeps with
      ⟨name, hdangling, herror⟩ | ⟨hnone, program, hok, hlinks⟩
    · rw [herror]
      refine ⟨fun other => ⟨fun h => ?_, fun h => absurd hentry h.2⟩,
        fun _ => ⟨fun e he => ?_, fun _ => ⟨name, hdangling⟩, fun _ => ⟨_, rfl⟩⟩,
        fun program h => ?_⟩
      · cases h
      · exact ⟨name, (Except.error.inj he).symm, hdangling⟩
      · cases h
    · rw [hok]
      refine ⟨fun other => ⟨fun h => ?_, fun h => absurd hentry h.2⟩,
        fun _ => ⟨fun e he => ?_, fun he => ?_, fun hsome => ?_⟩, fun program' h hsize => ?_⟩
      · cases h
      · cases he
      · obtain ⟨e, he⟩ := he
        cases he
      · obtain ⟨name, hname⟩ := hsome
        exact absurd hname (hnone name)
      · obtain rfl := Except.ok.inj h
        exact ⟨kept, hkeeps, hlinks.laidOut hbackend hkeeps hsize⟩
  · have herror : s.finish = .error (.missingEntryPoint s.entry) := by
      rw [Session.finish, Session.reachable_of_missing hentry]
      rfl
    rw [herror]
    refine ⟨fun name => ⟨fun h => ?_, fun h => by rw [h.1]⟩, fun h => absurd h hentry,
      fun program h => ?_⟩
    · exact ⟨(CompileError.missingEntryPoint.inj (Except.error.inj h)).symm, hentry⟩
    · cases h

/-- Functions of two packages, one of which calls what is not there. -/
def loosePackages : List Package :=
  [.mk [] [⟨"one", [], .expression (.number 1)⟩, ⟨"spare", [], .expression (.call "ghost" [])⟩],
   .mk [] [⟨"main", [], .expression (.call "one" [])⟩]]

def looseSession (entry : String) : Session :=
  ({ backend := StackCode.backend, entry } : Session).compileAll loosePackages

/-- The program that starts with `main`. -/
def looseProgram : Program :=
  ⟨.stack, [19, 6, 0, 0, 0, 22, 19, 12, 0, 0, 0, 20, 0, 1, 0, 0, 0, 20], [("main", 6), ("one", 12)]⟩

/-- The call of a missing function matters only where the entry point needs it. -/
theorem finish_exact_loose :
    (∃ kept, kept.map (·.name) = ["main", "one"] ∧ looseProgram.LaidOut Stack.table "main" kept) ∧
    (∃ name, (looseSession "spare").finish = .error (.undefinedFunction name) ∧
      (looseSession "spare").Dangling name) ∧
    (looseSession "ghost").finish = .error (.missingEntryPoint "ghost") := by
  have hexact := fun entry (hbackend : (looseSession entry).backend = StackCode.backend) =>
    finish_exact (s := looseSession entry) (hbackend ▸ .stack)
      (Session.compileAll_compiled StackCode.compiler entry loosePackages)
      ((Session.compileAll_grows _ loosePackages).indexed .nil).nodup
  refine ⟨?_, ?_, ?_⟩
  · obtain ⟨kept, -, hlaidOut⟩ := (hexact "main" rfl).2.2 looseProgram (by decide +kernel)
      (by decide +kernel)
    exact ⟨kept, hlaidOut.names.symm, hlaidOut⟩
  · obtain ⟨honly, -⟩ := (hexact "spare" rfl).2.1 (by decide +kernel)
    cases hfinish : (looseSession "spare").finish with
    | ok program =>
        have herror : (looseSession "spare").finish.isOk = false := by decide +kernel
        rw [hfinish] at herror
        cases herror
    | error e =>
        obtain ⟨name, rfl, hdangling⟩ := honly e hfinish
        exact ⟨name, rfl, hdangling⟩
  · exact ((hexact "ghost" rfl).1 "ghost").mpr ⟨rfl, by decide +kernel⟩

end DualMachine
