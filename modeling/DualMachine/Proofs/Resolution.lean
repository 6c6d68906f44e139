import DualMachine.Proofs.Assembly

/-!
# Resolving names

`Instruction.resolve` goes through the operands from left to right and stops at the first name that
has no address, with the names before it replaced. What is left behind is an instruction like any
other: its concrete operands and its length are as before, and resolving it again, with addresses
that extend the first ones, ends as if the first attempt had not been made
(`resolveOperands_resolveOperands`). The name that is reported is the first of the instruction's
names that has no address (`resolveOperands_missing`).

An instruction need not belong to a table, so its immediates may have widths that no table accepts.
Resolving does not mind: a width other than 1, 2 and 4 keeps all of an address. Writing does.
`Instruction.encodeInto` appends to bytes that are there, as long as each immediate can be sliced
from its buffer; a width above eight cannot, and then nothing is returned (`writeOperands_wide`).
Where the slices are in range it appends the bytes of `Instruction.encodePartial`
(`writeOperands_eq`). So an instruction is written exactly when it has no names and no width above
eight, and one whose width is nine is not written although it has no names (`encodeInto_wide`).
`resolve_retry` says all of this of instructions.
-/

namespace DualMachine

/-- What an operand becomes in an immediate of `size` bytes, where its name has an address. -/
def Operand.resolved (addresses : String → Option Int) (size : Nat) : Operand → Operand
  | .value v => .value v
  | .symbol name =>
    ((addresses name).map fun a => .value (Immediate.normalize size a)).getD (.symbol name)

namespace Instruction

variable {addresses first second : String → Option Int} {sizes : List Nat} {operands : List Operand}

/-! ## Operands -/

/-- An attempt that is made before does not show, if the addresses that it had are among those of
the second one. -/
theorem resolveOperands_resolveOperands (h : ∀ name a, first name = some a → second name = some a)
    (sizes : List Nat) (operands : List Operand) :
    resolveOperands second sizes (resolveOperands first sizes operands).1
      = resolveOperands second sizes operands := by
  fun_induction resolveOperands first sizes operands with
  | case1 size sizes name rest hname => rfl
  | case2 size sizes name rest address hname rest' missing hrest ih =>
      rw [hrest] at ih
      simp only [resolveOperands, h name address hname, ih]
  | case3 size sizes v rest rest' missing hrest ih =>
      rw [hrest] at ih
      simp only [resolveOperands, ih]
  | case4 => rfl

/-- The name that is reported is the first one without an address. -/
theorem resolveOperands_missing : ∀ {sizes : List Nat} {operands : List Operand},
    operands.length = sizes.length →
    (resolveOperands addresses sizes operands).2
      = (operands.filterMap Operand.symbol?).find? fun name => (addresses name).isNone
  | [], [], _ => rfl
  | _ :: sizes, .value v :: operands, h => by
      have hrest := resolveOperands_missing (Nat.succ.inj h)
      rwa [resolveOperands, List.filterMap_cons_none rfl]
  | _ :: sizes, .symbol name :: operands, h => by
      have hrest := resolveOperands_missing (Nat.succ.inj h)
      rw [resolveOperands, show (Operand.symbol name :: operands).filterMap Operand.symbol?
        = name :: operands.filterMap Operand.symbol? from rfl]
      cases hname : addresses name with
      | none => rw [List.find?_cons_of_pos (by simp [hname])]
      | some address => rwa [List.find?_cons_of_neg (by simp [hname])]

/-- Where all names have addresses, each of them is replaced. -/
theorem resolveOperands_resolved : ∀ {sizes : List Nat} {operands : List Operand},
    operands.length = sizes.length → (resolveOperands addresses sizes operands).2 = none →
    (resolveOperands addresses sizes operands).1
      = sizes.zipWith (Operand.resolved addresses) operands
  | [], [], _, _ => rfl
  | _ :: sizes, .value v :: operands, h, hmissing => by
      rw [resolveOperands] at hmissing ⊢
      rw [List.zipWith_cons_cons, ← resolveOperands_resolved (Nat.succ.inj h) hmissing,
        Operand.resolved]
  | _ :: sizes, .symbol name :: operands, h, hmissing => by
      rw [resolveOperands] at hmissing ⊢
      cases hname : addresses name with
      | none =>
          rw [hname] at hmissing
          cases hmissing
      | some address =>
          rw [hname] at hmissing
          rw [List.zipWith_cons_cons, ← resolveOperands_resolved (Nat.succ.inj h) hmissing,
            Operand.resolved, hname]
          rfl

/-- Operands that are concrete stay, however the attempt ends. -/
theorem resolveOperands_value {k : Nat} {v : Int} (h : operands[k]? = some (.value v)) :
    (resolveOperands addresses sizes operands).1[k]? = some (.value v) := by
  fun_induction resolveOperands addresses sizes operands generalizing k with
  | case1 size sizes name rest hname => exact h
  | case2 size sizes name rest address hname rest' missing hrest ih =>
      rw [hrest] at ih
      cases k with
      | zero => cases h
      | succ k => exact ih h
  | case3 size sizes w rest rest' missing hrest ih =>
      rw [hrest] at ih
      cases k with
      | zero => exact h
      | succ k => exact ih h
  | case4 => exact h

/-- Writing stops at the first name. -/
theorem encodeOperands_unresolved : ∀ {sizes : List Nat} {operands : List Operand},
    operands.length = sizes.length →
    (encodeOperands sizes operands).2 = (operands.filterMap Operand.symbol?).head?
  | [], [], _ => rfl
  | _ :: sizes, .value v :: operands, h => by
      rw [encodeOperands, List.filterMap_cons_none rfl]
      exact encodeOperands_unresolved (Nat.succ.inj h)
  | _ :: sizes, .symbol name :: operands, _ => rfl

theorem length_encodeOperands : ∀ {sizes : List Nat} {operands : List Operand},
    (∀ size ∈ sizes, size ≤ 8) → operands.length = sizes.length →
    (encodeOperands sizes operands).2 = none →
    (encodeOperands sizes operands).1.length = sizes.foldr (· + ·) 0
  | [], [], _, _, _ => rfl
  | size :: sizes, .value v :: operands, hsizes, h, hunresolved => by
      obtain ⟨hsize, hsizes⟩ := List.forall_mem_cons.mp hsizes
      rw [encodeOperands] at hunresolved ⊢
      rw [List.length_append, Immediate.length_encode hsize, List.foldr_cons,
        length_encodeOperands hsizes (Nat.succ.inj h) hunresolved]

/-! ## Appending to what is written -/

/-- Appends operands up to the first name, and gives that name. There is no result where an
immediate cannot be sliced from its buffer. -/
def writeOperands : List Nat → List Operand → Bytes → Option (Bytes × Option String)
  | _ :: _, .symbol name :: _, out => some (out, some name)
  | size :: sizes, .value v :: rest, out =>
    match Immediate.write? size v with
    | some bytes => writeOperands sizes rest (out ++ bytes)
    | none => none
  | _, _, out => some (out, none)

/-- Appends the opcode and the operands of an instruction. Where it fails with an error, what comes
before the name stays written. -/
def encodeInto (i : Instruction) (out : Bytes) : Option (Bytes × Except AsmError Unit) :=
  match writeOperands i.descriptor.sizes i.operands (out ++ [i.descriptor.opcode]) with
  | some (written, none) => some (written, .ok ())
  | some (written, some name) => some (written, .error (.unresolvedSymbol name))
  | none => none

/-- Slices that are in range are the bytes of the immediates. -/
theorem writeOperands_eq (hsizes : ∀ size ∈ sizes, size ≤ 8) (out : Bytes) :
    writeOperands sizes operands out
      = some (out ++ (encodeOperands sizes operands).1, (encodeOperands sizes operands).2) := by
  fun_induction encodeOperands sizes operands generalizing out with
  | case1 => simp only [writeOperands, List.append_nil]
  | case2 size sizes v rest bytes unresolved hrest ih =>
      obtain ⟨hsize, hsizes⟩ := List.forall_mem_cons.mp hsizes
      rw [hrest] at ih
      rw [writeOperands, Immediate.write?, if_pos hsize]
      simp only [ih hsizes, List.append_assoc]
  | case3 sizes operands hsymbol hvalue =>
      rw [writeOperands.eq_3 _ _ _ hsymbol hvalue, List.append_nil]

/-- A width above eight fails, if no name comes before it. -/
theorem writeOperands_wide : ∀ {sizes : List Nat} {operands : List Operand} {size : Nat}
    (out : Bytes), operands.length = sizes.length → operands.filterMap Operand.symbol? = [] →
    size ∈ sizes → 8 < size → writeOperands sizes operands out = none
  | first :: sizes, .value v :: operands, size, out, h, hnames, hmem, hwide => by
      rw [writeOperands, Immediate.write?]
      by_cases hfirst : first ≤ 8
      · have hrest : size ∈ sizes := by
          rcases List.mem_cons.mp hmem with rfl | hrest
          · omega
          · exact hrest
        rw [if_pos hfirst]
        exact writeOperands_wide _ (Nat.succ.inj h) hnames hrest hwide
      · rw [if_neg hfirst]

/-- Operands that are written to the end are all values. -/
theorem writeOperands_symbols : ∀ {sizes : List Nat} {operands : List Operand}
    {out written : Bytes}, operands.length = sizes.length →
    writeOperands sizes operands out = some (written, none) →
    operands.filterMap Operand.symbol? = []
  | [], [], _, _, _, _ => rfl
  | size :: sizes, .value v :: operands, out, written, h, hwritten => by
      rw [writeOperands] at hwritten
      cases hslice : Immediate.write? size v with
      | none =>
          rw [hslice] at hwritten
          cases hwritten
      | some bytes =>
          rw [hslice] at hwritten
          rw [List.filterMap_cons_none rfl]
          exact writeOperands_symbols (Nat.succ.inj h) hwritten

/-! ## Instructions -/

variable {i : Instruction}

theorem encode_eq_ok_iff {bytes : Bytes} :
    i.encode = .ok bytes ↔ i.encodePartial = (bytes, none) := by
  rw [encode]
  obtain ⟨written, unresolved⟩ := i.encodePartial
  cases unresolved <;> simp

theorem encodeInto_eq_ok_iff {out written : Bytes} :
    i.encodeInto out = some (written, .ok ()) ↔
      writeOperands i.descriptor.sizes i.operands (out ++ [i.descriptor.opcode])
        = some (written, none) := by
  rw [encodeInto]
  split <;> simp_all

/-- Appending succeeds where nothing stands in the way: neither a name nor a slice out of range. -/
theorem encodeInto_ok_iff (h : i.operands.length = i.descriptor.sizes.length) {out : Bytes} :
    (∃ written, i.encodeInto out = some (written, .ok ())) ↔
      i.symbols = [] ∧ ∀ size ∈ i.descriptor.sizes, size ≤ 8 := by
  simp only [encodeInto_eq_ok_iff]
  constructor
  · rintro ⟨written, hwritten⟩
    have hnames := writeOperands_symbols h hwritten
    refine ⟨hnames, fun size hsize => ?_⟩
    by_contra hwide
    cases (writeOperands_wide _ h hnames hsize (Nat.lt_of_not_le hwide)).symm.trans hwritten
  · rintro ⟨hnames, hsizes⟩
    have hunresolved := encodeOperands_unresolved h
    rw [show i.operands.filterMap Operand.symbol? = [] from hnames] at hunresolved
    exact ⟨_, by rw [writeOperands_eq hsizes, hunresolved]; rfl⟩

/-- What is appended is what the instruction is encoded to. -/
theorem encodeInto_bytes (h : i.operands.length = i.descriptor.sizes.length) {out written : Bytes}
    (hwritten : i.encodeInto out = some (written, .ok ())) :
    ∃ bytes, i.encode = .ok bytes ∧ written = out ++ bytes ∧ bytes.length = i.length := by
  obtain ⟨-, hsizes⟩ := (encodeInto_ok_iff h).mp ⟨written, hwritten⟩
  have hall := encodeInto_eq_ok_iff.mp hwritten
  rw [writeOperands_eq hsizes] at hall
  obtain ⟨rfl, hunresolved⟩ := Prod.mk.inj (Option.some.inj hall)
  refine ⟨i.encodePartial.1, encode_eq_ok_iff.mpr (Prod.ext rfl hunresolved), ?_, ?_⟩
  · rw [List.append_assoc]
    rfl
  · show (i.descriptor.opcode :: (encodeOperands i.descriptor.sizes i.operands).1).length = i.length
    rw [List.length_cons, length_encodeOperands hsizes h hunresolved, Nat.add_comm]
    rfl

theorem resolve_missing (h : i.operands.length = i.descriptor.sizes.length)
    (addresses : String → Option Int) : (i.resolve addresses).2
      = i.symbols.find? fun name => (addresses name).isNone := resolveOperands_missing h

/-- The name that is reported is the leftmost one without an address. -/
theorem resolve_eq_some_iff (h : i.operands.length = i.descriptor.sizes.length)
    {addresses : String → Option Int} {name : String} : (i.resolve addresses).2 = some name ↔
      ∃ before after, i.symbols = before ++ name :: after ∧ addresses name = none ∧
        ∀ other ∈ before, (addresses other).isSome := by
  rw [resolve_missing h, List.find?_eq_some_iff_append]
  simp only [Option.isNone_iff_eq_none, Option.not_isNone]
  constructor
  · rintro ⟨hname, before, after, hsymbols, hbefore⟩
    exact ⟨before, after, hsymbols, hname, hbefore⟩
  · rintro ⟨before, after, hsymbols, hname, hbefore⟩
    exact ⟨hname, before, after, hsymbols, hbefore⟩

/-- Resolving can be tried again. An attempt with fewer addresses, whether it succeeded or stopped
at a name, makes no difference to a later one. An attempt succeeds if every name has an address, and
then each name is replaced by its address in the width of its immediate; otherwise it reports the
leftmost name that has none. Neither the length nor a concrete operand is ever changed. Appending
succeeds exactly when no operand is a name and no width is above eight, so for the widths of a table
when no operand is a name; it then appends the bytes of the instruction, as many as were laid
out. -/
theorem resolve_retry (i : Instruction) (h : i.operands.length = i.descriptor.sizes.length) :
    (∀ first second : String → Option Int, (∀ name a, first name = some a → second name = some a) →
      (i.resolve first).1.resolve second = i.resolve second) ∧
    (∀ addresses : String → Option Int,
      ((i.resolve addresses).2 = none ↔ ∀ name ∈ i.symbols, (addresses name).isSome) ∧
      ((i.resolve addresses).2 = none → (i.resolve addresses).1.operands
        = i.descriptor.sizes.zipWith (Operand.resolved addresses) i.operands) ∧
      (∀ name, (i.resolve addresses).2 = some name ↔
        ∃ before after, i.symbols = before ++ name :: after ∧ addresses name = none ∧
          ∀ other ∈ before, (addresses other).isSome) ∧
      (i.resolve addresses).1.length = i.length ∧
      ∀ (k : Nat) (v : Int), i.operands[k]? = some (.value v) →
        (i.resolve addresses).1.operands[k]? = some (.value v)) ∧
    ∀ out : Bytes,
      ((∃ written, i.encodeInto out = some (written, .ok ())) ↔
        i.symbols = [] ∧ ∀ size ∈ i.descriptor.sizes, size ≤ 8) ∧
      ((∀ size ∈ i.descriptor.sizes, size ∈ Immediate.sizes) →
        ((∃ written, i.encodeInto out = some (written, .ok ())) ↔ i.symbols = [])) ∧
      ∀ written, i.encodeInto out = some (written, .ok ()) →
        ∃ bytes, i.encode = .ok bytes ∧ written = out ++ bytes ∧ bytes.length = i.length := by
  refine ⟨fun first second hextends => ?_,
    fun addresses => ⟨?_, resolveOperands_resolved h, fun name => resolve_eq_some_iff h, rfl,
      fun k v => resolveOperands_value⟩,
    fun out => ⟨encodeInto_ok_iff h, fun hsizes => ?_, fun written => encodeInto_bytes h⟩⟩
  · have hoperands := resolveOperands_resolveOperands hextends i.descriptor.sizes i.operands
    simp only [resolve, hoperands]
  · rw [resolve_missing h, List.find?_eq_none]
    simp only [Option.isNone_iff_eq_none, Option.isSome_iff_ne_none, ne_eq]
  · rw [encodeInto_ok_iff h, and_iff_left_iff_imp]
    exact fun _ size hsize => Immediate.le_of_mem_sizes (hsizes size hsize)

/-- Two names around a value, in immediates of three widths. -/
def twoNames : Instruction :=
  ⟨⟨"mix", 3, [1, 4, 2], .stack .halt⟩, [.symbol "low", .value (-7), .symbol "high"]⟩

def lowOnly (name : String) : Option Int := if name = "low" then some 300 else none

def lowAndHigh (name : String) : Option Int :=
  if name = "high" then some 40000 else lowOnly name

/-- The first attempt cuts one address down to a byte and stops; the second comes to the same end as
if it were the only one. Only then can the instruction be written. -/
theorem resolve_retry_stopped :
    (twoNames.resolve lowOnly).1.operands = [.value 44, .value (-7), .symbol "high"] ∧
    (twoNames.resolve lowOnly).2 = some "high" ∧
    (twoNames.resolve lowOnly).1.resolve lowAndHigh = twoNames.resolve lowAndHigh ∧
    (twoNames.resolve lowAndHigh).1.operands = [.value 44, .value (-7), .value (-25536)] ∧
    (twoNames.resolve lowAndHigh).2 = none ∧
    (¬∃ written, twoNames.encodeInto [9] = some (written, .ok ())) ∧
    ∃ written, (twoNames.resolve lowAndHigh).1.encodeInto [9] = some (written, .ok ()) := by
  obtain ⟨hretry, hattempt, hencode⟩ := resolve_retry twoNames rfl
  obtain ⟨-, -, hencode'⟩ := resolve_retry (twoNames.resolve lowAndHigh).1 rfl
  have hextends : ∀ name a, lowOnly name = some a → lowAndHigh name = some a := by
    intro name a h
    simp only [lowOnly, Option.ite_none_right_eq_some] at h
    obtain ⟨rfl, h⟩ := h
    exact h
  have hboth : (twoNames.resolve lowAndHigh).2 = none := (hattempt lowAndHigh).1.mpr (by decide)
  exact ⟨by decide, (((hattempt lowOnly).2.2.1 "high").mpr ⟨["low"], [], by decide⟩),
    hretry lowOnly lowAndHigh hextends, (hattempt lowAndHigh).2.1 hboth, hboth,
    fun hwritten => absurd ((hencode [9]).1.mp hwritten).1 (by decide),
    ((hencode' [9]).2.1 (by decide)).mpr (by decide)⟩

/-- One value, in an immediate of nine bytes. -/
def wide : Instruction := ⟨⟨"wide", 0, [9], .stack .halt⟩, [.value 1]⟩

/-- That no operand is a name is not enough: nine bytes cannot be sliced from eight. It is the table
that refuses such a width, and an instruction is built without one. -/
theorem encodeInto_wide :
    wide.operands.length = wide.descriptor.sizes.length ∧
    ¬((∃ written, wide.encodeInto [] = some (written, .ok ())) ↔ wide.symbols = []) ∧
    wide.encodeInto [] = none ∧
    Table.ofDescriptors .stack [wide.descriptor] = .error (.unsupportedSize "wide" 9) := by
  have hnone : wide.encodeInto [] = none := rfl
  refine ⟨rfl, fun hiff => ?_, hnone, rfl⟩
  obtain ⟨written, hwritten⟩ := hiff.mpr rfl
  cases hnone.symm.trans hwritten

end Instruction

end DualMachine
