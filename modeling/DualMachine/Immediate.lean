import DualMachine.Bytes

/-!
# Immediate operands

An instruction carries its immediates in 1, 2, 4 or 8 bytes, low byte first. A value
is a number of 64 signed bits; it is cut down to its width when it is written and read
back as signed, so `normalize` is what survives a round trip. The assembler takes a
value when `fits` says that it is representable in the width, signed or unsigned.

Each of the widths 1, 2 and 4 has its own cast. Any other width is treated as eight
bytes, for which the cast changes nothing. A table refuses the widths that are none of
the four, but an instruction does not need a table, so the functions here are defined
for every width.

To write an immediate, the cast value is put into a buffer of eight bytes and the first
`size` bytes of the buffer are taken. A width above eight asks for more bytes than there
are: this slice fails, which is the `none` of `write?`. `encode` is the slice where it
does not fail, and the code that only ever meets the four widths uses it.
-/

namespace DualMachine.Immediate

def sizes : List Nat := [1, 2, 4, 8]

def range (size : Nat) : Nat := Nat.pow 256 size

def normalize (size : Nat) (value : Int) : Int :=
  match size with
  | 1 => (Int8.ofInt value).toInt
  | 2 => (Int16.ofInt value).toInt
  | 4 => (Int32.ofInt value).toInt
  | _ => (Int64.ofInt value).toInt

/-- Whether `size` bytes represent `value`, signed or unsigned. Eight bytes hold
every value that can be written. -/
def fits (size : Nat) (value : Int) : Bool :=
  8 ≤ size || (-(Nat.pow 2 (8 * size - 1) : Int) ≤ value && value < range size)

/-- The eight bytes from which the immediate is sliced. -/
def buffer (size : Nat) (value : Int) : Bytes :=
  match size with
  | 1 => littleEndian 1 (Int8.ofInt value).toUInt8.toNat ++ List.replicate 7 0
  | 2 => littleEndian 2 (Int16.ofInt value).toUInt16.toNat ++ List.replicate 6 0
  | 4 => littleEndian 4 (Int32.ofInt value).toUInt32.toNat ++ List.replicate 4 0
  | _ => littleEndian 8 (Int64.ofInt value).toUInt64.toNat

def encode (size : Nat) (value : Int) : Bytes := (buffer size value).take size

/-- The bytes of an immediate, unless the slice reaches beyond the buffer. -/
def write? (size : Nat) (value : Int) : Option Bytes :=
  if size ≤ 8 then some (encode size value) else none

/-- The signed value of the first bytes, of which there are at least `size`. -/
def decode (size : Nat) (bytes : Bytes) : Int :=
  match size with
  | 1 => (Int8.ofNat (ofLittleEndian (bytes.take 1))).toInt
  | 2 => (Int16.ofNat (ofLittleEndian (bytes.take 2))).toInt
  | 4 => (Int32.ofNat (ofLittleEndian (bytes.take 4))).toInt
  | _ => (Int64.ofNat (ofLittleEndian (bytes.take 8))).toInt

end DualMachine.Immediate
