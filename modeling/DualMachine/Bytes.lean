/-!
# Byte strings and the numbers they spell

Programs, immediates and images are lists of bytes. A number is written in a fixed count
of bytes, low byte first in programs (`littleEndian`) and high byte first in the headers of
images (`bigEndian`). What does not fit is dropped, so writing is total and reading back
gives the number modulo a power of 256. A list that is too short is read as it is, as if
zeros stood in the missing high places; who needs all of the bytes counts them first.
-/

namespace DualMachine

abbrev Bytes := List UInt8

/-- The low `width` bytes of `n`, lowest first. -/
def littleEndian : (width n : Nat) → Bytes
  | 0, _ => []
  | width + 1, n => UInt8.ofNat n :: littleEndian width (n / 256)

/-- The number whose bytes, lowest first, are given. -/
def ofLittleEndian : Bytes → Nat
  | [] => 0
  | b :: bs => b.toNat + 256 * ofLittleEndian bs

def bigEndian (width n : Nat) : Bytes := (littleEndian width n).reverse

def ofBigEndian (bs : Bytes) : Nat := ofLittleEndian bs.reverse

end DualMachine
