import DualMachine.Bytes
import DualMachine.Isa.Kind

/-!
# Program images

An image is a program as it is stored: a mark, a format version, the kind of its machine,
its name and its code, the last two each after their length. Numbers are written high byte
first, in four bytes where they are lengths, so a name or a program of 2 ^ 32 bytes or more
cannot be stored faithfully.

`Image.read` takes an image off the front of a byte string and leaves what follows it, so
images can be read one after the other. It is strict about the format: another mark, another
version, an unknown kind and a name that is not UTF-8 are errors, each found as soon as the
bytes in question have been read. What it fails on stays consumed, and a field that is cut
off uses up all that is left. The code is not looked at: whether it is a program shows when
it is run.

`load` is reading from a file, of which only the contents are known here, or that there are
none. Bytes after the image are ignored there.
-/

namespace DualMachine

structure Image where
  name : String
  kind : Kind
  code : Bytes
  deriving DecidableEq, Repr, Inhabited

inductive ImageError where
  /-- The bytes end too early. -/
  | endOfInput
  /-- The file cannot be opened, read or written. -/
  | unavailable
  | badMagic
  | unknownKind (byte : UInt8)
  | nameNotText
  | unsupportedVersion (version : UInt8)
  deriving DecidableEq, Repr

def ImageError.message : ImageError → String
  | .endOfInput => "IO error: failed to fill whole buffer"
  | .unavailable => "IO error: file unavailable"
  | .badMagic => "Invalid image format: Invalid magic number"
  | .unknownKind byte => s!"Invalid image format: Unknown machine kind: {byte}"
  | .nameNotText => "Invalid image format: Program name is not UTF-8"
  | .unsupportedVersion version => s!"Unsupported image version: {version}"

/-- Readers of a byte string; the state is what is left of it. -/
abbrev Reader := EStateM ImageError Bytes

namespace Reader

/-- The next `count` bytes. If there are fewer, they are used up. -/
def take (count : Nat) : Reader Bytes := do
  let input ← get
  let bytes := input.take count
  set (input.drop count)
  if bytes.length < count then throw .endOfInput
  return bytes

def number (width : Nat) : Reader Nat :=
  return ofBigEndian (← take width)

def byte : Reader UInt8 :=
  return UInt8.ofNat (← number 1)

end Reader

namespace Image

/-- The four bytes that every image starts with, as a number. -/
def magic : Nat := 0x5253564D

def version : UInt8 := 1

def write (image : Image) : Bytes :=
  let name := image.name.toUTF8.data.toList
  bigEndian 4 magic ++ [version, image.kind.toByte]
    ++ bigEndian 4 name.length ++ name
    ++ bigEndian 4 image.code.length ++ image.code

def read : Reader Image := do
  unless (← Reader.number 4) = magic do throw .badMagic
  let format ← Reader.byte
  unless format = version do throw (.unsupportedVersion format)
  let kindByte ← Reader.byte
  let some kind := Kind.ofByte? kindByte | throw (.unknownKind kindByte)
  let nameBytes ← Reader.take (← Reader.number 4)
  let some name := String.fromUTF8? ⟨nameBytes.toArray⟩ | throw .nameNotText
  let code ← Reader.take (← Reader.number 4)
  return { name, kind, code }

/-- The image in a file with the given contents, if it has any. -/
def load (contents : Option Bytes) : Except ImageError Image :=
  match contents with
  | none => .error .unavailable
  | some bytes =>
    match read bytes with
    | .ok image _ => .ok image
    | .error e _ => .error e

end Image

end DualMachine
