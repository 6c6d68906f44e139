import DualMachine.Session
import DualMachine.Source.Json

/-!
# From source files to image files

A source file holds a package as JSON; compiling it gives an image named after the file.
Files are seen here only through their contents: nothing where a file cannot be read, and a
flag for whether one can be written. A file whose bytes are not UTF-8 counts as one that
cannot be read, and every failure is reported with the path it is about.

The name of an image is the last part of the path up to its last dot, and `program` where a
path has no last part. The parts `.` and empty ones, as after a slash at the end, are passed
over; a path that ends in `..` names no file. A dot at the front of a name does not separate
anything.
-/

namespace DualMachine

open Source

inductive BuildError where
  | unreadable (path : String)
  | unparsable (path : String)
  | uncompilable (path : String) (target : Kind) (cause : CompileError)
  | unwritable (path : String)
  deriving DecidableEq, Repr

def BuildError.message : BuildError → String
  | .unreadable path => s!"Failed to read {path}"
  | .unparsable path => s!"Failed to parse AST in {path}"
  | .uncompilable path target _ =>
    s!"Failed to compile {path} for the {target.name} machine"
  | .unwritable path => s!"Failed to write {path}"

def BuildError.cause? : BuildError → Option CompileError
  | .uncompilable _ _ cause => some cause
  | _ => none

namespace Build

/-- The last part of a path that names a file. -/
def fileName? (path : String) : Option String :=
  match ((path.splitOn "/").filter fun part => part ≠ "" && part ≠ ".").getLast? with
  | some ".." => none
  | part => part

/-- A name up to its last dot, which does not count at the front of a name. -/
def stem (name : String) : String :=
  let before := (name.toList.reverse.dropWhile (· ≠ '.')).drop 1
  if before.isEmpty then name else String.ofList before.reverse

def imageName (path : String) : String :=
  ((fileName? path).map stem).getD "program"

def loadPackage (path : String) (contents : Option Bytes) : Except BuildError Package :=
  match contents.bind fun bytes => String.fromUTF8? ⟨bytes.toArray⟩ with
  | none => .error (.unreadable path)
  | some text =>
    match Package.parse? text with
    | none => .error (.unparsable path)
    | some p => .ok p

def compileFile (path : String) (contents : Option Bytes) (target : Kind) :
    Except BuildError Image := do
  let p ← loadPackage path contents
  match compile p target with
  | .ok program => return program.toImage (imageName path)
  | .error cause => throw (.uncompilable path target cause)

/-- The image of a source file that is to be stored at `output`, which may not be
writable. -/
def buildFile (path : String) (contents : Option Bytes) (target : Kind)
    (output : String) (writable : Bool) : Except BuildError Image := do
  let image ← compileFile path contents target
  if writable then return image else throw (.unwritable output)

end Build

end DualMachine
