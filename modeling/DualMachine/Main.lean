import DualMachine.Demo

/-!
# The command line

Assembles the demonstration program, lists it, stores its image, reads the image
back and runs it.
-/

open DualMachine

/-- The contents of a file, if it can be read. -/
def readContents (path : String) : IO (Option Bytes) := do
  try
    return some (← IO.FS.readBinFile path).data.toList
  catch _ => return none

def main : IO Unit := do
  match Demo.image with
  | .error e => IO.eprintln s!"Failed to assemble demo program: {e.message}"
  | .ok image =>
    IO.print (Demo.heading image)
    IO.FS.writeBinFile Demo.fileName ⟨image.write.toArray⟩
    IO.print Demo.stored
    IO.print (Demo.outcome (Host.standard.executeFile (← readContents Demo.fileName)))
