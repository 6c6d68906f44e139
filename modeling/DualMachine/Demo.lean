import DualMachine.Assembly.Decoder
import DualMachine.Assembly.Parser
import DualMachine.Host

/-!
# The demonstration program

A program for the stack machine that computes ten factorial with a countdown loop, with the
report that is printed when it is assembled, stored and run. The report is put together
from three texts because the image is stored between the first and the second, and read
back and run between the second and the third; `report` is all of it for a file that gives
back what was written to it.
-/

namespace DualMachine.Demo

def version : String := "0.1.0"

/-- Slot 0 holds the product and slot 1 the factor, which counts down to zero. -/
def source : String :=
  "push 1 push 0 push 0 store
   push 10 push 1 push 0 store
   push 1 push 0 load push 0 push 0 load mul push 0 push 0 store
   push 1 push 1 push 0 load sub push 1 push 0 store
   push 1 push 0 load push -79 cjump
   push 0 push 0 load halt"

def fileName : String := "demo.rsvm"

def image : Except AsmError Image := do
  return { name := "demo", kind := .stack, code := ← Stack.table.assemble source }

def heading (image : Image) : String :=
  s!"regstack runtime v{version}\n" ++ (Stack.table.listing image.code).toOption.getD ""

def stored : String := s!"Created demo image: {fileName}\n\nExecuting {fileName}...\n"

def outcome : Except HostError State → String
  | .ok s => s!"Execution completed with result: {resultText s.result?}\n"
  | .error e => s!"Execution failed: {e.message}\n"

/-- All that is printed when the image is stored and read back. -/
def report (image : Image) : String :=
  heading image ++ stored ++ outcome (Host.standard.executeFile (some image.write))

end DualMachine.Demo
