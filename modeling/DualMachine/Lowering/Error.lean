import DualMachine.Assembly.Error

/-!
# Errors of compilation

What can be wrong with a package. The errors of a single function, which are found while
its code is generated, name the function under the name it is registered by; those that
come from putting functions together name only what is missing or defined twice.
`registerPressure` also stands for a register file that no code can be generated for, before
there is any function; the name is empty then.
-/

namespace DualMachine

inductive CompileError where
  | duplicateVariable (function name : String)
  | undeclaredVariable (function name : String)
  | duplicateFunction (name : String)
  | undefinedFunction (name : String)
  | missingEntryPoint (name : String)
  | registerPressure (function : String) (needed available : Nat)
  | frameOverflow (function : String) (slots : Nat)
  | missingInstruction (opcode : UInt8)
  | assembly (cause : AsmError)
  deriving DecidableEq, Repr

def CompileError.message : CompileError → String
  | .duplicateVariable function name => s!"Variable '{name}' declared twice in '{function}'"
  | .undeclaredVariable function name => s!"Undeclared variable '{name}' in '{function}'"
  | .duplicateFunction name => s!"Function '{name}' defined twice"
  | .undefinedFunction name => s!"Call to undefined function '{name}'"
  | .missingEntryPoint name => s!"Entry point '{name}' is not defined"
  | .registerPressure function needed available =>
    s!"Expression in '{function}' needs {needed} registers, {available} available"
  | .frameOverflow function slots => s!"Function '{function}' needs {slots} frame slots"
  | .missingInstruction opcode => s!"Target instruction set lacks opcode {opcode}"
  | .assembly cause => s!"Assembly error: {cause.message}"

end DualMachine
