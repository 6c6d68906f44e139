/-!
# Log events

What a run or a compilation reports is data: a level, a message and named fields whose
values are text. Nothing is printed here. Which events there are, and for which settings, is
said where the work that they report is defined.
-/

namespace DualMachine

inductive Level where
  | debug | trace
  deriving DecidableEq, Repr, Inhabited

def Level.name : Level → String
  | .debug => "DEBUG"
  | .trace => "TRACE"

structure Event where
  level : Level
  message : String
  fields : List (String × String)
  deriving DecidableEq, Repr, Inhabited

end DualMachine
