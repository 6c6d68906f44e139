import DualMachine.Image
import DualMachine.Vm.Journal

/-!
# Hosts

A host runs programs and images on fresh machines of the right kind. Its configuration has
been checked: the register file has a register, and none that a one-byte operand cannot
name. The check is part of the structure, so whoever has a host need not check again.

A program that faults has no result for a host: the fault is the error, and the state it
left is dropped. Running out of steps is an error too. A host never goes on with a machine,
so two programs it executes do not see each other's memory or registers.

Image files are seen through their contents. Errors say which of the parts failed, the
machine, the image or the configuration, and put its message after their own.

The events of an execution are those of the machine. An image adds one before them, which
is reported only with `debug`, and a file that holds no image reports nothing.
-/

namespace DualMachine

inductive ConfigError where
  | noRegisters
  | tooManyRegisters (count : Nat)
  deriving DecidableEq, Repr

def ConfigError.message : ConfigError → String
  | .noRegisters => "register_count must be at least 1"
  | .tooManyRegisters count =>
    s!"register_count {count} exceeds the 256 addressable registers"

inductive HostError where
  | vm (cause : VmError)
  | image (cause : ImageError)
  | config (cause : ConfigError)
  /-- The run was given up. -/
  | unfinished
  deriving DecidableEq, Repr

def HostError.message : HostError → String
  | .vm cause => s!"VM error: {cause.message}"
  | .image cause => s!"Program image error: {cause.message}"
  | .config cause => s!"Runtime configuration error: {cause.message}"
  | .unfinished => "VM error: Step limit reached"

/-- A checked configuration. -/
structure Host where
  config : Config
  registers_pos : 0 < config.registers
  registers_le : config.registers ≤ 256

namespace Host

def ofConfig (config : Config) : Except ConfigError Host :=
  if h : config.registers = 0 then .error .noRegisters
  else if h' : 256 < config.registers then .error (.tooManyRegisters config.registers)
  else .ok ⟨config, by omega, by omega⟩

def standard : Host := ⟨{}, by decide, by decide⟩

variable (host : Host)

def prepare (kind : Kind) (program : Bytes) : Vm :=
  (Vm.new kind.machine host.config).load program

/-- The state in which a program ends. -/
def execute (kind : Kind) (program : Bytes) : Except HostError State :=
  let (run, _) := (host.prepare kind program).run
  match run.ending with
  | .finished => .ok run.state
  | .faulted fault => .error (.vm (.fault fault))
  | .unfinished => .error .unfinished

def executeEvents (kind : Kind) (program : Bytes) : List Event :=
  let vm := Vm.new kind.machine host.config
  vm.loadEvents program ++ (vm.load program).runEvents

def executeImage (image : Image) : Except HostError State :=
  host.execute image.kind image.code

def executeImageEvents (image : Image) : List Event :=
  (if host.config.debug then
    [⟨.debug, "executing image",
      [("name", image.name), ("machine", image.kind.name),
       ("bytes", toString image.code.length)]⟩]
  else []) ++ host.executeEvents image.kind image.code

/-- The state in which the program of an image file ends. -/
def executeFile (contents : Option Bytes) : Except HostError State :=
  match Image.load contents with
  | .ok image => host.executeImage image
  | .error cause => .error (.image cause)

def executeFileEvents (contents : Option Bytes) : List Event :=
  match Image.load contents with
  | .ok image => host.executeImageEvents image
  | .error _ => []

end Host

end DualMachine
