import DualMachine.Assembly.Builder
import DualMachine.Assembly.Decoder
import DualMachine.Assembly.Error
import DualMachine.Assembly.Instruction
import DualMachine.Assembly.Parser
import DualMachine.Build
import DualMachine.Bytes
import DualMachine.Demo
import DualMachine.Event
import DualMachine.Host
import DualMachine.Image
import DualMachine.Immediate
import DualMachine.Isa.Descriptor
import DualMachine.Isa.Kind
import DualMachine.Isa.Table
import DualMachine.Json.Basic
import DualMachine.Json.Lexer
import DualMachine.Json.Parser
import DualMachine.Json.Printer
import DualMachine.Link.Layout
import DualMachine.Link.Reach
import DualMachine.Lowering.Backend
import DualMachine.Lowering.Draft
import DualMachine.Lowering.Error
import DualMachine.Lowering.RegisterCode
import DualMachine.Lowering.Scope
import DualMachine.Lowering.StackCode
import DualMachine.Machine.Fault
import DualMachine.Machine.Register
import DualMachine.Machine.Stack
import DualMachine.Machine.State
import DualMachine.Main
import DualMachine.Proofs.Activation
import DualMachine.Proofs.Correctness
import DualMachine.Proofs.Coupling
import DualMachine.Proofs.Effects
import DualMachine.Proofs.Emission
import DualMachine.Proofs.Encoding
import DualMachine.Proofs.Evaluation
import DualMachine.Proofs.Execution
import DualMachine.Proofs.Invariant
import DualMachine.Proofs.Linking
import DualMachine.Proofs.Operation
import DualMachine.Proofs.Refinement
import DualMachine.Proofs.Register.Emission
import DualMachine.Proofs.Register.Simulation
import DualMachine.Proofs.Safety
import DualMachine.Proofs.Stack.Emission
import DualMachine.Proofs.Stack.Simulation
import DualMachine.Proofs.Statements
import DualMachine.Proofs.Target
import DualMachine.Proofs.Trace
import DualMachine.Session
import DualMachine.Source.Basic
import DualMachine.Source.Json
import DualMachine.Text.Blank
import DualMachine.Text.Decimal
import DualMachine.Text.Extender
import DualMachine.Text.Ignorable
import DualMachine.Text.Quoted
import DualMachine.Text.Ranges
import DualMachine.Text.Unprinted
import DualMachine.Vm
import DualMachine.Vm.Journal
import DualMachine.Word
import DualMachine.Proofs.History
import DualMachine.Proofs.Globals
import DualMachine.Proofs.Checking
import DualMachine.Proofs.Register.Checking
import DualMachine.Proofs.Stack.Checking
import DualMachine.Proofs.Tracking
import DualMachine.Proofs.Frames
import DualMachine.Proofs.Decoding
import DualMachine.Proofs.Locality
import DualMachine.Proofs.Fetching
import DualMachine.Proofs.Reach
import DualMachine.Proofs.Room
import DualMachine.Proofs.Acceptance
import DualMachine.Proofs.Confinement
import DualMachine.Proofs.Relocation
import DualMachine.Proofs.Assembly
import DualMachine.Proofs.Image
import DualMachine.Proofs.Collapse
import DualMachine.Proofs.Libraries
import DualMachine.Proofs.Sessions
import DualMachine.Proofs.Registration
import DualMachine.Proofs.Renaming
import DualMachine.Proofs.Branches
import DualMachine.Proofs.Register.Preservation
import DualMachine.Proofs.Faults
import DualMachine.Proofs.Pruning
import DualMachine.Proofs.Scoping
import DualMachine.Proofs.Annotations
import DualMachine.Proofs.Stack.Heights
import DualMachine.Proofs.Tables
import DualMachine.Proofs.Words
import DualMachine.Proofs.Grammar
import DualMachine.Proofs.Spelling
import DualMachine.Proofs.Immediates
import DualMachine.Proofs.Resolution
import DualMachine.Proofs.Rendering
import DualMachine.Proofs.Interchange
import DualMachine.Proofs.Ledgers
import DualMachine.Proofs.Recording
import DualMachine.Proofs.Register.Recording
import DualMachine.Proofs.Stack.Recording
import DualMachine.Proofs.Slots
