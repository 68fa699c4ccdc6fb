import CoolMachine.Word
import CoolMachine.Text.Decimal
import CoolMachine.Text.Blank
import CoolMachine.Text.Utf8
import CoolMachine.Instruction.Opcode
import CoolMachine.Instruction.Listing
import CoolMachine.Memory.Bank
import CoolMachine.Memory.Traffic
import CoolMachine.Memory.Basic
import CoolMachine.Sink
import CoolMachine.Machine.Fault
import CoolMachine.Machine.Basic
import CoolMachine.Machine.Step
import CoolMachine.Machine.Run
import CoolMachine.Journal
import CoolMachine.Session
import CoolMachine.Assembly.Error
import CoolMachine.Assembly.Item
import CoolMachine.Assembly.Layout
import CoolMachine.Assembly.Program
import CoolMachine.Image.Codec
import CoolMachine.Image.Load
import CoolMachine.Runner.Execution
import CoolMachine.CommandLine.Grammar
import CoolMachine.CommandLine.Outcome
import CoolMachine.Runner.Arguments
import CoolMachine.Runner.Command
import CoolMachine.Assembler.Arguments
import CoolMachine.Assembler.Command
import CoolMachine.Files.Tree
import CoolMachine.Files.Commands
import CoolMachine.Main
import CoolMachine.Proofs.Machine.Equations
import CoolMachine.Proofs.Simulation
import CoolMachine.Proofs.Mode.Restriction
import CoolMachine.Proofs.Ideal.Agreement
import CoolMachine.Proofs.Outcome
import CoolMachine.Proofs.Ideal.Outcome
import CoolMachine.Proofs.Machine.Operation
import CoolMachine.Proofs.Machine.Control
import CoolMachine.Proofs.Register.Range
import CoolMachine.Proofs.Ideal.Footprint
import CoolMachine.Proofs.Frame.Nesting
import CoolMachine.Proofs.Expression.Basic
import CoolMachine.Proofs.Path
import CoolMachine.Proofs.Expression.Execution
import CoolMachine.Proofs.Expression.Correctness
import CoolMachine.Proofs.Machine.Outcome
import CoolMachine.Proofs.Machine.Accesses
import CoolMachine.Proofs.Output.Sink
import CoolMachine.Proofs.Machine.Silence
import CoolMachine.Proofs.Machine.History
import CoolMachine.Proofs.Traffic.Charge
import CoolMachine.Proofs.Traffic.Account
import CoolMachine.Proofs.Mode.Congruence
import CoolMachine.Proofs.Assembly.Layout
import CoolMachine.Proofs.Assembly.Emission
import CoolMachine.Proofs.Assembly.Spacing
import CoolMachine.Proofs.Assembly.RoundTrip
import CoolMachine.Proofs.Observation
import CoolMachine.Proofs.Output.Run
import CoolMachine.Proofs.Output.Truncation
import CoolMachine.Proofs.Image.RoundTrip
import CoolMachine.Proofs.Machine.Flow
import CoolMachine.Proofs.Assembly.Alignment
import CoolMachine.Proofs.Fault.Hazard
import CoolMachine.Proofs.Fault.Forecast
import CoolMachine.Proofs.Frame.ReturnAddress
import CoolMachine.Proofs.Image.Acceptance
import CoolMachine.Proofs.Files.Tree
import CoolMachine.Proofs.Runner.Log
import CoolMachine.Proofs.Files.Delivery
import CoolMachine.Proofs.Fault.Damage
import CoolMachine.Proofs.Machine.Stack
import CoolMachine.Proofs.Text.Words
import CoolMachine.Proofs.Text.Decimal
import CoolMachine.Proofs.Assembly.Lines
import CoolMachine.Proofs.Assembly.Grammar
import CoolMachine.Proofs.Assembly.Edits
import CoolMachine.Proofs.Image.CutOff
import CoolMachine.Proofs.Machine.Begun
import CoolMachine.Proofs.Machine.Operand
import CoolMachine.Proofs.Memory.History
import CoolMachine.Proofs.Session.Replies
import CoolMachine.Proofs.Session.Records
import CoolMachine.Proofs.Assembly.Relabelling
import CoolMachine.Proofs.Assembly.Renaming
import CoolMachine.Proofs.Text.Overflow
import CoolMachine.Proofs.Assembly.Numeral
