import CoolMachine.CommandLine.Grammar
import CoolMachine.Journal
import CoolMachine.Runner.Execution

/-! The arguments of the command that runs a program image. -/

namespace CoolMachine.Runner

open CommandLine

/-- A step limit is an unsigned decimal of sixty-four bits. -/
def stepLimit? (value : String) : Option Nat :=
  (Decimal.toUnsigned? value.toList).filter (· < UInt64.size)

def checkStepLimit (value : String) : Option Stop :=
  if (stepLimit? value).isSome then none else some .invalidValue

def optionSpecs : List OptionSpec :=
  [.switch "dump-memory", .switch "compat", .switch "trace",
    .valued "max-steps" none checkStepLimit] ++ standardOptions

structure Arguments where
  program : String
  options : Options
  trace : Bool
  deriving DecidableEq

namespace Arguments

def parse (arguments : List String) : Except Stop Arguments := do
  let (program, settings) ← CommandLine.parse optionSpecs arguments
  return {
    program
    options :=
      { dumpMemory := settings.has "dump-memory"
        compatible := settings.has "compat"
        maxSteps := (settings.value? "max-steps").bind stepLimit? }
    trace := settings.has "trace" }

/-- The verbosity unless the environment sets another. -/
def defaultVerbosity (arguments : Arguments) : Level :=
  if arguments.trace then .trace else .warn

/-- The environment's setting outranks the arguments; an empty one shows errors only, and one that
names no level shows nothing. -/
def verbosity (arguments : Arguments) (environment : Option String) : Option Level :=
  match environment with
  | none => some arguments.defaultVerbosity
  | some "" => some .error
  | some setting => Level.ofName? setting

end Arguments

end CoolMachine.Runner
