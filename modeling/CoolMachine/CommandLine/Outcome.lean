import CoolMachine.CommandLine.Grammar

/-! What a command leaves behind: its exit status and the text on its two output streams. -/

namespace CoolMachine.CommandLine

structure Outcome where
  status : UInt8
  stdout : String
  stderr : String
  deriving DecidableEq

/-- The name of a command and the names of its arguments. -/
structure Command where
  name : String
  synopsis : String
  about : String

namespace Command

def versionText (command : Command) : String := command.name ++ " 0.1.0\n"

def usageText (command : Command) : String :=
  "Usage: " ++ command.name ++ " " ++ command.synopsis ++ "\n"

end Command

def Stop.message : Stop → String
  | help => "help requested"
  | version => "version requested"
  | missingOperand => "a required argument was not given"
  | unknownArgument => "an argument was not expected"
  | repeatedOption => "an option was given more than once"
  | unexpectedValue => "a value was given to an option that takes none"
  | missingValue => "a value is required"
  | invalidValue => "a value is not valid"

/-- Help and version go to standard output; any other stop is an error of usage. -/
def Stop.outcome (command : Command) : Stop → Outcome
  | help => ⟨0, command.about ++ "\n\n" ++ command.usageText, ""⟩
  | version => ⟨0, command.versionText, ""⟩
  | stop => ⟨2, "", "error: " ++ stop.message ++ "\n\n" ++ command.usageText⟩

end CoolMachine.CommandLine
