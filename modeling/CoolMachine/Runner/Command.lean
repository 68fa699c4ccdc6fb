import CoolMachine.CommandLine.Outcome
import CoolMachine.Image.Load
import CoolMachine.Runner.Arguments

/-! The command that runs a program image. Its output stream carries what the program prints, its
error stream the log records and, last, the error that ended the run; the exit status is the low
byte of the result. -/

namespace CoolMachine.Runner

open CommandLine

def command : Command where
  name := "runcool"
  synopsis := "[OPTIONS] <PROGRAM>"
  about := "Run a program image on the cool stack machine"

/-- The name under which a part of the program logs. -/
def originName : Origin → String
  | .machine => "coolcpu"
  | .image => "common::image"
  | .runner => "runcool"

/-- A record as one entry of the log; further lines of its text are indented. -/
def logEntry (record : Record) : List Char :=
  "[".toList ++ List.rightpad 5 ' ' record.level.name.toList ++ " ".toList ++
    (originName record.origin).toList ++ "] ".toList ++
    (record.text.toList.flatMap fun c => if c = '\n' then "\n    ".toList else [c]) ++ ['\n']

def logText (journal : Journal) : String := String.ofList (journal.records.flatMap logEntry)

/-- The line that reports an error. -/
def errorText (messages : List String) : String := "runcool: " ++ ": ".intercalate messages ++ "\n"

/-- Runs the image that opening the program yields. -/
def Arguments.run (arguments : Arguments) (environment : Option String)
    (opened : Except String ByteStream) : Outcome :=
  match Image.load arguments.program opened { verbosity := arguments.verbosity environment } with
  | .error e journal => ⟨1, "", logText journal ++ errorText (e.message :: e.causes)⟩
  | .ok image journal =>
    let journal := journal.note .debug .runner fun _ => "Running " ++ arguments.program
    match Runner.run arguments.options image {} journal with
    | .ok result s =>
      ⟨result.lowByte, String.ofList s.machine.out.contents, logText s.journal⟩
    | .error e s =>
      ⟨1, String.ofList s.machine.out.contents, logText s.journal ++ errorText [e.message]⟩

end CoolMachine.Runner
