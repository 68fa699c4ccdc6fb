import CoolMachine.Assembler.Arguments
import CoolMachine.Assembly.Program
import CoolMachine.CommandLine.Outcome
import CoolMachine.Image.Load
import CoolMachine.Text.Utf8

/-! The command that assembles a source text into a program image. It opens its target only once
the whole image is known, so a failure leaves no trace in the file system. -/

namespace CoolMachine.Assembler

open CommandLine

def command : Command where
  name := "coolasm"
  synopsis := "[OPTIONS] <SOURCE>"
  about := "Assemble cool source into a program image"

inductive Error where
  | cannotRead (path reason : String)
  | badSource (path : String) (error : Assembly.Error)
  | cannotCreate (path reason : String)
  deriving DecidableEq

namespace Error

def message : Error → String
  | cannotRead path _ => "cannot read " ++ path
  | badSource path _ => path
  | cannotCreate path _ => "cannot create " ++ path

def cause : Error → String
  | cannotRead _ reason | cannotCreate _ reason => reason
  | badSource _ e => e.message

/-- The message, and behind an empty line its cause. -/
def outcome (e : Error) : Outcome :=
  ⟨1, "", "Error: " ++ e.message ++ "\n\nCaused by:\n    " ++ e.cause ++ "\n"⟩

end Error

def success : Outcome := ⟨0, "", ""⟩

/-- The text that opening a source yields. -/
def sourceText (opened : Except String ByteStream) : Except String (List Char) := do
  let stream ← opened
  match stream.failure, Utf8.decode? stream.bytes with
  | some reason, _ => .error reason
  | none, some text => .ok text
  | none, none => .error "stream did not contain valid UTF-8"

/-- The bytes of the image that the source stands for. -/
def Arguments.compile (arguments : Arguments) (opened : Except String ByteStream) :
    Except Error (List UInt8) := do
  let text ← (sourceText opened).mapError (.cannotRead arguments.source)
  let image ← (assemble text).mapError (.badSource arguments.source)
  return Image.encode image

end CoolMachine.Assembler
