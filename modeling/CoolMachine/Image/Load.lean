import CoolMachine.Image.Codec
import CoolMachine.Journal
import CoolMachine.Memory.Basic

/-! Loading program images. A reader asks for one byte more than main memory holds, which is enough
to tell that an image is too large. -/

namespace CoolMachine

/-- The bytes that a stream yields, and why it fails behind them unless it ends there. -/
structure ByteStream where
  bytes : List UInt8
  failure : Option String := none

inductive LoadError where
  | cannotOpen (path reason : String)
  | cannotRead (reason : String)
  | tooLarge (bytes : Nat)
  deriving DecidableEq

namespace LoadError

def message : LoadError → String
  | cannotOpen path _ => "cannot open program image " ++ path
  | cannotRead _ => "failed to read program image"
  | tooLarge bytes =>
    "program image is " ++ toString bytes ++ " bytes, more than main memory holds"

/-- What lies behind the message, outermost first. -/
def causes : LoadError → List String
  | cannotOpen _ reason | cannotRead reason => [reason]
  | tooLarge _ => []

end LoadError

namespace Image

/-- The number of bytes in the largest image. -/
def byteLimit : Nat := 2 * memoryWords

/-- Reads the words of an image, with a warning if the last byte is half of a word. -/
def read (stream : ByteStream) : EStateM LoadError Journal (List Word) := fun journal =>
  let bytes := stream.bytes.take (byteLimit + 1)
  if byteLimit < bytes.length then .error (.tooLarge bytes.length) journal
  else
    match stream.failure with
    | some reason => .error (.cannotRead reason) journal
    | none =>
      .ok (decode bytes)
        (if bytes.length % 2 = 0 then journal
        else journal.note .warn .image fun _ =>
          "program image has a trailing odd byte, ignoring it")

/-- Reads the image at a path, given what came of opening it. -/
def load (path : String) (opened : Except String ByteStream) :
    EStateM LoadError Journal (List Word) := fun journal =>
  match opened with
  | .error reason => .error (.cannotOpen path reason) journal
  | .ok stream =>
    match read stream journal with
    | .ok words journal =>
      .ok words (journal.note .debug .image fun _ =>
        "Loaded " ++ toString words.length ++ " words from " ++ path)
    | .error e journal => .error e journal

end Image

end CoolMachine
