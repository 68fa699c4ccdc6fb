import CoolMachine.Files.Commands

/-! The two commands on the files of the host. The first argument names the command; everything
that is decided about the others, and about what the files hold, is decided elsewhere. -/

namespace CoolMachine.Host

open CommandLine Files

/-- The text of a system error with the given number. -/
def numbered (code : UInt32) (details : String) : String :=
  match code with
  | 2 => SystemError.missing.message
  | 20 => SystemError.notDirectory.message
  | 21 => SystemError.isDirectory.message
  | 36 => SystemError.nameTooLong.message
  | _ => details ++ " (os error " ++ toString code.toNat ++ ")"

def reason : IO.Error → String
  | .noFileOrDirectory _ code details => numbered code details
  | .inappropriateType _ code details => numbered code details
  | .invalidArgument _ code details => numbered code details
  | .permissionDenied _ code details => numbered code details
  | .resourceExhausted _ code details => numbered code details
  | .otherError code details => numbered code details
  | e => toString e

/-- The outcome of an action, with an error as its text. -/
def attempt {α : Type} (action : IO α) : IO (Except String α) := do
  match ← action.toBaseIO with
  | .ok value => return .ok value
  | .error e => return .error (reason e)

/-- Opens a file and reads all of it. -/
def openPath (path : String) : IO (Except String ByteStream) := do
  match ← attempt (IO.FS.Handle.mk path .read) with
  | .error reason => return .error reason
  | .ok handle =>
    match ← attempt handle.readBinToEnd with
    | .ok bytes => return .ok { bytes := bytes.toList }
    | .error reason => return .ok { bytes := [], failure := some reason }

def create (path : String) (bytes : List UInt8) : IO (Except String Unit) :=
  attempt (IO.FS.writeBinFile path bytes.toByteArray)

def runImage (arguments : List String) : IO Outcome := do
  match Runner.Arguments.parse arguments with
  | .error stop => return stop.outcome Runner.command
  | .ok arguments =>
    let environment ← IO.getEnv "RUST_LOG"
    return arguments.run environment (← openPath arguments.program)

def assembleSource (arguments : List String) : IO Outcome := do
  match Assembler.Arguments.parse arguments with
  | .error stop => return stop.outcome Assembler.command
  | .ok arguments =>
    match arguments.compile (← openPath arguments.source) with
    | .error e => return e.outcome
    | .ok bytes =>
      match ← create arguments.target bytes with
      | .ok _ => return Assembler.success
      | .error reason => return (Assembler.Error.cannotCreate arguments.target reason).outcome

def run : List String → IO Outcome
  | "runcool" :: arguments => runImage arguments
  | "coolasm" :: arguments => assembleSource arguments
  | _ => return ⟨2, "", "Usage: <runcool | coolasm> [ARGUMENTS]\n"⟩

end CoolMachine.Host

def main (arguments : List String) : IO UInt32 := do
  let outcome ← CoolMachine.Host.run arguments
  IO.print outcome.stdout
  IO.eprint outcome.stderr
  return outcome.status.toUInt32
