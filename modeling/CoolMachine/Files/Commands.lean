import CoolMachine.Assembler.Command
import CoolMachine.Files.Tree
import CoolMachine.Runner.Command

/-! The two commands on a tree of files. Running an image leaves the tree as it is; assembling a
source changes the target, and only if everything before it went well. -/

namespace CoolMachine.Files.Tree

open CommandLine

/-- What opening a path yields, with an error as its text. -/
def opened (tree : Tree) (path : String) : Except String ByteStream :=
  (tree.openPath path).mapError SystemError.message

def runImage (tree : Tree) (arguments : List String) (environment : Option String) : Outcome :=
  match Runner.Arguments.parse arguments with
  | .error stop => stop.outcome Runner.command
  | .ok arguments => arguments.run environment (tree.opened arguments.program)

def assembleSource (tree : Tree) (arguments : List String) : Outcome × Tree :=
  match Assembler.Arguments.parse arguments with
  | .error stop => (stop.outcome Assembler.command, tree)
  | .ok arguments =>
    match arguments.compile (tree.opened arguments.source) with
    | .error e => (e.outcome, tree)
    | .ok bytes =>
      match tree.create arguments.target bytes with
      | .error e => ((Assembler.Error.cannotCreate arguments.target e.message).outcome, tree)
      | .ok tree => (Assembler.success, tree)

end CoolMachine.Files.Tree
