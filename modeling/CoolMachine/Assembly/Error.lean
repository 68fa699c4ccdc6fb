import CoolMachine.Instruction.Opcode

/-! Why a source text is not a program. Every error names the line on which it was found,
counting from one. -/

namespace CoolMachine.Assembly

inductive Cause where
  /-- A label that is empty or contains a blank. -/
  | invalidLabel (label : List Char)
  /-- A label that an earlier line defines. -/
  | duplicateLabel (label : List Char)
  /-- More than two words. -/
  | tooManyOperands
  /-- A data directive alone. -/
  | missingValue
  /-- A word that is no mnemonic. -/
  | unknownMnemonic (text : List Char)
  /-- An operand behind an opcode that takes none. -/
  | unexpectedOperand (op : Opcode)
  /-- An opcode alone that takes an operand. -/
  | missingOperand (op : Opcode)
  /-- A label whose address no word can hold. -/
  | unreachableLabel (label : List Char)
  /-- An operand that is neither a label nor a number. -/
  | unknownOperand (text : List Char)
  /-- A number that no word can hold. -/
  | numberTooWide (value : Int)
  deriving DecidableEq

def Cause.message : Cause → String
  | invalidLabel label => "invalid label '" ++ String.ofList label ++ "'"
  | duplicateLabel label => "label '" ++ String.ofList label ++ "' defined twice"
  | tooManyOperands => "too many operands"
  | missingValue => ".word needs a value"
  | unknownMnemonic text => "unknown mnemonic '" ++ String.ofList text ++ "'"
  | unexpectedOperand op => op.name ++ " takes no operand"
  | missingOperand op => op.name ++ " needs an operand"
  | unreachableLabel label => "label '" ++ String.ofList label ++ "' is past the end of memory"
  | unknownOperand text => "unknown label or bad number '" ++ String.ofList text ++ "'"
  | numberTooWide value => toString value ++ " does not fit in a word"

structure Error where
  line : Nat
  cause : Cause
  deriving DecidableEq

def Error.message (e : Error) : String :=
  "line " ++ toString e.line ++ ": " ++ e.cause.message

end CoolMachine.Assembly
