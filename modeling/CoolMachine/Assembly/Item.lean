import CoolMachine.Assembly.Error
import CoolMachine.Instruction.Listing
import CoolMachine.Text.Blank

/-! The grammar of one line. A hash sign starts a comment; the text before the first colon, if
there is one, is a label; what remains is empty, an instruction or a data word. A line feed ends a
line, and a carriage return before it is blank like any other. -/

namespace CoolMachine.Assembly

/-- An instruction or a data word, with its operand as written. -/
inductive Item where
  | instruction (op : Opcode) (operand : Option (List Char))
      (agrees : operand.isSome = op.takesOperand)
  | word (value : List Char)

/-- The number of words that the item emits. -/
def Item.size : Item → Nat
  | instruction op _ _ => op.size
  | word _ => 1

def commentMark : Char := '#'

def labelMark : Char := ':'

def dataDirective : List Char := ".word".toList

/-- The lines of a text, without their terminators. -/
def lines (source : List Char) : List (List Char) := source.splitOn '\n'

/-- The line without its comment. -/
def statement (line : List Char) : List Char := line.takeWhile (· != commentMark)

/-- The label on a line, without the blanks around it, and what follows its colon. -/
def splitLabel (text : List Char) : Option (List Char) × List Char :=
  if labelMark ∈ text then
    (some (Text.trim (text.takeWhile (· != labelMark))),
      (text.dropWhile (· != labelMark)).drop 1)
  else (none, text)

/-- The item with first word `head`; a data directive is recognised in lower case only. -/
def Item.parse (head : List Char) (operand : Option (List Char)) : Except Cause Item :=
  if head = dataDirective then
    match operand with
    | some value => .ok (.word value)
    | none => .error .missingValue
  else
    match Opcode.ofMnemonic? head with
    | none => .error (.unknownMnemonic head)
    | some op =>
      if agrees : operand.isSome = op.takesOperand then .ok (.instruction op operand agrees)
      else if op.takesOperand then .error (.missingOperand op)
      else .error (.unexpectedOperand op)

/-- The item that the words of a line make up, if there are any words. -/
def Item.ofWords : List (List Char) → Except Cause (Option Item)
  | [] => .ok none
  | [head] => (Item.parse head none).map some
  | [head, operand] => (Item.parse head (some operand)).map some
  | _ => .error .tooManyOperands

end CoolMachine.Assembly
