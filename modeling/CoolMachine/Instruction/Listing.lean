import CoolMachine.Instruction.Opcode
import CoolMachine.Text.Decimal

/-! The written form of one instruction. The mnemonic stands in a column of seven, so a blank
always separates it from the operand; addresses are unsigned, constants and offsets signed. -/

namespace CoolMachine

/-- The operand as its kind reads it. -/
def OperandKind.numeral (kind : OperandKind) (operand : Word) : List Char :=
  match kind with
  | .absent => []
  | .address => Decimal.ofNat operand.toNat
  | .constant | .offset => Decimal.ofInt operand.signed.toInt

namespace Opcode

/-- A question mark stands for an operand that is not known. -/
def listing (op : Opcode) (operand : Option Word) : List Char :=
  if op.takesOperand then
    List.rightpad 7 ' ' op.name.toList ++
      match operand with
      | some operand => op.operandKind.numeral operand
      | none => ['?']
  else op.name.toList

/-- Mnemonics are recognised in either case of the ASCII letters. -/
def ofMnemonic? (text : List Char) : Option Opcode :=
  let folded := text.map Char.toLower
  all.find? fun op => folded == op.name.toList

theorem ofMnemonic?_name (op : Opcode) : ofMnemonic? op.name.toList = some op := by
  cases op <;> decide

/-- A mnemonic never fills its column. -/
theorem name_length_lt (op : Opcode) : op.name.toList.length < 7 := by
  cases op <;> decide

theorem isLower_of_mem_name {op : Opcode} {c : Char} (h : c ∈ op.name.toList) :
    c.isLower = true := by
  have hall : op.name.toList.all Char.isLower = true := by cases op <;> decide
  exact List.all_eq_true.mp hall c h

end Opcode

/-- The instruction that a word stands for, with the word behind it as operand. -/
def listing (word : Word) (operand : Option Word) : List Char :=
  match Opcode.ofWord? word with
  | some op => op.listing operand
  | none => "illegal ".toList ++ Decimal.ofNat word.toNat

end CoolMachine
