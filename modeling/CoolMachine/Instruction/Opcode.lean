import CoolMachine.Word

/-! The seventeen instructions of the machine. An instruction is one word, or two when its opcode
takes an operand; the operand kind says how the second word is read. -/

namespace CoolMachine

/-- How the word behind an opcode is read. -/
inductive OperandKind where
  | absent
  | address
  | constant
  | offset
  deriving DecidableEq

inductive Opcode where
  | halt
  | nop
  | add
  | sub
  | mult
  | div
  | call
  | ret
  | jmp
  | jeq
  | printi
  | prints
  | pushc
  | pusha
  | pushr
  | popa
  | popr
  deriving DecidableEq

namespace Opcode

/-- All opcodes in the order of their codes. -/
def all : List Opcode :=
  [halt, nop, add, sub, mult, div, call, ret, jmp, jeq, printi, prints, pushc, pusha, pushr, popa,
    popr]

/-- The word that stands for the opcode in memory. -/
def code : Opcode → Word
  | halt => 0
  | nop => 1
  | add => 2
  | sub => 3
  | mult => 4
  | div => 5
  | call => 6
  | ret => 7
  | jmp => 8
  | jeq => 9
  | printi => 10
  | prints => 11
  | pushc => 12
  | pusha => 13
  | pushr => 14
  | popa => 15
  | popr => 16

/-- The opcode that a word stands for; words above 16 stand for none. -/
def ofWord? (w : Word) : Option Opcode := all[w.toNat]?

/-- The mnemonic, in lower case. -/
def name : Opcode → String
  | halt => "halt"
  | nop => "nop"
  | add => "add"
  | sub => "sub"
  | mult => "mult"
  | div => "div"
  | call => "call"
  | ret => "return"
  | jmp => "jmp"
  | jeq => "jeq"
  | printi => "printi"
  | prints => "prints"
  | pushc => "pushc"
  | pusha => "pusha"
  | pushr => "pushr"
  | popa => "popa"
  | popr => "popr"

def operandKind : Opcode → OperandKind
  | halt | nop | add | sub | mult | div | printi | prints => .absent
  | call | jmp | jeq | pusha | popa => .address
  | pushc => .constant
  | ret | pushr | popr => .offset

def takesOperand (op : Opcode) : Bool := op.operandKind ≠ .absent

/-- The number of words that the instruction occupies. -/
def size (op : Opcode) : Nat := if op.takesOperand then 2 else 1

theorem mem_all (op : Opcode) : op ∈ all := by
  cases op <;> decide

theorem ofWord?_code (op : Opcode) : ofWord? op.code = some op := by
  cases op <;> rfl

theorem ofWord?_eq_some_iff {w : Word} {op : Opcode} : ofWord? w = some op ↔ w = op.code := by
  refine ⟨fun h => ?_, fun h => h ▸ ofWord?_code op⟩
  have hall : ∀ i : Fin 17, all[i.val]? = some op → i.val = op.code.toNat := by
    cases op <;> decide
  have hw : w.toNat < 17 := (List.getElem?_eq_some_iff.mp h).1
  exact UInt16.toNat_inj.mp (hall ⟨w.toNat, hw⟩ h)

theorem ofWord?_eq_none_iff {w : Word} : ofWord? w = none ↔ 16 < w.toNat :=
  List.getElem?_eq_none_iff

theorem code_inj {a b : Opcode} : a.code = b.code ↔ a = b := by
  refine ⟨fun h => ?_, fun h => h ▸ rfl⟩
  exact Option.some.inj ((ofWord?_code a).symm.trans (h ▸ ofWord?_code b))

end Opcode

end CoolMachine
