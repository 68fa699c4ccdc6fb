import CoolMachine.Instruction.Opcode
import CoolMachine.Proofs.Ideal.Machine

/-! Arithmetic expressions: what they mean, and the code that leaves their value on the stack. The
left operand is evaluated first, and an operator follows its operands. -/

namespace CoolMachine

inductive Operator where
  | add
  | sub
  | mult
  | div
  deriving DecidableEq

namespace Operator

def opcode : Operator → Opcode
  | add => .add
  | sub => .sub
  | mult => .mult
  | div => .div

/-- The exact result, if there is one. Division truncates toward zero. -/
def result? (left right : Int) : Operator → Option Int
  | add => some (left + right)
  | sub => some (left - right)
  | mult => some (left * right)
  | div => if right = 0 then none else some (left.tdiv right)

/-- The same on signed words, where a result that does not fit wraps. -/
def onWords : Operator → Int16 → Int16 → Option Int16
  | add => fun left right => some (left + right)
  | sub => fun left right => some (left - right)
  | mult => fun left right => some (left * right)
  | div => Ideal.divide?

/-- The machine computes the exact result and keeps its low sixteen bits. -/
theorem onWords_eq (op : Operator) (left right : Int16) :
    (op.onWords left right).map Int16.toInt =
      (op.result? left.toInt right.toInt).map fun exact => exact.bmod 65536 := by
  cases op with
  | add => exact congrArg some (Int16.toInt_add left right)
  | sub => exact congrArg some (Int16.toInt_sub left right)
  | mult => exact congrArg some (Int16.toInt_mul left right)
  | div =>
      have hz : right.toInt = 0 ↔ right = 0 := by
        rw [← Int16.toInt_zero, Int16.toInt_inj]
      simp only [onWords, result?, Ideal.divide?, hz]
      by_cases h : right = 0
      · rw [if_pos h, if_pos h]
        rfl
      · rw [if_neg h, if_neg h]
        exact congrArg some (Int16.toInt_div left right)

theorem exists_result?_of_onWords {op : Operator} {left right value : Int16}
    (h : op.onWords left right = some value) :
    ∃ exact, op.result? left.toInt right.toInt = some exact ∧ value.toInt = exact.bmod 65536 := by
  have hmap := op.onWords_eq left right
  rw [h, Option.map_some, eq_comm, Option.map_eq_some_iff] at hmap
  obtain ⟨exact, hexact, hvalue⟩ := hmap
  exact ⟨exact, hexact, hvalue.symm⟩

theorem ofOpcode_opcode (op : Operator) :
    Ideal.ofOpcode op.opcode = Ideal.combine op.onWords := by
  cases op <;> rfl

/-- Only a division can be without a result. -/
theorem eq_div_of_result?_eq_none {op : Operator} {left right : Int}
    (h : op.result? left right = none) : op = .div := by
  cases op with
  | add => cases h
  | sub => cases h
  | mult => cases h
  | div => rfl

end Operator

inductive Expr where
  | const (value : Word)
  | node (op : Operator) (left right : Expr)

namespace Expr

def code : Expr → List Word
  | const value => [Opcode.pushc.code, value]
  | node op left right => left.code ++ right.code ++ [op.opcode.code]

/-- The number of cells that the stack needs during the evaluation. -/
def depth : Expr → Nat
  | const _ => 1
  | node _ left right => max left.depth (right.depth + 1)

/-- The value, computed exactly and reduced to a signed word at every node; or, for code at the
given address, the address of the first division by zero. -/
def eval (address : Nat) : Expr → Except Nat Int
  | const value => .ok value.signed.toInt
  | node op left right => do
    let a ← left.eval address
    let b ← right.eval (address + left.code.length)
    match op.result? a b with
    | some exact => .ok (exact.bmod 65536)
    | none => .error (address + left.code.length + right.code.length)

end Expr

/-- A program that prints the values of some expressions and halts with the value of the last. -/
structure Calculation where
  printed : List Expr
  last : Expr

namespace Calculation

def codeOf (printed : List Expr) (last : Expr) : List Word :=
  printed.flatMap (fun tree => tree.code ++ [Opcode.printi.code]) ++ last.code ++ [Opcode.halt.code]

def code (c : Calculation) : List Word := codeOf c.printed c.last

/-- The greatest depth of the stack. -/
def depth (c : Calculation) : Nat := ((c.printed ++ [c.last]).map Expr.depth).foldr max 0

/-- The values printed by code at the given address, and how the program ends. -/
def evalFrom (last : Expr) : Nat → List Expr → List Int × Except Nat Int
  | address, [] => ([], last.eval address)
  | address, tree :: rest =>
    match tree.eval address with
    | .ok value =>
      let (values, result) := evalFrom last (address + tree.code.length + 1) rest
      (value :: values, result)
    | .error division => ([], .error division)

def eval (c : Calculation) : List Int × Except Nat Int := evalFrom c.last 0 c.printed

end Calculation

end CoolMachine
