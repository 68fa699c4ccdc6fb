import CoolMachine.Assembly.Layout

/-! From source text to program image. Operands are resolved once the layout is complete: a label,
however it is spelled, stands for its address, and anything else has to be a number. -/

namespace CoolMachine

namespace Assembly

/-- A numeral of thirty-two signed bits is a number; it fits in a word if it is the signed or the
unsigned reading of one, and its low half is then that word. -/
def numeral (text : List Char) : Except Cause Word :=
  match Decimal.toInt32? text with
  | none => .error (.unknownOperand text)
  | some value =>
    if value < -32768 ∨ 65535 < value then .error (.numberTooWide value.toInt)
    else .ok (Word.ofRegister value)

/-- The word that an operand stands for. -/
def operandWord (labels : Labels) (text : List Char) : Except Cause Word :=
  match labels[text]? with
  | some address =>
    if address < 65536 then .ok (UInt16.ofNat address) else .error (.unreachableLabel text)
  | none => numeral text

/-- The words that an item emits. -/
def Item.emit (labels : Labels) : Item → Except Cause (List Word)
  | instruction op none _ => .ok [op.code]
  | instruction op (some operand) _ => do
    let word ← operandWord labels operand
    return [op.code, word]
  | word value => do
    let word ← operandWord labels value
    return [word]

/-- The words that the items emit; the first item that cannot be emitted is reported. -/
def emitAll (labels : Labels) (items : List (Nat × Item)) : Except Error (List (List Word)) :=
  items.mapM fun (line, item) => (item.emit labels).mapError fun cause => ⟨line, cause⟩

end Assembly

/-- Assembles a source text into an image that loads at address zero. -/
def assemble (source : List Char) : Except Assembly.Error (List Word) := do
  let layout ← Assembly.Layout.ofSource source
  let words ← Assembly.emitAll layout.labels layout.items
  return words.flatten

end CoolMachine
