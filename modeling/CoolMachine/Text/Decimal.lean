/-! Decimal numerals. Writing uses the fewest digits, a minus sign for negative values and nothing
else; reading also takes a plus sign and leading zeros, and undoes writing. A number is read at its
full size or into thirty-two bits, where the digits are taken up one by one and no step may
overflow. -/

namespace CoolMachine.Decimal

def ofNat (n : Nat) : List Char := Nat.toDigits 10 n

def ofInt : Int → List Char
  | .ofNat n => ofNat n
  | .negSucc n => '-' :: ofNat (n + 1)

/-- One or more digits are read as a number of any size. -/
def toNat? (digits : List Char) : Option Nat :=
  if digits ≠ [] ∧ digits.all Char.isDigit then some (Nat.ofDigitChars 10 digits 0) else none

/-- At most one plus sign may stand before the digits. -/
def toUnsigned? : List Char → Option Nat
  | '+' :: digits => toNat? digits
  | digits => toNat? digits

/-- At most one sign may stand before the digits. -/
def toInt? : List Char → Option Int
  | '-' :: digits => (toNat? digits).map fun n => -(n : Int)
  | text => (toUnsigned? text).map fun n => (n : Int)

/-! ### Thirty-two bits -/

/-- The result of an operation, unless the operation overflowed. -/
def checked? (overflowed : Bool) (result : Int32) : Option Int32 :=
  if overflowed then none else some result

def product? (a b : Int32) : Option Int32 :=
  checked? (a.toBitVec.smulOverflow b.toBitVec) (a * b)

def sum? (a b : Int32) : Option Int32 :=
  checked? (a.toBitVec.saddOverflow b.toBitVec) (a + b)

def difference? (a b : Int32) : Option Int32 :=
  checked? (a.toBitVec.ssubOverflow b.toBitVec) (a - b)

def digit? (c : Char) : Option Int32 :=
  if c.isDigit then some (.ofNat (c.toNat - '0'.toNat)) else none

/-- The number read so far moves up one place for the next digit. Behind a minus sign digits are
taken away, so that the lowest number can be read, which is the negative of no other. -/
def shift? (negative : Bool) (value : Int32) (c : Char) : Option Int32 := do
  let tens ← product? value 10
  let digit ← digit? c
  if negative then difference? tens digit else sum? tens digit

/-- One or more digits, from the left. -/
def digitsToInt32? (negative : Bool) (digits : List Char) : Option Int32 :=
  if digits = [] then none else digits.foldlM (shift? negative) 0

/-- At most one sign may stand before the digits. -/
def toInt32? : List Char → Option Int32
  | '-' :: digits => digitsToInt32? true digits
  | '+' :: digits => digitsToInt32? false digits
  | digits => digitsToInt32? false digits

/-! ### Reading undoes writing -/

theorem ofNat_ne_nil (n : Nat) : ofNat n ≠ [] := Nat.toDigits_ne_nil

theorem isDigit_of_mem_ofNat {n : Nat} {c : Char} (h : c ∈ ofNat n) : c.isDigit = true :=
  Nat.isDigit_of_mem_toDigits (by decide) (by decide) h

theorem toNat?_ofNat (n : Nat) : toNat? (ofNat n) = some n := by
  have hd : (ofNat n).all Char.isDigit = true := List.all_eq_true.mpr fun _ => isDigit_of_mem_ofNat
  rw [toNat?, if_pos ⟨ofNat_ne_nil n, hd⟩]
  exact congrArg some Nat.ofDigitChars_ten_toDigits

theorem toUnsigned?_of_digit {digits : List Char} (h : ∀ c ∈ digits, c.isDigit = true) :
    toUnsigned? digits = toNat? digits := by
  unfold toUnsigned?
  split
  · exact absurd (h '+' List.mem_cons_self) (by decide)
  · rfl

theorem toInt?_of_digit {digits : List Char} (h : ∀ c ∈ digits, c.isDigit = true) :
    toInt? digits = (toNat? digits).map fun n => (n : Int) := by
  unfold toInt?
  split
  · exact absurd (h '-' List.mem_cons_self) (by decide)
  · rw [toUnsigned?_of_digit h]

theorem toInt?_ofInt (i : Int) : toInt? (ofInt i) = some i := by
  cases i with
  | ofNat n =>
    rw [ofInt, toInt?_of_digit fun _ => isDigit_of_mem_ofNat, toNat?_ofNat]
    rfl
  | negSucc n =>
    rw [ofInt, toInt?, toNat?_ofNat]
    rfl

end CoolMachine.Decimal
