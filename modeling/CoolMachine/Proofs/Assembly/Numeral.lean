import CoolMachine.Assembly.Program
import CoolMachine.Proofs.Register.Arithmetic
import CoolMachine.Proofs.Text.Overflow

/-! Numerals as operands. They are read into thirty-two bits and cut down to the low sixteen, and
stand for the words that they would stand for if they were read as numbers of any size. -/

namespace CoolMachine.Assembly

open Decimal (Numeral)

section Numerals

variable {text : List Char} {value : Int} {word : Word}

/-- A text that is no numeral of thirty-two bits is refused as it is spelled. -/
theorem numeral_of_not_fits
    (h : ∀ value, Numeral text value → value < -2147483648 ∨ 2147483647 < value) :
    numeral text = .error (.unknownOperand text) := by
  rw [numeral, Decimal.toInt32?_eq_none_iff.mpr h]

/-- The range of a numeral of thirty-two bits, and the word that it is cut down to, are those of its
exact value. -/
theorem numeral_of_fits (h : Numeral text value) (hl : -2147483648 ≤ value)
    (hu : value ≤ 2147483647) : numeral text =
      if value < -32768 ∨ 65535 < value then .error (.numberTooWide value)
      else .ok (UInt16.ofInt value) := by
  have hexact : (Int32.ofInt value).toInt = value := Int32.toInt_ofInt_of_le hl (by omega)
  have hread : Decimal.toInt32? text = some (Int32.ofInt value) :=
    Decimal.toInt32?_eq_some_iff.mpr (by rwa [hexact])
  have hrange : (Int32.ofInt value < -32768 ∨ 65535 < Int32.ofInt value) ↔
      (value < -32768 ∨ 65535 < value) := by
    rw [Int32.lt_iff_toInt_lt, Int32.lt_iff_toInt_lt, hexact]
    exact Iff.rfl
  have hlow : Word.ofRegister (Int32.ofInt value) = UInt16.ofInt value := by
    apply Eq.symm
    rw [Word.eq_ofRegister_iff, Word.toNat_ofInt, hexact]
  simp only [numeral, hread, hrange, hexact, hlow]

theorem numeral_eq_ok_iff : numeral text = .ok word ↔
    ∃ value, Numeral text value ∧ -32768 ≤ value ∧ value ≤ 65535 ∧
      (word.toNat : Int) = value % 65536 := by
  constructor
  · intro h
    cases hread : Decimal.toInt32? text with
    | none =>
        rw [numeral, hread] at h
        cases h
    | some narrow =>
        have hvalue := Decimal.toInt32?_eq_some_iff.mp hread
        have hu := narrow.toInt_lt
        rw [numeral_of_fits hvalue narrow.le_toInt (by omega)] at h
        split at h
        · cases h
        · cases h
          exact ⟨narrow.toInt, hvalue, by omega, by omega, Word.toNat_ofInt narrow.toInt⟩
  · rintro ⟨value, hvalue, hlo, hhi, hword⟩
    rw [numeral_of_fits hvalue (by omega) (by omega), if_neg (by omega), Except.ok.injEq]
    apply UInt16.toNat_inj.mp
    have hexact := Word.toNat_ofInt value
    omega

end Numerals

/-! ### Operands that are no labels -/

theorem operandWord_of_no_label {labels : Labels} {token : List Char} (h : labels[token]? = none) :
    operandWord labels token = numeral token := by
  rw [operandWord, h]

/-- What becomes of an operand that is no label, in terms of the number that it is a numeral of,
whatever the size of that number. -/
structure ReadExactly (labels : Labels) (token : List Char) : Prop where
  /-- The numbers from -32768 to 65535 are accepted, and nothing else is. -/
  accepted_iff : (∃ word, operandWord labels token = .ok word) ↔
    ∃ value, Numeral token value ∧ -32768 ≤ value ∧ value ≤ 65535
  /-- A number that is accepted stands for itself modulo 65536. -/
  word_eq : ∀ word value, operandWord labels token = .ok word → Numeral token value →
    (word.toNat : Int) = value % 65536
  /-- Another number of thirty-two bits is refused under its value. -/
  too_wide : ∀ value, Numeral token value → -2147483648 ≤ value → value ≤ 2147483647 →
    value < -32768 ∨ 65535 < value → operandWord labels token = .error (.numberTooWide value)
  /-- What is no number of thirty-two bits is refused as it is spelled. -/
  unknown : (∀ value, Numeral token value → value < -2147483648 ∨ 2147483647 < value) →
    operandWord labels token = .error (.unknownOperand token)

/-- Thirty-two bits are enough to read an operand by, however many digits it has. -/
theorem operands_read_exactly {labels : Labels} {token : List Char}
    (h : labels[token]? = none) : ReadExactly labels token := by
  have hword := operandWord_of_no_label h
  refine ⟨?_, fun word value hok hvalue => ?_, fun value hvalue hl hu hwide => ?_, fun hnone => ?_⟩
  · rw [hword]
    constructor
    · rintro ⟨word, hok⟩
      obtain ⟨value, hvalue, hlo, hhi, -⟩ := numeral_eq_ok_iff.mp hok
      exact ⟨value, hvalue, hlo, hhi⟩
    · rintro ⟨value, hvalue, hlo, hhi⟩
      exact ⟨_, numeral_eq_ok_iff.mpr ⟨value, hvalue, hlo, hhi, Word.toNat_ofInt value⟩⟩
  · rw [hword] at hok
    obtain ⟨exact, hexact, -, -, heq⟩ := numeral_eq_ok_iff.mp hok
    rw [heq, hexact.unique hvalue]
  · rw [hword, numeral_of_fits hvalue hl hu, if_pos hwide]
  · rw [hword, numeral_of_not_fits hnone]

/-- The lowest number that is accepted, with zeros before it, where its digits alone are a label. -/
theorem operands_read_exactly_leading_zeros :
    ((∅ : Labels).insert "32768".toList 7)["-000000000032768".toList]? = none ∧
      ReadExactly ((∅ : Labels).insert "32768".toList 7) "-000000000032768".toList ∧
      operandWord ((∅ : Labels).insert "32768".toList 7) "-000000000032768".toList =
        .ok 32768 := by
  have h : ((∅ : Labels).insert "32768".toList 7)["-000000000032768".toList]? = none := by decide
  exact ⟨h, operands_read_exactly h, rfl⟩

end CoolMachine.Assembly
