import CoolMachine.Text.Decimal

/-! Which texts are numerals, and of which numbers. A number is written as the library writes it. -/

namespace CoolMachine.Decimal

theorem toList_toString_nat (n : Nat) : (toString n).toList = ofNat n := by
  rw [Nat.toString_eq_repr, Nat.toList_repr, ofNat]

theorem toList_toString_int (i : Int) : (toString i).toList = ofInt i := by
  cases i with
  | ofNat n => exact toList_toString_nat n
  | negSucc n =>
      have hsign : (toString (Int.negSucc n)).toList = '-' :: (toString (n + 1)).toList :=
        String.toList_append
      rw [hsign, toList_toString_nat, ofInt]

/-- One or more digits, with at most one sign before them. -/
inductive Numeral : List Char → Int → Prop where
  | unsigned {digits : List Char} : digits ≠ [] → (∀ c ∈ digits, c.isDigit = true) →
      Numeral digits (Nat.ofDigitChars 10 digits 0)
  | positive {digits : List Char} : digits ≠ [] → (∀ c ∈ digits, c.isDigit = true) →
      Numeral ('+' :: digits) (Nat.ofDigitChars 10 digits 0)
  | negative {digits : List Char} : digits ≠ [] → (∀ c ∈ digits, c.isDigit = true) →
      Numeral ('-' :: digits) (-(Nat.ofDigitChars 10 digits 0 : Int))

theorem toNat?_eq_some_iff {digits : List Char} {n : Nat} : toNat? digits = some n ↔
    digits ≠ [] ∧ (∀ c ∈ digits, c.isDigit = true) ∧ Nat.ofDigitChars 10 digits 0 = n := by
  simp only [toNat?, List.all_eq_true]
  split
  · next h => simp only [Option.some.injEq, ne_eq, h.1, not_false_iff, true_and, and_iff_right h.2]
  · next h => simp only [reduceCtorEq, ← and_assoc, h, false_and]

/-- A text reads as a number exactly when it is a numeral of it. -/
theorem toInt?_eq_some_iff {text : List Char} {value : Int} :
    toInt? text = some value ↔ Numeral text value := by
  constructor
  · intro h
    unfold toInt? at h
    split at h <;>
      obtain ⟨_, hread, rfl⟩ := Option.map_eq_some_iff.mp h <;>
      obtain ⟨n, hn, hcast⟩ := Option.bind_eq_some_iff.mp hread <;>
      cases hcast
    · obtain ⟨hne, hdigits, rfl⟩ := toNat?_eq_some_iff.mp hn
      exact .negative hne hdigits
    · unfold toUnsigned? at hn
      split at hn
      · obtain ⟨hne, hdigits, rfl⟩ := toNat?_eq_some_iff.mp hn
        exact .positive hne hdigits
      · obtain ⟨hne, hdigits, rfl⟩ := toNat?_eq_some_iff.mp hn
        exact .unsigned hne hdigits
  · intro h
    cases h with
    | unsigned hne hdigits =>
        rw [toInt?_of_digit hdigits, toNat?_eq_some_iff.mpr ⟨hne, hdigits, rfl⟩]
        rfl
    | @positive digits hne hdigits =>
        have hread := toNat?_eq_some_iff.mpr ⟨hne, hdigits, rfl⟩
        simp [toInt?, toUnsigned?, hread]
    | negative hne hdigits =>
        rw [toInt?, toNat?_eq_some_iff.mpr ⟨hne, hdigits, rfl⟩]
        rfl

/-- A text is a numeral of one number at most. -/
theorem Numeral.unique {text : List Char} {a b : Int} (ha : Numeral text a) (hb : Numeral text b) :
    a = b := by
  have hread := toInt?_eq_some_iff.mpr ha
  rw [toInt?_eq_some_iff.mpr hb] at hread
  exact (Option.some.inj hread).symm

end CoolMachine.Decimal
