import CoolMachine.Proofs.Text.Decimal

/-! Numerals read into thirty-two bits, digit by digit. Every step goes away from zero, so no step
overflows on the way to a number that has thirty-two bits itself, however many digits are read. -/

namespace CoolMachine.Decimal

/-! ### Operations that may overflow -/

/-- If an operation overflows exactly when its exact result is out of range, then the checked
operation gives that result or nothing. -/
theorem checked?_eq_some_iff {overflowed : Bool} {result value : Int32} {exact : Int}
    (hoverflowed : overflowed = true ↔ 2147483648 ≤ exact ∨ exact < -2147483648)
    (hresult : ¬ overflowed = true → result.toInt = exact) :
    checked? overflowed result = some value ↔ value.toInt = exact := by
  have hl := value.le_toInt
  have hu := value.toInt_lt
  cases overflowed with
  | true =>
      have hexact := hoverflowed.mp rfl
      simp only [checked?, ite_true, reduceCtorEq, false_iff]
      omega
  | false =>
      rw [← hresult (by decide), Int32.toInt_inj, eq_comm]
      exact Option.some_inj

section Operations

variable {a b value : Int32}

theorem product?_eq_some_iff : product? a b = some value ↔ value.toInt = a.toInt * b.toInt :=
  checked?_eq_some_iff (by simp [BitVec.smulOverflow]) BitVec.toInt_mul_of_not_smulOverflow

theorem sum?_eq_some_iff : sum? a b = some value ↔ value.toInt = a.toInt + b.toInt :=
  checked?_eq_some_iff (by simp [BitVec.saddOverflow]) BitVec.toInt_add_of_not_saddOverflow

theorem difference?_eq_some_iff :
    difference? a b = some value ↔ value.toInt = a.toInt - b.toInt :=
  checked?_eq_some_iff (by simp [BitVec.ssubOverflow]) BitVec.toInt_sub_of_not_ssubOverflow

end Operations

/-! ### Numbers behind a sign -/

/-- A magnitude behind a minus sign, or without one. -/
def withSign (negative : Bool) (magnitude : Int) : Int :=
  if negative then -magnitude else magnitude

section Signs

variable (negative : Bool)

theorem withSign_add (m n : Nat) :
    withSign negative (m + n : Nat) = withSign negative m + withSign negative n := by
  cases negative <;> simp only [withSign, Bool.false_eq_true, ite_true, ite_false] <;> omega

theorem withSign_mul_ten (n : Nat) :
    withSign negative (10 * n : Nat) = withSign negative n * 10 := by
  cases negative <;> simp only [withSign, Bool.false_eq_true, ite_true, ite_false] <;> omega

end Signs

section Digits

variable {negative : Bool} {m n : Nat} {value after : Int32}

/-- What is no further from zero than a number of thirty-two bits has thirty-two bits too. -/
theorem exists_toInt_eq_withSign (hle : m ≤ n) (hvalue : value.toInt = withSign negative n) :
    ∃ nearer : Int32, nearer.toInt = withSign negative m := by
  have hl := value.le_toInt
  have hu := value.toInt_lt
  refine ⟨Int32.ofInt (withSign negative m), ?_⟩
  cases negative <;> simp only [withSign, Bool.false_eq_true, ite_true, ite_false] at hvalue ⊢ <;>
    exact Int32.toInt_ofInt_of_le (by omega) (by omega)

/-! ### Digits -/

theorem exists_digit? {c : Char} (hc : c.isDigit = true) :
    ∃ digit, digit? c = some digit ∧ digit.toInt = (c.toNat - '0'.toNat : Nat) := by
  refine ⟨_, if_pos hc, Int32.toInt_ofNat_of_lt ?_⟩
  simp only [Char.isDigit, Bool.and_eq_true, decide_eq_true_eq, UInt32.le_iff_toNat_le] at hc
  have hnine : c.toNat ≤ 57 := hc.2
  omega

/-- With the sign of the number read so far, a step fails only if its exact result overflows: the
product in between is no further from zero. -/
theorem shift?_eq_some_iff (hvalue : value.toInt = withSign negative n) {c : Char} :
    shift? negative value c = some after ↔ c.isDigit = true ∧
      after.toInt = withSign negative (10 * n + (c.toNat - '0'.toNat) : Nat) := by
  have hten : (10 : Int32).toInt = 10 := by decide
  have hlast : ∀ tens digit : Int32,
      (if negative then difference? tens digit else sum? tens digit) = some after ↔
        after.toInt = tens.toInt + withSign negative digit.toInt := by
    intro tens digit
    cases negative with
    | true => exact difference?_eq_some_iff
    | false => exact sum?_eq_some_iff
  by_cases hc : c.isDigit = true
  · obtain ⟨digit, hread, hdigit⟩ := exists_digit? hc
    simp only [shift?, hread, Option.bind_eq_bind, Option.bind_some, Option.bind_eq_some_iff,
      product?_eq_some_iff, hlast, hvalue, hten, hdigit, hc, true_and]
    constructor
    · rintro ⟨tens, htens, hafter⟩
      rw [hafter, htens, withSign_add, withSign_mul_ten]
    · intro hafter
      obtain ⟨tens, htens⟩ := exists_toInt_eq_withSign (Nat.le_add_right (10 * n) _) hafter
      rw [withSign_mul_ten] at htens
      exact ⟨tens, htens, by rw [hafter, withSign_add, withSign_mul_ten, htens]⟩
  · simp [shift?, digit?, hc]

theorem le_ofDigitChars (digits : List Char) (n : Nat) : n ≤ Nat.ofDigitChars 10 digits n := by
  induction digits generalizing n with
  | nil => exact Nat.le_refl n
  | cons c digits ih =>
      rw [Nat.ofDigitChars_cons]
      exact Nat.le_trans (by omega) (ih _)

/-- Digits are taken up without an overflow exactly if the number that they lead to has thirty-two
bits. -/
theorem foldlM_shift?_eq_some_iff {digits : List Char}
    (hvalue : value.toInt = withSign negative n) :
    digits.foldlM (shift? negative) value = some after ↔ (∀ c ∈ digits, c.isDigit = true) ∧
      after.toInt = withSign negative (Nat.ofDigitChars 10 digits n) := by
  induction digits generalizing n value with
  | nil =>
      rw [Nat.ofDigitChars_nil, ← hvalue, Int32.toInt_inj]
      exact ⟨fun h => ⟨fun c hc => absurd hc List.not_mem_nil, (Option.some.inj h).symm⟩,
        fun h => congrArg some h.2.symm⟩
  | cons c digits ih =>
      rw [List.foldlM_cons, Nat.ofDigitChars_cons, List.forall_mem_cons]
      refine Option.bind_eq_some_iff.trans ⟨?_, ?_⟩
      · rintro ⟨next, hstep, hrest⟩
        obtain ⟨hc, hnext⟩ := (shift?_eq_some_iff hvalue).mp hstep
        obtain ⟨hdigits, hafter⟩ := (ih hnext).mp hrest
        exact ⟨⟨hc, hdigits⟩, hafter⟩
      · rintro ⟨⟨hc, hdigits⟩, hafter⟩
        -- The digits behind this one lead further from zero, so it has not overflowed.
        obtain ⟨next, hnext⟩ := exists_toInt_eq_withSign (le_ofDigitChars digits _) hafter
        exact ⟨next, (shift?_eq_some_iff hvalue).mpr ⟨hc, hnext⟩,
          (ih hnext).mpr ⟨hdigits, hafter⟩⟩

theorem digitsToInt32?_eq_some_iff {digits : List Char} :
    digitsToInt32? negative digits = some value ↔ digits ≠ [] ∧ (∀ c ∈ digits, c.isDigit = true) ∧
      value.toInt = withSign negative (Nat.ofDigitChars 10 digits 0) := by
  have hzero : (0 : Int32).toInt = withSign negative (0 : Nat) := by cases negative <;> decide
  by_cases hne : digits = []
  · simp [digitsToInt32?, hne]
  · rw [digitsToInt32?, if_neg hne, foldlM_shift?_eq_some_iff hzero, and_iff_right hne]

end Digits

/-! ### Numerals -/

theorem toInt32?_of_digit {digits : List Char} (h : ∀ c ∈ digits, c.isDigit = true) :
    toInt32? digits = digitsToInt32? false digits := by
  unfold toInt32?
  split
  · exact absurd (h '-' List.mem_cons_self) (by decide)
  · exact absurd (h '+' List.mem_cons_self) (by decide)
  · rfl

/-- A text is read into thirty-two bits exactly when it is a numeral of what is read. -/
theorem toInt32?_eq_some_iff {text : List Char} {value : Int32} :
    toInt32? text = some value ↔ Numeral text value.toInt := by
  constructor
  · intro h
    unfold toInt32? at h
    split at h <;>
      obtain ⟨hne, hdigits, hvalue⟩ := digitsToInt32?_eq_some_iff.mp h <;>
      rw [hvalue]
    · exact .negative hne hdigits
    · exact .positive hne hdigits
    · exact .unsigned hne hdigits
  · intro h
    generalize hvalue : value.toInt = exact at h
    cases h with
    | unsigned hne hdigits =>
        rw [toInt32?_of_digit hdigits]
        exact digitsToInt32?_eq_some_iff.mpr ⟨hne, hdigits, hvalue⟩
    | positive hne hdigits => exact digitsToInt32?_eq_some_iff.mpr ⟨hne, hdigits, hvalue⟩
    | negative hne hdigits => exact digitsToInt32?_eq_some_iff.mpr ⟨hne, hdigits, hvalue⟩

/-- Added up first, the digits would overflow before the sign could be applied. -/
example : toInt32? "-2147483648".toList = some Int32.minValue := rfl

theorem toInt32?_eq_none_iff {text : List Char} : toInt32? text = none ↔
    ∀ value, Numeral text value → value < -2147483648 ∨ 2147483647 < value := by
  rw [Option.eq_none_iff_forall_not_mem]
  simp only [Option.mem_def, toInt32?_eq_some_iff]
  constructor
  · intro h value hvalue
    apply Decidable.byContradiction
    intro hfits
    have hexact := Int32.toInt_ofInt_of_le (n := value) (by omega) (by omega)
    exact h (Int32.ofInt value) (hexact.symm ▸ hvalue)
  · intro h value hvalue
    have hl := value.le_toInt
    have hu := value.toInt_lt
    have hwide := h value.toInt hvalue
    omega

end CoolMachine.Decimal
