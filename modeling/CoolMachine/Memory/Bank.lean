import CoolMachine.Word

/-! Banks of cells. A bank is a perfect binary tree of words whose forks separate even from odd
indices, so a store shares all but one path with the bank before it. -/

namespace CoolMachine

inductive Bank : Nat → Type where
  | cell (value : Word) : Bank 0
  | fork {n : Nat} (even odd : Bank n) : Bank (n + 1)

namespace Bank

/-- The number of words in a bank, twice as many for each level of forks. -/
def size : Nat → Nat
  | 0 => 1
  | n + 1 => 2 * size n

/-- The bank with the same word in every cell. -/
def fill (value : Word) : (n : Nat) → Bank n
  | 0 => cell value
  | n + 1 =>
    let half := fill value n
    fork half half

def get {n : Nat} : Bank n → Nat → Word
  | cell value, _ => value
  | fork even odd, i => if i % 2 = 0 then even.get (i / 2) else odd.get (i / 2)

def set {n : Nat} : Bank n → Nat → Word → Bank n
  | cell _, _, value => cell value
  | fork even odd, i, value =>
    if i % 2 = 0 then fork (even.set (i / 2) value) odd else fork even (odd.set (i / 2) value)

/-- Stores the words in consecutive cells from `start` on. -/
def setRun {n : Nat} (bank : Bank n) (start : Nat) (values : List Word) : Bank n :=
  (values.foldl (fun (bank, i) value => (bank.set i value, i + 1)) (bank, start)).1

theorem get_fill (value : Word) (n i : Nat) : (fill value n).get i = value := by
  induction n generalizing i with
  | zero => rfl
  | succ n ih => simp only [fill, get, ih, ite_self]

theorem get_set {n : Nat} (bank : Bank n) {i j : Nat} (value : Word) (hi : i < size n)
    (hj : j < size n) : (bank.set i value).get j = if i = j then value else bank.get j := by
  induction bank generalizing i j with
  | cell _ =>
    have hij : i = j := by
      simp only [size] at hi hj
      omega
    simp only [set, get, hij, if_true]
  | @fork n even odd ihe iho =>
    simp only [size] at hi hj
    have hi' : i / 2 < size n := by omega
    have hj' : j / 2 < size n := by omega
    by_cases h₁ : i % 2 = 0 <;> by_cases h₂ : j % 2 = 0
    · have hij : i / 2 = j / 2 ↔ i = j := by omega
      simp only [set, get, h₁, h₂, if_true, ihe hi' hj', hij]
    · have hij : i ≠ j := by omega
      simp only [set, get, h₁, h₂, if_true, if_false, hij]
    · have hij : i ≠ j := by omega
      simp only [set, get, h₁, h₂, if_true, if_false, hij]
    · have hij : i / 2 = j / 2 ↔ i = j := by omega
      simp only [set, get, h₁, h₂, if_false, iho hi' hj', hij]

theorem ext_get {n : Nat} {a b : Bank n} (h : ∀ i < size n, a.get i = b.get i) : a = b := by
  induction a with
  | cell value =>
    cases b with
    | cell other => exact congrArg cell (h 0 Nat.one_pos)
  | @fork n even odd ihe iho =>
    cases b with
    | fork even' odd' =>
      simp only [size] at h
      have he : even = even' := ihe fun i hi => by
        have h' := h (2 * i) (by omega)
        have hm : 2 * i % 2 = 0 := by omega
        have hd : 2 * i / 2 = i := by omega
        simpa only [get, hm, hd, if_true] using h'
      have ho : odd = odd' := iho fun i hi => by
        have h' := h (2 * i + 1) (by omega)
        have hm : ¬ (2 * i + 1) % 2 = 0 := by omega
        have hd : (2 * i + 1) / 2 = i := by omega
        simpa only [get, hm, hd, if_false] using h'
      rw [he, ho]

theorem setRun_nil {n : Nat} (bank : Bank n) (start : Nat) : bank.setRun start [] = bank := rfl

theorem setRun_cons {n : Nat} (bank : Bank n) (start : Nat) (value : Word) (values : List Word) :
    bank.setRun start (value :: values) = (bank.set start value).setRun (start + 1) values := rfl

theorem get_setRun {n : Nat} (bank : Bank n) (start : Nat) (values : List Word) {j : Nat}
    (hs : start + values.length ≤ size n) (hj : j < size n) :
    (bank.setRun start values).get j =
      if start ≤ j then values[j - start]?.getD (bank.get j) else bank.get j := by
  induction values generalizing bank start with
  | nil => simp [setRun_nil]
  | cons value values ih =>
    simp only [List.length_cons] at hs
    rw [setRun_cons, ih _ _ (by omega), get_set bank value (by omega) hj]
    obtain h | rfl | h := Nat.lt_trichotomy start j
    · have h₁ : start + 1 ≤ j := h
      have h₂ : start ≤ j := by omega
      have h₃ : start ≠ j := by omega
      have hd : j - start = (j - (start + 1)) + 1 := by omega
      simp only [h₁, h₂, h₃, hd, if_true, if_false, List.getElem?_cons_succ]
    · have h₁ : ¬ start + 1 ≤ start := by omega
      simp [h₁]
    · have h₁ : ¬ start + 1 ≤ j := by omega
      have h₂ : ¬ start ≤ j := by omega
      have h₃ : start ≠ j := by omega
      simp only [h₁, h₂, h₃, if_false]

end Bank

end CoolMachine
