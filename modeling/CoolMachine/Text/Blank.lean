/-! Blank characters and the words that they separate. A character is blank exactly when it has
the Unicode property White_Space; a word is a longest run of other characters. -/

namespace CoolMachine.Text

/-- First and last code points of the ranges of White_Space. -/
def blankRanges : List (Nat × Nat) :=
  [(0x09, 0x0D), (0x20, 0x20), (0x85, 0x85), (0xA0, 0xA0), (0x1680, 0x1680), (0x2000, 0x200A),
    (0x2028, 0x2029), (0x202F, 0x202F), (0x205F, 0x205F), (0x3000, 0x3000)]

def isBlank (c : Char) : Bool :=
  blankRanges.any fun range => range.1 ≤ c.toNat && c.toNat ≤ range.2

/-- The text without the blanks at its two ends. -/
def trim (text : List Char) : List Char :=
  ((text.dropWhile isBlank).reverse.dropWhile isBlank).reverse

/-- The words of the text, in order. -/
def words (text : List Char) : List (List Char) :=
  (text.splitOnP isBlank).filter fun word => !word.isEmpty

theorem isBlank_of_isWhitespace {c : Char} (h : c.isWhitespace = true) : isBlank c = true := by
  simp only [Char.isWhitespace, Bool.or_eq_true, decide_eq_true_eq] at h
  obtain (((rfl | rfl) | rfl) | rfl) := h <;> decide

/-- Below 128 the blanks are the space and the five controls from tab to carriage return. -/
theorem isBlank_ascii_iff {c : Char} (h : c.toNat < 128) :
    isBlank c = true ↔ c = ' ' ∨ 9 ≤ c.toNat ∧ c.toNat ≤ 13 := by
  have hs : c = ' ' ↔ c.toNat = 32 := ⟨fun h => h ▸ rfl, fun h => Char.toNat_inj.mp h⟩
  simp only [isBlank, blankRanges, List.any_cons, List.any_nil, Bool.or_eq_true,
    Bool.and_eq_true, decide_eq_true_eq, Bool.or_false, hs]
  omega

theorem words_nil : words [] = [] := rfl

/-- A blank ends the words before it. -/
theorem words_append_blank (x y : List Char) {c : Char} (h : isBlank c = true) :
    words (x ++ c :: y) = words x ++ words y := by
  rw [words, List.splitOnP_append_cons x y h, List.filter_append]
  rfl

/-- A text without blanks is one word, or none if it is empty. -/
theorem words_of_not_blank {x : List Char} (h : ∀ c ∈ x, isBlank c = false) (hx : x ≠ []) :
    words x = [x] := by
  rw [words, List.splitOnP_eq_singleton h]
  simp [hx]

end CoolMachine.Text
