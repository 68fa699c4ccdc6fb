import Mathlib.Data.List.TakeWhile
import CoolMachine.Text.Blank

/-! Blanks around and between words. What a text has for words, and what is left of it without the
blanks at its ends, does not depend on how many blanks there are. -/

namespace CoolMachine.Text

/-- A text of blanks alone. -/
def Blanks (text : List Char) : Prop := ∀ c ∈ text, isBlank c = true

theorem blanks_nil : Blanks [] := fun _ h => absurd h List.not_mem_nil

theorem blanks_singleton {c : Char} (h : isBlank c = true) : Blanks [c] := fun _ hd =>
  List.mem_singleton.mp hd ▸ h

section Blanks

variable {x y gap : List Char}

theorem blanks_takeWhile (x : List Char) : Blanks (x.takeWhile isBlank) :=
  fun _ => List.mem_takeWhile_imp

/-! ### Words -/

theorem words_blank_cons {c : Char} (h : isBlank c = true) (x : List Char) :
    words (c :: x) = words x := by
  have hwords := words_append_blank [] x h
  rwa [List.nil_append, words_nil, List.nil_append] at hwords

theorem words_blanks_append (hgap : Blanks gap) (x : List Char) : words (gap ++ x) = words x := by
  induction gap with
  | nil => rfl
  | cons c gap ih =>
      rw [List.cons_append, words_blank_cons (hgap c List.mem_cons_self),
        ih fun d hd => hgap d (List.mem_cons_of_mem c hd)]

theorem words_of_blanks (hgap : Blanks gap) : words gap = [] := by
  rw [← List.append_nil gap, words_blanks_append hgap, words_nil]

/-- Blanks between two texts keep their words apart, however many there are. -/
theorem words_append_blanks_append (hgap : Blanks gap) (hne : gap ≠ []) (x y : List Char) :
    words (x ++ gap ++ y) = words x ++ words y := by
  cases gap with
  | nil => exact absurd rfl hne
  | cons c gap =>
      rw [List.append_assoc, List.cons_append, words_append_blank x _ (hgap c List.mem_cons_self),
        words_blanks_append fun d hd => hgap d (List.mem_cons_of_mem c hd)]

theorem words_append_blanks (hgap : Blanks gap) (x : List Char) : words (x ++ gap) = words x := by
  by_cases hne : gap = []
  · rw [hne, List.append_nil]
  · have h := words_append_blanks_append hgap hne x []
    rwa [List.append_nil, words_nil, List.append_nil] at h

/-- A text that is not all blanks begins with a word, perhaps behind blanks. -/
theorem exists_first_word (h : ¬ Blanks x) :
    ∃ gap word rest, Blanks gap ∧ word ≠ [] ∧ (∀ c ∈ word, isBlank c = false) ∧
      x = gap ++ (word ++ rest) ∧ words x = word :: words rest := by
  let plain : Char → Bool := fun c => !isBlank c
  have hword : ∀ c ∈ (x.dropWhile isBlank).takeWhile plain, isBlank c = false := by
    intro c hc
    have hplain := List.mem_takeWhile_imp (p := plain) hc
    simpa only [plain, Bool.not_eq_true'] using hplain
  have hne : (x.dropWhile isBlank).takeWhile plain ≠ [] := by
    cases hx : x.dropWhile isBlank with
    | nil => exact absurd (List.dropWhile_eq_nil_iff.mp hx) h
    | cons c rest =>
        have hc := List.head_dropWhile_not isBlank (by rw [hx]; exact List.cons_ne_nil c rest)
        simp only [hx, List.head_cons] at hc
        rw [List.takeWhile_cons_of_pos (by simp [plain, hc])]
        exact List.cons_ne_nil _ _
  have hx : x = x.takeWhile isBlank ++
      ((x.dropWhile isBlank).takeWhile plain ++ (x.dropWhile isBlank).dropWhile plain) := by
    rw [List.takeWhile_append_dropWhile, List.takeWhile_append_dropWhile]
  refine ⟨_, _, _, blanks_takeWhile x, hne, hword, hx, ?_⟩
  rw [congrArg words hx, words_blanks_append (blanks_takeWhile x)]
  cases hrest : (x.dropWhile isBlank).dropWhile plain with
  | nil => rw [List.append_nil, words_of_not_blank hword hne, words_nil]
  | cons d rest =>
      have hd := List.head_dropWhile_not plain (by rw [hrest]; exact List.cons_ne_nil d rest)
      simp only [hrest, List.head_cons, plain, Bool.not_eq_false'] at hd
      rw [words_append_blank _ rest hd, words_of_not_blank hword hne, words_blank_cons hd]
      rfl

theorem words_eq_nil_iff : words x = [] ↔ Blanks x := by
  refine ⟨fun h => ?_, words_of_blanks⟩
  by_contra hx
  obtain ⟨gap, word, rest, -, -, -, -, hwords⟩ := exists_first_word hx
  rw [h] at hwords
  cases hwords

/-! ### Ends -/

theorem trim_blanks_append (hgap : Blanks gap) (x : List Char) : trim (gap ++ x) = trim x := by
  rw [trim, List.dropWhile_append_of_pos hgap, trim]

theorem trim_append_blanks (hgap : Blanks gap) (x : List Char) : trim (x ++ gap) = trim x := by
  have hreverse : Blanks gap.reverse := fun c hc => hgap c (List.mem_reverse.mp hc)
  rw [trim, trim, List.dropWhile_append]
  split
  · next hx =>
    rw [List.isEmpty_iff.mp hx, List.dropWhile_eq_nil_iff.mpr hgap]
  · rw [List.reverse_append, List.dropWhile_append_of_pos hreverse]

/-- The text is what is left without the blanks at its ends, between these blanks. -/
theorem exists_eq_trim (x : List Char) :
    ∃ before after, Blanks before ∧ Blanks after ∧ x = before ++ (trim x ++ after) := by
  have hend : x.dropWhile isBlank =
      trim x ++ ((x.dropWhile isBlank).reverse.takeWhile isBlank).reverse := by
    rw [trim, ← List.reverse_append, List.takeWhile_append_dropWhile, List.reverse_reverse]
  refine ⟨x.takeWhile isBlank, ((x.dropWhile isBlank).reverse.takeWhile isBlank).reverse,
    blanks_takeWhile x, fun c hc => blanks_takeWhile _ c (List.mem_reverse.mp hc), ?_⟩
  rw [← hend, List.takeWhile_append_dropWhile]

theorem trim_of_not_blank (h : ∀ c ∈ x, isBlank c = false) : trim x = x := by
  have hself : ∀ y : List Char, (∀ c ∈ y, isBlank c = false) → y.dropWhile isBlank = y := by
    intro y hy
    cases y with
    | nil => rfl
    | cons c y => rw [List.dropWhile_cons_of_neg (by rw [hy c List.mem_cons_self]; decide)]
  rw [trim, hself x h, hself x.reverse fun c hc => h c (List.mem_reverse.mp hc),
    List.reverse_reverse]

theorem words_trim (x : List Char) : words (trim x) = words x := by
  obtain ⟨before, after, hbefore, hafter, hx⟩ := exists_eq_trim x
  rw [congrArg words hx, words_blanks_append hbefore, words_append_blanks hafter]

/-- A text with a single word is that word, between blanks. -/
theorem trim_of_words_eq_singleton {word : List Char} (h : words x = [word]) : trim x = word := by
  have hx : ¬ Blanks x := fun hx => by
    rw [words_of_blanks hx] at h
    cases h
  obtain ⟨gap, first, rest, hgap, -, hfirst, rfl, hwords⟩ := exists_first_word hx
  rw [hwords, List.cons.injEq, words_eq_nil_iff] at h
  rw [trim_blanks_append hgap, trim_append_blanks h.2, trim_of_not_blank hfirst, h.1]

end Blanks

end CoolMachine.Text
