import CoolMachine.Assembly.Item
import CoolMachine.Proofs.Text.Words

/-! Words set off by blanks. Numerals, mnemonics and the data directive are free of every character
that means something to the grammar of a line, so a line made of them has no label and no comment,
and splits into just the words that it was made of. -/

namespace CoolMachine.Assembly

/-! ### Solid words -/

/-- A character that neither separates words nor ends a statement or a label. -/
def isPlain (c : Char) : Bool := !Text.isBlank c && c != commentMark && c != labelMark

/-- A text that is one word wherever it stands. -/
structure Solid (text : List Char) : Prop where
  ne_nil : text ≠ []
  plain : text.all isPlain = true

theorem Solid.not_blank {text : List Char} (h : Solid text) :
    ∀ c ∈ text, Text.isBlank c = false := by
  intro c hc
  have hp := List.all_eq_true.mp h.plain c hc
  simp only [isPlain, Bool.and_eq_true, Bool.not_eq_true'] at hp
  exact hp.1.1

theorem Solid.not_mem {text : List Char} (h : Solid text) {c : Char} (hc : isPlain c = false) :
    c ∉ text := fun hmem => by
  rw [List.all_eq_true.mp h.plain c hmem] at hc
  cases hc

/-- The graphic characters of ASCII are plain, but for the two marks. -/
theorem isPlain_of_toNat {c : Char} (hl : 32 < c.toNat) (hu : c.toNat < 128)
    (hcomment : c.toNat ≠ commentMark.toNat) (hlabel : c.toNat ≠ labelMark.toNat) :
    isPlain c = true := by
  have hblank : Text.isBlank c = false := by
    rw [Bool.eq_false_iff, ne_eq, Text.isBlank_ascii_iff hu]
    rintro (rfl | hc)
    · exact absurd hl (by decide)
    · omega
  have hc : c ≠ commentMark := ne_of_apply_ne Char.toNat hcomment
  have hm : c ≠ labelMark := ne_of_apply_ne Char.toNat hlabel
  simp [isPlain, hblank, hc, hm]

theorem isPlain_of_isDigit {c : Char} (h : c.isDigit = true) : isPlain c = true := by
  have hd : 48 ≤ c.toNat ∧ c.toNat ≤ 57 := by
    simp only [Char.isDigit, Bool.and_eq_true, decide_eq_true_eq, ge_iff_le,
      UInt32.le_iff_toNat_le] at h
    exact h
  have hc : commentMark.toNat = 35 := rfl
  have hl : labelMark.toNat = 58 := rfl
  exact isPlain_of_toNat (by omega) (by omega) (by omega) (by omega)

theorem solid_ofNat (n : Nat) : Solid (Decimal.ofNat n) := by
  refine ⟨Decimal.ofNat_ne_nil n, List.all_eq_true.mpr fun c hc => ?_⟩
  exact isPlain_of_isDigit (Decimal.isDigit_of_mem_ofNat hc)

theorem solid_ofInt (i : Int) : Solid (Decimal.ofInt i) := by
  cases i with
  | ofNat n => exact solid_ofNat n
  | negSucc n =>
      have hminus : isPlain '-' = true := by decide
      refine ⟨List.cons_ne_nil _ _, ?_⟩
      rw [Decimal.ofInt, List.all_cons, hminus, (solid_ofNat (n + 1)).plain, Bool.and_self]

theorem solid_name (op : Opcode) : Solid op.name.toList := by
  cases op <;> exact ⟨by decide, by decide⟩

theorem solid_dataDirective : Solid dataDirective := ⟨by decide, by decide⟩

theorem solid_numeral {kind : OperandKind} (h : kind ≠ .absent) (word : Word) :
    Solid (kind.numeral word) := by
  cases kind with
  | absent => exact absurd rfl h
  | address => exact solid_ofNat word.toNat
  | constant => exact solid_ofInt word.signed.toInt
  | offset => exact solid_ofInt word.signed.toInt

/-! ### Spaced lines -/

/-- A head and its operand, if there is one, set off by one blank more than the gap says. -/
def spaced (head : List Char) (gap : Nat) : Option (List Char) → List Char
  | none => head
  | some text => head ++ ' ' :: (List.replicate gap ' ' ++ text)

/-- A word that does not fill its column is set off from what stands behind the column. -/
theorem rightpad_append_eq_spaced {head : List Char} {width : Nat} (h : head.length < width)
    (text : List Char) : List.rightpad width ' ' head ++ text =
      spaced head (width - (head.length + 1)) (some text) := by
  have hgap : width - head.length = width - (head.length + 1) + 1 := by omega
  rw [List.rightpad, hgap, List.replicate_succ, List.append_assoc]
  rfl

section Spaced

variable {head : List Char} {operand : Option (List Char)} {gap : Nat}

theorem mem_spaced (hh : Solid head) (ho : ∀ text ∈ operand, Solid text) {c : Char}
    (hc : c ∈ spaced head gap operand) : isPlain c = true ∨ c = ' ' := by
  cases operand with
  | none => exact .inl (List.all_eq_true.mp hh.plain c hc)
  | some text =>
      have ht := (ho text rfl).plain
      simp only [spaced, List.mem_append, List.mem_cons, List.mem_replicate] at hc
      rcases hc with hc | hc | ⟨-, hc⟩ | hc
      · exact .inl (List.all_eq_true.mp hh.plain c hc)
      · exact .inr hc
      · exact .inr hc
      · exact .inl (List.all_eq_true.mp ht c hc)

theorem not_mem_spaced (hh : Solid head) (ho : ∀ text ∈ operand, Solid text) {c : Char}
    (hp : isPlain c = false) (hs : c ≠ ' ') : c ∉ spaced head gap operand := by
  intro hc
  rcases mem_spaced hh ho hc with h | h
  · rw [hp] at h
    cases h
  · exact hs h

theorem splitLabel_spaced (hh : Solid head) (ho : ∀ text ∈ operand, Solid text) :
    splitLabel (statement (spaced head gap operand)) = (none, spaced head gap operand) := by
  have hc : commentMark ∉ spaced head gap operand := not_mem_spaced hh ho (by decide) (by decide)
  have hl : labelMark ∉ spaced head gap operand := not_mem_spaced hh ho (by decide) (by decide)
  have hstatement : statement (spaced head gap operand) = spaced head gap operand := by
    apply List.takeWhile_eq_self_iff.mpr
    intro c hm
    exact bne_iff_ne.mpr fun h => hc (h ▸ hm)
  rw [hstatement, splitLabel, if_neg hl]

theorem words_replicate_append (gap : Nat) (text : List Char) :
    Text.words (List.replicate gap ' ' ++ text) = Text.words text := by
  have hgap : Text.Blanks (List.replicate gap ' ') := fun c hc => by
    rw [List.eq_of_mem_replicate hc]
    decide
  exact Text.words_blanks_append hgap text

theorem Solid.words_eq {text : List Char} (h : Solid text) : Text.words text = [text] :=
  Text.words_of_not_blank h.not_blank h.ne_nil

theorem words_spaced (hh : Solid head) (ho : ∀ text ∈ operand, Solid text) :
    Text.words (spaced head gap operand) = head :: operand.toList := by
  cases operand with
  | none => exact hh.words_eq
  | some text =>
      rw [spaced, Text.words_append_blank _ _ (by decide), words_replicate_append, hh.words_eq,
        (ho text rfl).words_eq]
      rfl

end Spaced

end CoolMachine.Assembly
