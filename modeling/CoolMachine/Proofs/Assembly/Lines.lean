import CoolMachine.Proofs.Assembly.Layout
import CoolMachine.Proofs.Text.Words

/-! How a line reads: the label on it and the words behind the label. Nothing else of a line matters
to the first pass, in particular not whether it is trimmed before its label is split off. -/

namespace CoolMachine.Assembly

open Text (Blanks)

theorem commentMark_not_mem {gap : List Char} (h : Blanks gap) : commentMark ∉ gap := fun hc =>
  absurd (h commentMark hc) (by decide)

theorem labelMark_not_mem {gap : List Char} (h : Blanks gap) : labelMark ∉ gap := fun hc =>
  absurd (h labelMark hc) (by decide)

/-! ### Statements -/

theorem bne_of_not_mem {mark : Char} {x : List Char} (h : mark ∉ x) :
    ∀ c ∈ x, (c != mark) = true :=
  fun _ hc => bne_iff_ne.mpr fun he => h (he ▸ hc)

section Statements

variable {x : List Char}

theorem statement_of_not_mem (h : commentMark ∉ x) : statement x = x :=
  List.takeWhile_eq_self_iff.mpr (bne_of_not_mem h)

theorem statement_append (h : commentMark ∉ x) (y : List Char) :
    statement (x ++ y) = x ++ statement y :=
  List.takeWhile_append_of_pos (bne_of_not_mem h)

/-- A comment hides whatever stands behind its mark. -/
theorem statement_append_cons (h : commentMark ∉ x) (comment : List Char) :
    statement (x ++ commentMark :: comment) = x := by
  rw [statement_append h]
  exact List.append_nil x

theorem statement_append_labelMark (h : commentMark ∉ x) (y : List Char) :
    statement (x ++ labelMark :: y) = x ++ labelMark :: statement y := by
  rw [statement_append h]
  rfl

theorem statement_append_of_mem (h : commentMark ∈ x) (y : List Char) :
    statement (x ++ y) = statement x := by
  obtain ⟨before, comment, rfl, hbefore⟩ := List.eq_append_cons_of_mem h
  rw [List.append_assoc, List.cons_append, statement_append_cons hbefore,
    statement_append_cons hbefore]

end Statements

/-! ### Labels and words -/

/-- The label in a statement and the words behind it. -/
def parts (text : List Char) : Option (List Char) × List (List Char) :=
  ((splitLabel text).1, Text.words (splitLabel text).2)

/-- The two lines have the same label and the same words. -/
def Alike (line line' : List Char) : Prop := parts (statement line) = parts (statement line')

section Parts

variable {before text gap : List Char}

theorem parts_of_not_mem (h : labelMark ∉ text) : parts text = (none, Text.words text) := by
  rw [parts, splitLabel, if_neg h]

theorem parts_append_cons (h : labelMark ∉ before) (rest : List Char) :
    parts (before ++ labelMark :: rest) = (some (Text.trim before), Text.words rest) := by
  have hmem : labelMark ∈ before ++ labelMark :: rest :=
    List.mem_append_right _ List.mem_cons_self
  rw [parts, splitLabel, if_pos hmem, List.takeWhile_append_of_pos (bne_of_not_mem h),
    List.dropWhile_append_of_pos (bne_of_not_mem h)]
  simp

theorem parts_append_blanks (h : Blanks gap) (text : List Char) :
    parts (text ++ gap) = parts text := by
  by_cases hmem : labelMark ∈ text
  · obtain ⟨before, rest, rfl, hbefore⟩ := List.eq_append_cons_of_mem hmem
    rw [List.append_assoc, List.cons_append, parts_append_cons hbefore, parts_append_cons hbefore,
      Text.words_append_blanks h]
  · have hmem' : labelMark ∉ text ++ gap :=
      List.not_mem_append hmem (labelMark_not_mem h)
    rw [parts_of_not_mem hmem', parts_of_not_mem hmem, Text.words_append_blanks h]

theorem parts_blanks_append (h : Blanks gap) (text : List Char) :
    parts (gap ++ text) = parts text := by
  by_cases hmem : labelMark ∈ text
  · obtain ⟨before, rest, rfl, hbefore⟩ := List.eq_append_cons_of_mem hmem
    have hbefore' : labelMark ∉ gap ++ before :=
      List.not_mem_append (labelMark_not_mem h) hbefore
    rw [← List.append_assoc, parts_append_cons hbefore', parts_append_cons hbefore,
      Text.trim_blanks_append h]
  · have hmem' : labelMark ∉ gap ++ text :=
      List.not_mem_append (labelMark_not_mem h) hmem
    rw [parts_of_not_mem hmem', parts_of_not_mem hmem, Text.words_blanks_append h]

theorem parts_trim (text : List Char) : parts (Text.trim text) = parts text := by
  obtain ⟨before, after, hbefore, hafter, htext⟩ := Text.exists_eq_trim text
  rw [congrArg parts htext, parts_blanks_append hbefore, parts_append_blanks hafter]

theorem alike_append_blanks (h : Blanks gap) (line : List Char) : Alike (line ++ gap) line := by
  unfold Alike
  by_cases hmem : commentMark ∈ line
  · rw [statement_append_of_mem hmem]
  · rw [statement_append hmem, statement_of_not_mem (commentMark_not_mem h),
      statement_of_not_mem hmem, parts_append_blanks h]

end Parts

/-- What a line reads as, once its comment is cut off and its ends are trimmed: the text before its
first colon is a label, without the blanks around it, and the rest is split into words. -/
inductive Reads (line : List Char) : Option (List Char) → List (List Char) → Prop where
  | labelled {before rest : List Char} : labelMark ∉ before →
      Text.trim (statement line) = before ++ labelMark :: rest →
      Reads line (some (Text.trim before)) (Text.words rest)
  | bare : labelMark ∉ Text.trim (statement line) →
      Reads line none (Text.words (Text.trim (statement line)))

theorem parts_eq_of_reads {line : List Char} {label? : Option (List Char)}
    {words : List (List Char)} (h : Reads line label? words) :
    parts (statement line) = (label?, words) := by
  rw [← parts_trim]
  cases h with
  | labelled hbefore htrim => rw [htrim, parts_append_cons hbefore]
  | bare hmem => exact parts_of_not_mem hmem

theorem exists_reads (line : List Char) : ∃ label? words, Reads line label? words := by
  by_cases hmem : labelMark ∈ Text.trim (statement line)
  · obtain ⟨before, rest, htrim, hbefore⟩ := List.eq_append_cons_of_mem hmem
    exact ⟨_, _, .labelled hbefore htrim⟩
  · exact ⟨_, _, .bare hmem⟩

theorem reads_iff {line : List Char} {label? : Option (List Char)} {words : List (List Char)} :
    Reads line label? words ↔ labelOf line = label? ∧ wordsOf line = words := by
  constructor
  · intro h
    exact Prod.mk.inj (parts_eq_of_reads h)
  · rintro ⟨rfl, rfl⟩
    obtain ⟨label?, words, h⟩ := exists_reads line
    obtain ⟨hlabel, hwords⟩ := Prod.mk.inj (parts_eq_of_reads h)
    rw [labelOf, wordsOf, hlabel, hwords]
    exact h

/-! ### The lines of a source -/

/-- A line without the carriage return at its end, if there is one. -/
def chomp (line : List Char) : List Char :=
  if line.getLast? = some '\r' then line.dropLast else line

/-- The lines of a source as they are counted. A line feed ends a line, together with a carriage
return before it, and what follows the last line feed is a line unless it is empty. -/
def sourceLines (source : List Char) : List (List Char) :=
  (lines source).dropLast.map chomp ++ (lines source).getLast?.toList.filter fun line => line ≠ []

theorem alike_chomp (line : List Char) : Alike (chomp line) line := by
  unfold chomp
  split
  · next h =>
    have hreturn : Blanks ['\r'] := Text.blanks_singleton (by decide)
    have hline := List.dropLast_append_getLast? '\r' h
    have halike := alike_append_blanks hreturn line.dropLast
    rw [hline] at halike
    exact halike.symm
  · rfl

namespace Layout

variable (layout : Layout) (number : Nat)

theorem addLine_congr {line line' : List Char} (h : Alike line line') :
    layout.addLine number line = layout.addLine number line' := by
  obtain ⟨hlabel, hwords⟩ := Prod.mk.inj h
  have hlabel : labelOf line = labelOf line' := hlabel
  have hwords : wordsOf line = wordsOf line' := hwords
  rw [addLine_eq, addLine_eq, defineLine, defineLine, hlabel, hwords]

theorem extend_congr {before after : List (List Char)} (h : List.Forall₂ Alike before after) :
    layout.extend number before = layout.extend number after := by
  induction h generalizing layout number with
  | nil => rfl
  | cons hline _ ih =>
      rw [extend, extend, addLine_congr layout number hline]
      cases layout.addLine number _ with
      | ok layout => exact ih layout (number + 1)
      | error cause => rfl

theorem extend_append (before after : List (List Char)) :
    layout.extend number (before ++ after) =
      layout.extend number before >>= fun layout =>
        layout.extend (number + before.length) after := by
  induction before generalizing layout number with
  | nil => rfl
  | cons line before ih =>
      rw [List.cons_append, extend, extend]
      cases layout.addLine number line with
      | ok layout =>
          have hnumber : number + (line :: before).length = number + 1 + before.length := by
            rw [List.length_cons]
            omega
          rw [hnumber]
          exact ih layout (number + 1)
      | error cause => rfl

/-- An empty line adds nothing. -/
theorem extend_singleton_nil : layout.extend number [[]] = .ok layout := rfl

/-- The first pass over a source goes over its lines as they are counted. -/
theorem ofSource_eq_extend (source : List Char) :
    ofSource source = extend {} 1 (sourceLines source) := by
  have hchomp : ∀ pieces : List (List Char), List.Forall₂ Alike pieces (pieces.map chomp) := by
    intro pieces
    rw [List.forall₂_map_right_iff]
    exact List.forall₂_same.mpr fun line _ => (alike_chomp line).symm
  rw [ofSource, sourceLines]
  cases hlast : (lines source).getLast? with
  | none =>
      rw [List.getLast?_eq_none_iff.mp hlast]
      rfl
  | some line =>
      rw [← congrArg (extend {} 1) (List.dropLast_append_getLast? line hlast), extend_append,
        extend_append, extend_congr {} 1 (hchomp _), List.length_map]
      refine bind_congr fun layout => ?_
      by_cases hline : line = []
      · rw [hline]
        exact extend_singleton_nil layout _
      · simp [hline]

end Layout

end CoolMachine.Assembly
