import CoolMachine.Proofs.Assembly.Grammar
import CoolMachine.Proofs.Assembly.Spacing

/-! Edits of a source that leave its image as it is: comments, blanks, the case of mnemonics, empty
lines, and labels put on lines of their own. An accepted source is folded line by line, with the
numbers of lines forgotten, and an edit puts lines in the place of one that fold to the same. -/

namespace CoolMachine.Assembly

open Text (Blanks)

/-! ### What the first pass sees of a line -/

/-- The words of the label in a statement, if it has one, and the words behind it. -/
def outline (text : List Char) : Option (List (List Char)) × List (List Char) :=
  ((parts text).1.map Text.words, (parts text).2)

section Outline

variable {x y gap gap' : List Char}

theorem outline_of_not_mem (h : labelMark ∉ x) : outline x = (none, Text.words x) := by
  rw [outline, parts_of_not_mem h]
  rfl

theorem outline_append_cons (h : labelMark ∉ x) (rest : List Char) :
    outline (x ++ labelMark :: rest) = (some (Text.words x), Text.words rest) := by
  rw [outline, parts_append_cons h, Option.map_some, Text.words_trim]

theorem outline_blanks_append (h : Blanks gap) (x : List Char) :
    outline (gap ++ x) = outline x := by
  rw [outline, parts_blanks_append h, outline]

theorem outline_of_blanks (h : Blanks gap) : outline gap = (none, []) := by
  rw [outline_of_not_mem (labelMark_not_mem h), Text.words_of_blanks h]

/-- It does not matter how many blanks there are in a place with any. -/
theorem outline_append_blanks_append (h : Blanks gap) (hne : gap ≠ []) (h' : Blanks gap')
    (hne' : gap' ≠ []) (x y : List Char) :
    outline (x ++ gap ++ y) = outline (x ++ gap' ++ y) := by
  have hwords : ∀ x y : List Char, Text.words (x ++ gap ++ y) = Text.words (x ++ gap' ++ y) := by
    intro x y
    rw [Text.words_append_blanks_append h hne, Text.words_append_blanks_append h' hne']
  by_cases hx : labelMark ∈ x
  · obtain ⟨before, rest, rfl, hbefore⟩ := List.eq_append_cons_of_mem hx
    simp only [List.append_assoc, List.cons_append]
    rw [outline_append_cons hbefore, outline_append_cons hbefore, ← List.append_assoc,
      ← List.append_assoc, hwords]
  · have hgap : ∀ {gap}, Blanks gap → labelMark ∉ x ++ gap := fun h =>
      List.not_mem_append hx (labelMark_not_mem h)
    by_cases hy : labelMark ∈ y
    · obtain ⟨before, rest, rfl, hbefore⟩ := List.eq_append_cons_of_mem hy
      have hlabel : ∀ {gap}, Blanks gap → labelMark ∉ x ++ gap ++ before := fun h =>
        List.not_mem_append (hgap h) hbefore
      rw [← List.append_assoc, ← List.append_assoc, outline_append_cons (hlabel h),
        outline_append_cons (hlabel h'), hwords]
    · have hnone : ∀ {gap}, Blanks gap → labelMark ∉ x ++ gap ++ y := fun h =>
        List.not_mem_append (hgap h) hy
      rw [outline_of_not_mem (hnone h), outline_of_not_mem (hnone h'), hwords]

end Outline

namespace Layout

/-- The layout after one more line, if the line is accepted; which number it has is no matter. -/
def follow (layout : Layout) (line : List Char) : Option Layout :=
  (layout.addLine 0 line).toOption

/-- The layout once a label has been defined, of which only the words are known. -/
def defineWords (layout : Layout) : Option (List (List Char)) → Option Layout
  | none => some layout
  | some [label] => (layout.define label).toOption
  | some _ => none

/-- A label is accepted only if it is a single word. -/
theorem toOption_define_trim (layout : Layout) (x : List Char) :
    (layout.define (Text.trim x)).toOption = layout.defineWords (some (Text.words x)) := by
  -- The two sides can name different labels only where both are refused.
  have hfails : Text.words x ≠ [Text.trim x] →
      (layout.define (Text.trim x)).toOption = none := by
    intro hwords
    have hbad : ((Text.trim x).isEmpty || (Text.trim x).any Text.isBlank) = true := by
      by_contra hgood
      simp only [Bool.or_eq_true, List.isEmpty_iff, List.any_eq_true, not_or, not_exists, not_and,
        Bool.not_eq_true] at hgood
      rw [← Text.words_trim, Text.words_of_not_blank hgood.2 hgood.1] at hwords
      exact hwords rfl
    rw [define, if_pos hbad]
    rfl
  cases hwords : Text.words x with
  | nil => exact hfails (by rw [hwords]; exact (List.cons_ne_nil _ _).symm)
  | cons label rest =>
      cases rest with
      | nil =>
          rw [Text.trim_of_words_eq_singleton hwords]
          rfl
      | cons word rest => exact hfails (by simp [hwords])

theorem follow_eq (layout : Layout) (line : List Char) : layout.follow line =
    (layout.defineWords (outline (statement line)).1).bind fun layout =>
      (Item.ofWords (outline (statement line)).2).toOption.map (layout.placeLine 0) := by
  have hdefine : (layout.defineLine line).toOption =
      layout.defineWords (outline (statement line)).1 := by
    by_cases hmem : labelMark ∈ statement line
    · obtain ⟨before, rest, hline, hbefore⟩ := List.eq_append_cons_of_mem hmem
      have hlabel : labelOf line = some (Text.trim before) := by
        change (parts (statement line)).1 = _
        rw [hline, parts_append_cons hbefore]
      rw [hline, outline_append_cons hbefore, defineLine, hlabel]
      exact toOption_define_trim layout before
    · have hlabel : labelOf line = none := by
        change (parts (statement line)).1 = _
        rw [parts_of_not_mem hmem]
      rw [outline_of_not_mem hmem, defineLine, hlabel]
      rfl
  rw [follow, addLine_eq, Except.toOption_bind, hdefine]
  refine congrArg _ (funext fun layout => ?_)
  change (Item.ofWords (wordsOf line) >>= fun item => pure (layout.placeLine 0 item)).toOption =
    (Item.ofWords (wordsOf line)).toOption.map (layout.placeLine 0)
  cases Item.ofWords (wordsOf line) <;> rfl

theorem follow_congr {line line' : List Char}
    (h : outline (statement line) = outline (statement line')) (layout : Layout) :
    layout.follow line = layout.follow line' := by
  rw [follow_eq, follow_eq, h]

/-- The same layout with all line numbers forgotten. -/
def unnumbered (layout : Layout) : Layout :=
  { layout with newestFirst := layout.newestFirst.map fun entry => (0, entry.2) }

theorem defineLine_unnumbered (layout : Layout) (line : List Char) :
    (layout.defineLine line).map unnumbered = layout.unnumbered.defineLine line := by
  rw [defineLine, defineLine]
  cases labelOf line with
  | none => rfl
  | some label =>
      have hlabels : layout.unnumbered.labels = layout.labels := rfl
      simp only [define, hlabels]
      split
      · rfl
      · split <;> rfl

theorem addLine_unnumbered (layout : Layout) (number : Nat) (line : List Char) :
    (layout.addLine number line).toOption.map unnumbered = layout.unnumbered.follow line := by
  rw [follow, addLine_eq, addLine_eq, ← defineLine_unnumbered]
  cases layout.defineLine line with
  | error cause => rfl
  | ok middle =>
      cases Item.ofWords (wordsOf line) with
      | error cause => rfl
      | ok item => cases item <;> rfl

theorem extend_unnumbered (layout : Layout) (number : Nat) (lines : List (List Char)) :
    (layout.extend number lines).toOption.map unnumbered =
      lines.foldlM follow layout.unnumbered := by
  induction lines generalizing layout number with
  | nil => rfl
  | cons line lines ih =>
      rw [extend, List.foldlM_cons, ← addLine_unnumbered layout number]
      cases layout.addLine number line with
      | error cause => rfl
      | ok layout => exact ih layout (number + 1)

/-- The image of a program with this layout, if its operands are resolved. -/
def image? (layout : Layout) : Option (List Word) :=
  (emitAll layout.labels layout.items).toOption.map List.flatten

theorem image?_unnumbered (layout : Layout) : layout.unnumbered.image? = layout.image? := by
  have hitems : layout.unnumbered.items.map Prod.snd = layout.items.map Prod.snd := by
    simp [items, unnumbered, List.map_reverse]
  rw [image?, image?]
  refine congrArg _ (Option.ext fun words => ?_)
  rw [Except.toOption_eq_some_iff, Except.toOption_eq_some_iff, emitAll_eq_ok_iff,
    emitAll_eq_ok_iff, hitems]
  rfl

end Layout

theorem toOption_assemble (source : List Char) :
    (assemble source).toOption = ((lines source).foldlM Layout.follow {}).bind Layout.image? := by
  have hfirst := Layout.extend_unnumbered {} 1 (lines source)
  change _ = (lines source).foldlM Layout.follow {} at hfirst
  rw [assemble, Except.toOption_bind, ← hfirst, Option.bind_map]
  refine congrArg _ (funext fun layout => ?_)
  rw [Function.comp_apply, Layout.image?_unnumbered, Layout.image?]
  cases emitAll layout.labels layout.items <;> rfl

/-! ### Edits -/

/-- The text does not go on with the word before it. -/
def EndsWord (tail : List Char) : Prop :=
  ∀ c ∈ tail.head?, Text.isBlank c = true ∨ c = commentMark

/-- What stands before the first word of an instruction: blanks, perhaps behind a label. -/
inductive Leads (tail : List Char) : List Char → Prop where
  | bare {gap : List Char} : Blanks gap → labelMark ∉ statement tail → Leads tail gap
  | labelled {x gap : List Char} : commentMark ∉ x → labelMark ∉ x → Blanks gap →
      Leads tail (x ++ labelMark :: gap)

/-- A line that is empty, blank or only a comment. -/
inductive Vacant : List Char → Prop where
  | blank {gap : List Char} : Blanks gap → Vacant gap
  | comment {gap : List Char} (text : List Char) : Blanks gap → Vacant (gap ++ commentMark :: text)

/-- What a line may be turned into: a line that reads the same, or two lines. -/
inductive LineEdit : List Char → List (List Char) → Prop where
  | comment (line text : List Char) : LineEdit line [line ++ commentMark :: text]
  | spacing {gap gap' : List Char} (x y : List Char) : Blanks gap → gap ≠ [] → Blanks gap' →
      gap' ≠ [] → LineEdit (x ++ gap ++ y) [x ++ gap' ++ y]
  | leading {gap : List Char} (line : List Char) : Blanks gap → LineEdit line [gap ++ line]
  /-- One of the blanks behind a line is the carriage return before its line feed. -/
  | trailing {gap : List Char} (line : List Char) : Blanks gap → LineEdit line [line ++ gap]
  | colon {x gap gap' : List Char} (y : List Char) : commentMark ∉ x → labelMark ∉ x →
      Blanks gap → Blanks gap' →
      LineEdit (x ++ labelMark :: y) [x ++ gap ++ labelMark :: (gap' ++ y)]
  | casing {op : Opcode} {lead word word' tail : List Char} : Leads tail lead → EndsWord tail →
      op.SpelledBy word → op.SpelledBy word' →
      LineEdit (lead ++ (word ++ tail)) [lead ++ (word' ++ tail)]
  /-- The label is put on a line of its own. -/
  | detach {x y : List Char} : commentMark ∉ x → labelMark ∉ x → labelMark ∉ statement y →
      LineEdit (x ++ labelMark :: y) [x ++ [labelMark], y]

/-- One edit of a source, of a line that it has or by a line more. -/
inductive Edit (source source' : List Char) : Prop where
  | line {line : List Char} {above below new : List (List Char)} :
      lines source = above ++ line :: below → lines source' = above ++ (new ++ below) →
      LineEdit line new → Edit source source'
  | insert {line : List Char} {above below : List (List Char)} :
      lines source = above ++ below → lines source' = above ++ line :: below → Vacant line →
      Edit source source'

section Edits

variable {lead word tail : List Char} {op : Opcode}

theorem isPlain_of_isPlain_toLower {c : Char} (h : isPlain c.toLower = true) :
    isPlain c = true := by
  by_cases hupper : 65 ≤ c.toNat ∧ c.toNat ≤ 90
  · have hc : commentMark.toNat = 35 := rfl
    have hl : labelMark.toNat = 58 := rfl
    exact isPlain_of_toNat (by omega) (by omega) (by omega) (by omega)
  · have hsame : c.toLower = c := by
      unfold Char.toLower
      exact dif_neg hupper
    rwa [hsame] at h

theorem solid_of_spelledBy (h : op.SpelledBy word) : Solid word := by
  refine ⟨?_, List.all_eq_true.mpr fun c hc => isPlain_of_isPlain_toLower ?_⟩
  · rintro rfl
    exact (solid_name op).ne_nil h.symm
  · have hmem : c.toLower ∈ op.name.toList := h ▸ List.mem_map_of_mem hc
    exact List.all_eq_true.mp (solid_name op).plain _ hmem

theorem words_append_statement (hword : Solid word) (htail : EndsWord tail) :
    Text.words (word ++ statement tail) = word :: Text.words (statement tail) := by
  have hwords : Text.words word = [word] := hword.words_eq
  cases tail with
  | nil => rw [statement, List.takeWhile_nil, List.append_nil, hwords, Text.words_nil]
  | cons c tail =>
      rcases htail c rfl with hblank | rfl
      · have hc : commentMark ∉ [c] := commentMark_not_mem (Text.blanks_singleton hblank)
        rw [← List.singleton_append, statement_append hc, List.singleton_append,
          Text.words_append_blank _ _ hblank, hwords, Text.words_blank_cons hblank]
        rfl
      · have hcut := statement_append_cons (x := []) List.not_mem_nil tail
        rw [List.nil_append] at hcut
        rw [hcut, List.append_nil, hwords, Text.words_nil]

/-- The first word of an instruction is the first word behind the label, if there is one. -/
theorem exists_outline_eq (hlead : Leads tail lead) (htail : EndsWord tail) :
    ∃ label?, ∀ word, Solid word → outline (statement (lead ++ (word ++ tail))) =
      (label?, word :: Text.words (statement tail)) := by
  cases hlead with
  | @bare gap hgap hnone =>
      refine ⟨none, fun word hword => ?_⟩
      have hmark : labelMark ∉ word ++ statement tail :=
        List.not_mem_append (hword.not_mem (by decide)) hnone
      rw [statement_append (commentMark_not_mem hgap),
        statement_append (hword.not_mem (by decide)), outline_blanks_append hgap,
        outline_of_not_mem hmark, words_append_statement hword htail]
  | @labelled x gap hx hlabel hgap =>
      refine ⟨some (Text.words x), fun word hword => ?_⟩
      rw [List.append_assoc, List.cons_append, statement_append_labelMark hx,
        statement_append (commentMark_not_mem hgap), statement_append (hword.not_mem (by decide)),
        outline_append_cons hlabel, Text.words_blanks_append hgap,
        words_append_statement hword htail]

theorem ofWords_congr {word' : List Char} (h : op.SpelledBy word) (h' : op.SpelledBy word')
    (rest : List (List Char)) : Item.ofWords (word :: rest) = Item.ofWords (word' :: rest) := by
  have hparse : ∀ operand, Item.parse word operand = Item.parse word' operand := by
    intro operand
    have hne : ∀ {text}, op.SpelledBy text → text ≠ dataDirective := fun hspelled he =>
      op.not_spelledBy_dataDirective (he ▸ hspelled)
    simp only [Item.parse, if_neg (hne h), if_neg (hne h'),
      Opcode.ofMnemonic?_eq_some_iff.mpr h, Opcode.ofMnemonic?_eq_some_iff.mpr h']
  cases rest with
  | nil => rw [Item.ofWords, Item.ofWords, hparse]
  | cons operand rest =>
      cases rest with
      | nil => rw [Item.ofWords, Item.ofWords, hparse]
      | cons third rest => rfl

end Edits

namespace Layout

variable (layout : Layout)

theorem follow_of_vacant {line : List Char} (h : Vacant line) :
    layout.follow line = some layout := by
  have houtline : outline (statement line) = (none, []) := by
    cases h with
    | blank hgap => rw [statement_of_not_mem (commentMark_not_mem hgap), outline_of_blanks hgap]
    | comment text hgap =>
        rw [statement_append_cons (commentMark_not_mem hgap), outline_of_blanks hgap]
  rw [follow_eq, houtline]
  rfl

theorem foldlM_follow_of_lineEdit {line : List Char} {new : List (List Char)}
    (h : LineEdit line new) : new.foldlM follow layout = layout.follow line := by
  have hone : ∀ {line'}, outline (statement line') = outline (statement line) →
      [line'].foldlM follow layout = layout.follow line := by
    intro line' houtline
    rw [List.foldlM_cons, follow_congr houtline]
    simp
  cases h with
  | comment line text =>
      apply hone
      by_cases hmem : commentMark ∈ line
      · rw [statement_append_of_mem hmem]
      · rw [statement_append_cons hmem, statement_of_not_mem hmem]
  | @spacing gap gap' x y hgap hne hgap' hne' =>
      apply hone
      by_cases hmem : commentMark ∈ x
      · rw [List.append_assoc, List.append_assoc, statement_append_of_mem hmem,
          statement_append_of_mem hmem]
      · have hfront : ∀ {gap}, Blanks gap → commentMark ∉ x ++ gap := fun hgap =>
          List.not_mem_append hmem (commentMark_not_mem hgap)
        rw [statement_append (hfront hgap), statement_append (hfront hgap'),
          outline_append_blanks_append hgap' hne' hgap hne]
  | leading line hgap =>
      apply hone
      rw [statement_append (commentMark_not_mem hgap), outline_blanks_append hgap]
  | trailing line hgap =>
      apply hone
      rw [outline, alike_append_blanks hgap line, outline]
  | @colon x gap gap' y hx hlabel hgap hgap' =>
      apply hone
      have hx' : commentMark ∉ x ++ gap :=
        List.not_mem_append hx (commentMark_not_mem hgap)
      have hlabel' : labelMark ∉ x ++ gap :=
        List.not_mem_append hlabel (labelMark_not_mem hgap)
      rw [statement_append_labelMark hx', statement_append_labelMark hx,
        outline_append_cons hlabel', outline_append_cons hlabel, Text.words_append_blanks hgap,
        statement_append (commentMark_not_mem hgap'), Text.words_blanks_append hgap']
  | casing hlead htail hword hword' =>
      obtain ⟨label?, houtline⟩ := exists_outline_eq hlead htail
      rw [List.foldlM_cons, follow_eq, follow_eq, houtline _ (solid_of_spelledBy hword),
        houtline _ (solid_of_spelledBy hword'), ofWords_congr hword' hword]
      simp
  | @detach x y hx hlabel hnone =>
      have hself : statement [] = [] := rfl
      simp only [List.foldlM_cons, List.foldlM_nil, follow_eq, statement_append_labelMark hx, hself,
        outline_append_cons hlabel, outline_of_not_mem hnone]
      cases layout.defineWords (some (Text.words x)) with
      | none => rfl
      | some middle =>
          have hlone : (Item.ofWords (Text.words [])).toOption = some none := rfl
          simp [hlone, defineWords, placeLine]

end Layout

theorem toOption_assemble_of_edit {source source' : List Char} (h : Edit source source') :
    (assemble source').toOption = (assemble source).toOption := by
  rw [toOption_assemble, toOption_assemble]
  cases h with
  | line hsource hsource' hedit =>
      rw [hsource, hsource', List.foldlM_append, List.foldlM_append]
      simp only [List.foldlM_append, List.foldlM_cons, Layout.foldlM_follow_of_lineEdit _ hedit]
  | insert hsource hsource' hvacant =>
      rw [hsource, hsource', List.foldlM_append, List.foldlM_append]
      simp only [List.foldlM_cons, Layout.follow_of_vacant _ hvacant, Option.bind_eq_bind,
        Option.bind_some]

/-- A source is accepted exactly when it is accepted after any number of edits, made or undone,
and its image is the same then. -/
theorem assemble_edits {source source' : List Char} (h : Relation.EqvGen Edit source source')
    (image : List Word) : assemble source' = .ok image ↔ assemble source = .ok image := by
  have hsame : (assemble source').toOption = (assemble source).toOption := by
    induction h with
    | rel source source' hedit => exact toOption_assemble_of_edit hedit
    | refl source => rfl
    | symm source source' _ ih => exact ih.symm
    | trans source middle source' _ _ ih ih' => exact ih'.trans ih
  rw [← Except.toOption_eq_some_iff, ← Except.toOption_eq_some_iff, hsame]

/-- The label is put on a line of its own, the mnemonic in capitals, the line of the label ended by
a carriage return as well, and a comment above it. -/
theorem assemble_edits_label_line :
    Relation.EqvGen Edit "a: nop # once\njmp a".toList
      "# a loop\na:\r\n NOP # once\njmp a".toList ∧
    assemble "# a loop\na:\r\n NOP # once\njmp a".toList = .ok [1, 8, 0] := by
  have hdetach : Edit "a: nop # once\njmp a".toList "a:\n nop # once\njmp a".toList :=
    @Edit.line _ _ "a: nop # once".toList [] ["jmp a".toList]
      ["a:".toList, " nop # once".toList] (by decide) (by decide)
      (@LineEdit.detach ['a'] " nop # once".toList (by decide) (by decide) (by decide))
  have hcasing : Edit "a:\n nop # once\njmp a".toList "a:\n NOP # once\njmp a".toList :=
    @Edit.line _ _ " nop # once".toList ["a:".toList] ["jmp a".toList] [" NOP # once".toList]
      (by decide) (by decide)
      (@LineEdit.casing .nop [' '] "nop".toList "NOP".toList " # once".toList
        (.bare (Text.blanks_singleton (by decide)) (by decide))
        (fun _ hc => .inl (Option.mem_some.mp hc ▸ by decide)) (by unfold Opcode.SpelledBy; decide)
        (by unfold Opcode.SpelledBy; decide))
  have hreturn : Edit "a:\n NOP # once\njmp a".toList "a:\r\n NOP # once\njmp a".toList :=
    @Edit.line _ _ "a:".toList [] [" NOP # once".toList, "jmp a".toList] ["a:\r".toList]
      (by decide) (by decide)
      (@LineEdit.trailing ['\r'] "a:".toList (Text.blanks_singleton (by decide)))
  have hcomment : Edit "a:\r\n NOP # once\njmp a".toList
      "# a loop\na:\r\n NOP # once\njmp a".toList :=
    @Edit.insert _ _ "# a loop".toList [] ["a:\r".toList, " NOP # once".toList, "jmp a".toList]
      (by decide) (by decide) (.comment " a loop".toList Text.blanks_nil)
  have hedits := ((Relation.EqvGen.rel _ _ hdetach).trans _ _ _ (.rel _ _ hcasing)).trans _ _ _
    ((Relation.EqvGen.rel _ _ hreturn).trans _ _ _ (.rel _ _ hcomment))
  exact ⟨hedits, (assemble_edits hedits _).mpr (by cbv)⟩

end CoolMachine.Assembly
