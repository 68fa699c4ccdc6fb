import CoolMachine.Proofs.Assembly.Grammar
import CoolMachine.Proofs.Assembly.Placement
import CoolMachine.Proofs.Assembly.Relabelling

/-! Labels by any other name. Both passes over a source go the same way when its labels are renamed,
as long as different labels get different names and no name is taken for an operand that was a
number before; so the image is the same, or the same line is to blame. -/

namespace CoolMachine.Assembly

open Text (IsWord)

/-! ### Renamings -/

/-- The labels that the source defines. What stands before a colon is no label if it is empty or has
blanks inside. -/
def definedLabels (source : List Char) : List (List Char) :=
  ((lines source).filterMap labelOf).filter fun label =>
    !(label.isEmpty || label.any Text.isBlank)

/-- The operands in the source. -/
def operandsIn (source : List Char) : List (List Char) :=
  (lines source).filterMap fun line =>
    match wordsOf line with
    | [_, operand] => some operand
    | _ => none

/-- Names for the labels of a source: different ones for different labels, without blanks and marks,
and none that is an operand without being a label. -/
structure Renaming (source : List Char) where
  name : List Char → List Char
  injective : ∀ label ∈ definedLabels source, ∀ other ∈ definedLabels source,
    name label = name other → label = other
  solid : ∀ label ∈ definedLabels source, Solid (name label)
  fresh : ∀ label ∈ definedLabels source, name label ∈ operandsIn source →
    name label ∈ definedLabels source

namespace Renaming

variable {source : List Char}

/-- What a word of the source is called after the renaming. -/
def apply (r : Renaming source) (word : List Char) : List Char :=
  if word ∈ definedLabels source then r.name word else word

/-- The source after the renaming. -/
def renamed (r : Renaming source) : List Char := renameSource r.apply source

theorem mem_definedLabels_iff {label : List Char} : label ∈ definedLabels source ↔
    (∃ line ∈ lines source, labelOf line = some label) ∧ IsWord label := by
  rw [definedLabels, List.mem_filter, List.mem_filterMap, Text.isWord_iff, Bool.not_eq_true']

theorem mem_operandsIn {line head operand : List Char} (hline : line ∈ lines source)
    (hwords : wordsOf line = [head, operand]) : operand ∈ operandsIn source :=
  List.mem_filterMap.mpr ⟨line, hline, by rw [hwords]⟩

theorem renames_apply (r : Renaming source) : Renames r.apply where
  isWord := by
    intro word h
    unfold apply
    split
    · next hmem =>
        have hsolid := r.solid word hmem
        exact ⟨hsolid.ne_nil, hsolid.not_blank⟩
    · exact h
  fixes := fun h => if_neg fun hmem => h (mem_definedLabels_iff.mp hmem).2
  not_mem := by
    intro mark word hp h
    unfold apply
    split
    · next hmem => exact (r.solid word hmem).not_mem hp
    · exact h

/-- A text that matters to the operands of the source: a label or an operand. -/
def Token (source text : List Char) : Prop :=
  text ∈ definedLabels source ∨ text ∈ operandsIn source

/-- Nothing else is called like a label after the renaming. -/
theorem eq_of_apply_eq (r : Renaming source) {label text : List Char}
    (hlabel : label ∈ definedLabels source) (htext : Token source text)
    (h : r.apply text = r.apply label) : text = label := by
  rw [apply, apply, if_pos hlabel] at h
  split at h
  · next hmem => exact r.injective text hmem label hlabel h
  · next hmem =>
      have hoperand : text ∈ operandsIn source := htext.resolve_left hmem
      rw [h] at hmem hoperand
      exact absurd (r.fresh label hlabel hoperand) hmem

end Renaming

/-! ### Items -/

/-- The cause with its label renamed, for the causes that name one. -/
def Cause.rename (f : List Char → List Char) : Cause → Cause
  | duplicateLabel label => duplicateLabel (f label)
  | unreachableLabel label => unreachableLabel (f label)
  | cause => cause

def Error.rename (f : List Char → List Char) (e : Error) : Error := ⟨e.line, e.cause.rename f⟩

/-- The item with its operand renamed. -/
def Item.rename (f : List Char → List Char) : Item → Item
  | instruction op operand agrees =>
    instruction op (operand.map f) (by rw [Option.isSome_map, agrees])
  | word value => word (f value)

/-- The operand of the item as written, if it has one. -/
def Item.operand? : Item → Option (List Char)
  | instruction _ operand _ => operand
  | word value => some value

section

variable (f : List Char → List Char)

theorem size_rename (item : Item) : (item.rename f).size = item.size := by
  cases item <;> rfl

theorem parse_rename (head : List Char) (operand : Option (List Char)) :
    Item.parse head (operand.map f) = (Item.parse head operand).map (Item.rename f) := by
  unfold Item.parse
  split
  · cases operand <;> rfl
  · cases Opcode.ofMnemonic? head with
    | none => rfl
    | some op =>
        simp only [Option.isSome_map]
        split
        · rfl
        · split <;> rfl

/-- Why words are no item does not depend on their labels. -/
theorem ofWords_renameWords (words : List (List Char)) :
    Item.ofWords (renameWords f words) = (Item.ofWords words).map (Option.map (Item.rename f)) := by
  have hmap : ∀ x : Except Cause Item,
      (x.map (Item.rename f)).map some = (x.map some).map (Option.map (Item.rename f)) := by
    intro x
    cases x <;> rfl
  match words with
  | [] => rfl
  | [head] => exact (congrArg (Except.map some) (parse_rename f head none)).trans (hmap _)
  | [head, operand] =>
      exact (congrArg (Except.map some) (parse_rename f head (some operand))).trans (hmap _)
  | _ :: _ :: _ :: _ => rfl

end

/-- Words that are no item are not blamed on a label. -/
theorem rename_of_ofWords (f : List Char → List Char) {words : List (List Char)} {cause : Cause}
    (h : Item.ofWords words = .error cause) : cause.rename f = cause := by
  have hparse : ∀ {head operand}, (Item.parse head operand).map some = .error cause →
      cause.rename f = cause := by
    intro head operand h
    unfold Item.parse at h
    split at h
    · cases operand <;> cases h
      rfl
    · cases hop : Opcode.ofMnemonic? head with
      | none =>
          rw [hop] at h
          cases h
          rfl
      | some op =>
          simp only [hop] at h
          split at h
          · cases h
          · split at h <;> cases h <;> rfl
  cases words with
  | nil => cases h
  | cons head rest =>
      cases rest with
      | nil => exact hparse h
      | cons operand rest =>
          cases rest with
          | nil => exact hparse (show (Item.parse head (some operand)).map some = _ from h)
          | cons third rest =>
              cases h
              rfl

/-- The operand of an item is the second word of its line. -/
theorem wordsOf_of_operand? {line operand : List Char} {item : Item}
    (hitem : itemOf line = some item) (hoperand : item.operand? = some operand) :
    ∃ head, wordsOf line = [head, operand] := by
  cases hparse : Item.ofWords (wordsOf line) with
  | error cause =>
      rw [itemOf, hparse] at hitem
      cases hitem
  | ok item? =>
      obtain rfl : item? = some item := by
        rw [itemOf, hparse] at hitem
        exact hitem
      obtain ⟨-, hnone⟩ | ⟨head, operand?, item', hwords, hitem', hsome⟩ :=
        of_ofWords_eq_ok hparse
      · cases hnone
      · cases hsome
        obtain ⟨-, value, rfl, rfl⟩ | ⟨op, agrees, -, rfl⟩ := of_parse_eq_ok hitem'
        · cases hoperand
          exact ⟨head, hwords⟩
        · obtain rfl : operand? = some operand := hoperand
          exact ⟨head, hwords⟩

/-! ### The first pass -/

/-- Two answers side by side: results that are related, or an error and what becomes of it. -/
inductive Agree {ε α β : Type} (R : α → β → Prop) (g : ε → ε) : Except ε α → Except ε β → Prop where
  | ok {a : α} {b : β} : R a b → Agree R g (.ok a) (.ok b)
  | error (e : ε) : Agree R g (.error e) (.error (g e))

theorem Agree.bind {ε α β α' β' : Type} {R : α → β → Prop} {S : α' → β' → Prop} {g : ε → ε}
    {x : Except ε α} {y : Except ε β} {k : α → Except ε α'} {k' : β → Except ε β'}
    (h : Agree R g x y) (hk : ∀ a b, R a b → Agree S g (k a) (k' b)) :
    Agree S g (x >>= k) (y >>= k') := by
  cases h with
  | ok hR => exact hk _ _ hR
  | error e => exact .error e

namespace Layout

/-- The second layout is the first one with its labels renamed. -/
structure Renamed {source : List Char} (r : Renaming source) (layout layout' : Layout) : Prop where
  size : layout'.size = layout.size
  items : layout'.newestFirst =
    layout.newestFirst.map fun entry => (entry.1, entry.2.rename r.apply)
  labels : ∀ text, Renaming.Token source text → layout'.labels[r.apply text]? = layout.labels[text]?

section

variable {source line label : List Char} {r : Renaming source} {layout layout' : Layout}

theorem renamed_empty (r : Renaming source) : Renamed r {} {} :=
  ⟨rfl, rfl, fun _ _ => by rw [Std.TreeMap.getElem?_emptyc, Std.TreeMap.getElem?_emptyc]⟩

theorem agree_define (h : Renamed r layout layout') (hline : line ∈ lines source)
    (hlabel : labelOf line = some label) :
    Agree (Renamed r) (Cause.rename r.apply) (layout.define label)
      (layout'.define (r.apply label)) := by
  by_cases hword : IsWord label
  · have hmem : label ∈ definedLabels source :=
      Renaming.mem_definedLabels_iff.mpr ⟨⟨line, hline, hlabel⟩, hword⟩
    have hsame := h.labels label (.inl hmem)
    rw [define, define, (Text.isWord_iff _).mp hword,
      (Text.isWord_iff _).mp (r.renames_apply.isWord hword),
      Std.TreeMap.contains_eq_isSome_getElem?, Std.TreeMap.contains_eq_isSome_getElem?, hsame]
    cases layout.labels[label]? with
    | some address => exact .error (Cause.duplicateLabel label)
    | none =>
        -- The new name is met exactly where the label was: no other text is called like it.
        refine .ok ⟨h.size, h.items, fun text htext => ?_⟩
        have hiff : r.apply label = r.apply text ↔ label = text :=
          ⟨fun heq => (r.eq_of_apply_eq hmem htext heq.symm).symm, congrArg r.apply⟩
        rw [Std.TreeMap.getElem?_insert, Std.TreeMap.getElem?_insert, h.size, h.labels text htext]
        simp only [Std.LawfulEqCmp.compare_eq_iff_eq, hiff]
  · have hbad : (label.isEmpty || label.any Text.isBlank) = true := by
      rwa [Text.isWord_iff, Bool.not_eq_false] at hword
    rw [r.renames_apply.fixes hword, define, define, if_pos hbad, if_pos hbad]
    exact .error (Cause.invalidLabel label)

theorem renamed_placeLine (h : Renamed r layout layout') (number : Nat) (item : Option Item) :
    Renamed r (layout.placeLine number item)
      (layout'.placeLine number (item.map (Item.rename r.apply))) := by
  cases item with
  | none => exact h
  | some item =>
      refine ⟨?_, ?_, h.labels⟩
      · simp only [placeLine, place, Option.map_some, h.size, size_rename]
      · simp only [placeLine, place, Option.map_some, h.items, List.map_cons]

/-- A line and the renamed line are both accepted, or rejected for the same reason. -/
theorem agree_addLine (h : Renamed r layout layout') (hline : line ∈ lines source)
    (number : Nat) : Agree (Renamed r) (Cause.rename r.apply) (layout.addLine number line)
      (layout'.addLine number (renameLine r.apply line)) := by
  have hdefine : Agree (Renamed r) (Cause.rename r.apply) (layout.defineLine line)
      (layout'.defineLine (renameLine r.apply line)) := by
    rw [defineLine, defineLine, labelOf_renameLine r.renames_apply]
    cases hlabel : labelOf line with
    | none => exact .ok h
    | some label => exact agree_define h hline hlabel
  rw [addLine_eq, addLine_eq, wordsOf_renameLine r.renames_apply, ofWords_renameWords]
  refine hdefine.bind fun middle middle' hmiddle => ?_
  cases hwords : Item.ofWords (wordsOf line) with
  | error cause =>
      have hagree := Agree.error (R := Renamed r) (g := Cause.rename r.apply) cause
      rw [rename_of_ofWords r.apply hwords] at hagree
      exact hagree
  | ok item => exact .ok (renamed_placeLine hmiddle number item)

end

/-- Both first passes get through, or stop at the same line. -/
theorem agree_extend {source : List Char} {r : Renaming source} {layout layout' : Layout}
    (h : Renamed r layout layout') {rest : List (List Char)}
    (hrest : ∀ line ∈ rest, line ∈ lines source) (number : Nat) :
    Agree (Renamed r) (Error.rename r.apply) (layout.extend number rest)
      (layout'.extend number (rest.map (renameLine r.apply))) := by
  induction rest generalizing layout layout' number with
  | nil => exact .ok h
  | cons line rest ih =>
      have hline := agree_addLine h (hrest line List.mem_cons_self) number
      rw [List.map_cons, extend, extend]
      generalize layout.addLine number line = added at hline
      generalize layout'.addLine number (renameLine r.apply line) = added' at hline
      cases hline with
      | ok hadded => exact ih hadded (fun other ho => hrest other (List.mem_cons_of_mem _ ho)) _
      | error cause => exact Agree.error (Error.mk number cause)

end Layout

/-! ### The second pass -/

theorem numeral_mapError (f : List Char → List Char) (text : List Char) :
    (numeral text).mapError (Cause.rename f) = numeral text := by
  unfold numeral
  split
  · rfl
  · split <;> rfl

section

variable {source : List Char} {r : Renaming source} {layout layout' : Layout}

/-- An operand that is no label has kept its name, and a label its address. -/
theorem operandWord_renamed (h : Layout.Renamed r layout layout')
    (hd : layout.Describes (lines source)) {operand : List Char}
    (hoperand : operand ∈ operandsIn source) :
    operandWord layout'.labels (r.apply operand) =
      (operandWord layout.labels operand).mapError (Cause.rename r.apply) := by
  rw [operandWord, operandWord, h.labels operand (.inr hoperand)]
  cases hfound : layout.labels[operand]? with
  | some address =>
      simp only
      split <;> rfl
  | none =>
      -- All lines have been laid out, so an operand without an address is no label of the source.
      have hmem : operand ∉ definedLabels source := by
        intro hmem
        obtain ⟨⟨line, hline, hlabel⟩, -⟩ := Renaming.mem_definedLabels_iff.mp hmem
        obtain ⟨address, hdefines⟩ := exists_defines hline hlabel
        rw [(hd.labels operand address).mpr hdefines] at hfound
        cases hfound
      rw [Renaming.apply, if_neg hmem]
      exact (numeral_mapError r.apply operand).symm

theorem emit_renamed (h : Layout.Renamed r layout layout')
    (hd : layout.Describes (lines source)) {item : Item}
    (hitem : ∀ operand ∈ item.operand?, operand ∈ operandsIn source) :
    (item.rename r.apply).emit layout'.labels =
      (item.emit layout.labels).mapError (Cause.rename r.apply) := by
  cases item with
  | instruction op operand agrees =>
      cases operand with
      | none => rfl
      | some operand =>
          have hword := operandWord_renamed h hd (hitem operand rfl)
          simp only [Item.rename, Option.map_some, Item.emit, hword]
          cases operandWord layout.labels operand <;> rfl
  | word value =>
      have hword := operandWord_renamed h hd (hitem value rfl)
      simp only [Item.rename, Item.emit, hword]
      cases operandWord layout.labels value <;> rfl

theorem emitAll_renamed (h : Layout.Renamed r layout layout')
    (hd : layout.Describes (lines source)) {items : List (Nat × Item)}
    (hitems : ∀ entry ∈ items, ∀ operand ∈ entry.2.operand?, operand ∈ operandsIn source) :
    emitAll layout'.labels (items.map fun entry => (entry.1, entry.2.rename r.apply)) =
      (emitAll layout.labels items).mapError (Error.rename r.apply) := by
  induction items with
  | nil => rfl
  | cons entry items ih =>
      obtain ⟨number, item⟩ := entry
      have hrest := ih fun entry he => hitems entry (List.mem_cons_of_mem _ he)
      rw [List.map_cons, emitAll_cons, emitAll_cons, hrest,
        emit_renamed h hd (hitems _ List.mem_cons_self)]
      cases item.emit layout.labels with
      | error cause => rfl
      | ok words => cases emitAll layout.labels items <;> rfl

/-- The operands of a layout are the operands in its source. -/
theorem operand_mem_of_mem_items (hd : layout.Describes (lines source)) {entry : Nat × Item}
    (hentry : entry ∈ layout.items) {operand : List Char} (ho : operand ∈ entry.2.operand?) :
    operand ∈ operandsIn source := by
  have hitem : entry.2 ∈ (lines source).filterMap itemOf :=
    hd.items ▸ List.mem_map_of_mem hentry
  obtain ⟨line, hline, hitem⟩ := List.mem_filterMap.mp hitem
  obtain ⟨head, hwords⟩ := wordsOf_of_operand? hitem ho
  exact Renaming.mem_operandsIn hline hwords

end

/-! ### Programs -/

theorem assemble_renamed {source : List Char} (r : Renaming source) :
    assemble r.renamed = (assemble source).mapError (Error.rename r.apply) := by
  have hextend := Layout.agree_extend (Layout.renamed_empty r) (fun _ => id) 1
  rw [← lines_renameSource r.renames_apply] at hextend
  change Agree (Layout.Renamed r) (Error.rename r.apply) (Layout.ofSource source)
    (Layout.ofSource r.renamed) at hextend
  rw [assemble, assemble]
  cases hfirst : Layout.ofSource source with
  | error e =>
      rw [hfirst] at hextend
      generalize Layout.ofSource r.renamed = first' at hextend
      cases hextend
      rfl
  | ok layout =>
      rw [hfirst] at hextend
      generalize Layout.ofSource r.renamed = first' at hextend
      cases hextend with
      | @ok _ layout' hrenamed =>
          have hd := Layout.describes_ofSource hfirst
          have hitems : layout'.items =
              layout.items.map fun entry => (entry.1, entry.2.rename r.apply) := by
            rw [Layout.items, Layout.items, hrenamed.items, List.map_reverse]
          have hemit := emitAll_renamed hrenamed hd fun entry hentry operand ho =>
            operand_mem_of_mem_items hd hentry ho
          change (emitAll layout'.labels layout'.items >>= fun words => pure words.flatten) =
            (emitAll layout.labels layout.items >>= fun words => pure words.flatten).mapError _
          rw [hitems, hemit]
          cases emitAll layout.labels layout.items <;> rfl

/-- A source and the source with its labels renamed are the same program, or fail alike. -/
structure SameProgram {source : List Char} (r : Renaming source) : Prop where
  same_image : ∀ image, assemble r.renamed = .ok image ↔ assemble source = .ok image
  same_line : ∀ e, assemble source = .error e →
    ∃ e', assemble r.renamed = .error e' ∧ e'.line = e.line
  /-- The causes differ only in the names of labels. -/
  same_cause : ∀ e', assemble r.renamed = .error e' →
    ∃ e, assemble source = .error e ∧ e' = ⟨e.line, e.cause.rename r.apply⟩

/-- The names of labels carry no meaning. -/
theorem labels_carry_no_meaning {source : List Char} (r : Renaming source) : SameProgram r where
  same_image := by
    intro image
    rw [assemble_renamed, Except.mapError_eq_ok_iff]
  same_line := by
    intro e he
    exact ⟨e.rename r.apply, by rw [assemble_renamed, he]; rfl, rfl⟩
  same_cause := by
    intro e' he'
    rw [assemble_renamed] at he'
    cases he : assemble source with
    | ok image =>
        rw [he] at he'
        cases he'
    | error e =>
        rw [he] at he'
        cases he'
        exact ⟨e, rfl, rfl⟩

/-- The labels 7 and .word change places, and every other label becomes -1. -/
def swapName (label : List Char) : List Char :=
  if label = "7".toList then ".word".toList
  else if label = ".word".toList then "7".toList
  else "-1".toList

def swapped : Renaming "nop: jmp 7\n7: pushc .word\n.word: .word 3 # 7".toList where
  name := swapName
  injective := by decide
  solid := by
    have hsolid : ∀ label ∈ definedLabels "nop: jmp 7\n7: pushc .word\n.word: .word 3 # 7".toList,
        swapName label ≠ [] ∧ (swapName label).all isPlain = true := by decide
    exact fun label h => ⟨(hsolid label h).1, (hsolid label h).2⟩
  fresh := by decide

/-- Labels spelled like numbers, mnemonics and directives are labels wherever they can be. -/
theorem labels_carry_no_meaning_swapped :
    swapped.renamed = "-1: jmp .word\n.word: pushc 7\n7: .word 3 # 7".toList ∧
    assemble "-1: jmp .word\n.word: pushc 7\n7: .word 3 # 7".toList = .ok [8, 2, 12, 4, 3] := by
  have hrenamed : swapped.renamed =
      "-1: jmp .word\n.word: pushc 7\n7: .word 3 # 7".toList := by decide
  exact ⟨hrenamed, hrenamed ▸ ((labels_carry_no_meaning swapped).same_image _).mpr (by cbv)⟩

end CoolMachine.Assembly
