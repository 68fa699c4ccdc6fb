import CoolMachine.Proofs.Assembly.Emission
import CoolMachine.Proofs.Assembly.Spacing

/-! Programs written out line by line. An instruction is written as its listing and any other word
as a data word, and assembling what is written gives the words back: mnemonics never run into their
operands, every operand is read back in the form that its kind has been written in, and nothing
that is written is taken for a label or a comment. -/

namespace CoolMachine

theorem Word.ofInt_toNat (word : Word) : UInt16.ofInt word.toNat = word := by
  apply UInt16.toNat_inj.mp
  have h := Word.toNat_ofInt word.toNat
  have hw : word.toNat < 65536 := word.toNat_lt
  omega

theorem Word.ofInt_signed (word : Word) : UInt16.ofInt word.signed.toInt = word := by
  have hs : word.signed.toInt = word.toBitVec.toInt := rfl
  have hn : word.toBitVec.toNat = word.toNat := rfl
  have hw : word.toNat < 65536 := word.toNat_lt
  apply UInt16.toNat_inj.mp
  rw [hs, BitVec.toInt_eq_toNat_cond, hn]
  split
  · exact congrArg UInt16.toNat word.ofInt_toNat
  · have h := Word.toNat_ofInt (word.toNat - (2 ^ 16 : Nat))
    omega

namespace Assembly

/-! ### Entries -/

/-- An instruction, with its operand word if its opcode takes one, or any word as it is. -/
inductive Entry where
  | instruction (op : Opcode) (operand : Option Word) (agrees : operand.isSome = op.takesOperand)
  | data (word : Word)

namespace Entry

/-- The words that the entry takes up in memory. -/
def words : Entry → List Word
  | instruction op operand _ => op.code :: operand.toList
  | data word => [word]

/-- The line that the entry is written as. -/
def line : Entry → List Char
  | instruction op operand _ => CoolMachine.listing op.code operand
  | data word => dataDirective ++ ' ' :: Decimal.ofNat word.toNat

/-- The first word of the line. -/
def head : Entry → List Char
  | instruction op _ _ => op.name.toList
  | data _ => dataDirective

/-- The second word of the line, if it has one. -/
def operand : Entry → Option (List Char)
  | instruction op operand _ => operand.map op.operandKind.numeral
  | data word => some (Decimal.ofNat word.toNat)

/-- The item that the line is read as. -/
def item : Entry → Item
  | instruction op operand agrees =>
    .instruction op (operand.map op.operandKind.numeral) (by rw [Option.isSome_map, agrees])
  | data word => .word (Decimal.ofNat word.toNat)

theorem solid_head (entry : Entry) : Solid entry.head := by
  cases entry with
  | instruction op operand agrees => exact solid_name op
  | data word => exact solid_dataDirective

theorem operandKind_ne_absent {op : Opcode} {word : Word}
    (agrees : (some word).isSome = op.takesOperand) : op.operandKind ≠ .absent :=
  (takesOperand_iff op).mp agrees.symm

theorem solid_operand (entry : Entry) : ∀ text ∈ entry.operand, Solid text := by
  intro text ht
  cases entry with
  | instruction op operand agrees =>
      obtain ⟨word, rfl, rfl⟩ := Option.map_eq_some_iff.mp ht
      exact solid_numeral (operandKind_ne_absent agrees) word
  | data word =>
      cases ht
      exact solid_ofNat word.toNat

/-- Mnemonics are shorter than their column, so a blank always follows. -/
theorem exists_line_eq_spaced (entry : Entry) :
    ∃ gap, entry.line = spaced entry.head gap entry.operand := by
  cases entry with
  | data word => exact ⟨0, rfl⟩
  | instruction op operand agrees =>
      have hlisting : listing op.code operand = op.listing operand := by
        rw [listing, Opcode.ofWord?_code]
      cases operand with
      | none =>
          have htakes : ¬ op.takesOperand = true := by simp [← agrees]
          refine ⟨0, ?_⟩
          rw [line, hlisting, Opcode.listing, if_neg htakes]
          rfl
      | some word =>
          have htakes : op.takesOperand = true := agrees.symm
          have hpad := rightpad_append_eq_spaced op.name_length_lt (op.operandKind.numeral word)
          refine ⟨7 - (op.name.toList.length + 1), ?_⟩
          rw [line, hlisting, Opcode.listing, if_pos htakes]
          exact hpad

theorem labelOf_line (entry : Entry) : labelOf entry.line = none := by
  obtain ⟨gap, hl⟩ := entry.exists_line_eq_spaced
  rw [labelOf, hl, splitLabel_spaced entry.solid_head entry.solid_operand]

theorem wordsOf_line (entry : Entry) : wordsOf entry.line = entry.head :: entry.operand.toList := by
  obtain ⟨gap, hl⟩ := entry.exists_line_eq_spaced
  rw [wordsOf, hl, splitLabel_spaced entry.solid_head entry.solid_operand,
    words_spaced entry.solid_head entry.solid_operand]

theorem newline_not_mem_line (entry : Entry) : '\n' ∉ entry.line := by
  obtain ⟨gap, hl⟩ := entry.exists_line_eq_spaced
  rw [hl]
  exact not_mem_spaced entry.solid_head entry.solid_operand (by decide) (by decide)

theorem name_ne_dataDirective (op : Opcode) : op.name.toList ≠ dataDirective := by
  intro h
  have hdot : '.' ∈ op.name.toList := h ▸ (by decide : '.' ∈ dataDirective)
  exact absurd (Opcode.isLower_of_mem_name hdot) (by decide)

theorem parse_eq_item (entry : Entry) : Item.parse entry.head entry.operand = .ok entry.item := by
  cases entry with
  | data word => rfl
  | instruction op operand agrees =>
      have ha : (operand.map op.operandKind.numeral).isSome = op.takesOperand := by
        rw [Option.isSome_map, agrees]
      unfold Item.parse
      rw [head, if_neg (name_ne_dataDirective op), Opcode.ofMnemonic?_name]
      exact dif_pos ha

/-- The line of an entry is read as the entry. -/
theorem ofWords_line (entry : Entry) :
    Item.ofWords (wordsOf entry.line) = .ok (some entry.item) := by
  have hp := entry.parse_eq_item
  rw [wordsOf_line]
  cases ho : entry.operand with
  | none =>
      rw [ho] at hp
      exact congrArg (Except.map some) hp
  | some text =>
      rw [ho] at hp
      exact congrArg (Except.map some) hp

theorem itemOf_line (entry : Entry) : itemOf entry.line = some entry.item := by
  rw [itemOf, ofWords_line]
  rfl

end Entry

/-! ### Operands read back -/

theorem numeral_ofInt {value : Int} (hlo : -32768 ≤ value) (hhi : value ≤ 65535) :
    numeral (Decimal.ofInt value) = .ok (UInt16.ofInt value) := by
  have hvalue := Decimal.toInt?_eq_some_iff.mp (Decimal.toInt?_ofInt value)
  rw [numeral_of_fits hvalue (by omega) (by omega), if_neg (by omega)]

theorem numeral_ofNat (word : Word) : numeral (Decimal.ofNat word.toNat) = .ok word := by
  have hw : word.toNat < 65536 := word.toNat_lt
  have h : numeral (Decimal.ofInt word.toNat) = .ok (UInt16.ofInt word.toNat) :=
    numeral_ofInt (by omega) (by omega)
  rwa [Word.ofInt_toNat] at h

theorem numeral_signed (word : Word) : numeral (Decimal.ofInt word.signed.toInt) = .ok word := by
  have hlo := Int16.le_toInt word.signed
  have hhi := Int16.toInt_lt word.signed
  rw [numeral_ofInt (by omega) (by omega), Word.ofInt_signed]

/-- Addresses are read back unsigned, constants and offsets signed. -/
theorem numeral_numeral {kind : OperandKind} (h : kind ≠ .absent) (word : Word) :
    numeral (kind.numeral word) = .ok word := by
  cases kind with
  | absent => exact absurd rfl h
  | address => exact numeral_ofNat word
  | constant => exact numeral_signed word
  | offset => exact numeral_signed word

/-- Where no label is defined, an entry's item emits its words. -/
theorem Entry.emit_item {labels : Labels} (h : ∀ label : List Char, labels[label]? = none)
    (entry : Entry) : entry.item.emit labels = .ok entry.words := by
  have hoperand : ∀ text, operandWord labels text = numeral text := fun text =>
    operandWord_of_no_label (h text)
  cases entry with
  | data word =>
      rw [item, Item.emit, hoperand, numeral_ofNat]
      rfl
  | instruction op operand agrees =>
      cases operand with
      | none => rfl
      | some word =>
          change (do
            let word ← operandWord labels (op.operandKind.numeral word)
            return [op.code, word]) = _
          rw [hoperand, numeral_numeral (operandKind_ne_absent agrees)]
          rfl

/-! ### Whole texts -/

/-- The first pass accepts lines that are well formed and define no label. -/
theorem Layout.exists_extend {lines : List (List Char)}
    (hl : ∀ line ∈ lines, labelOf line = none)
    (hp : ∀ line ∈ lines, ∃ item, Item.ofWords (wordsOf line) = .ok item) (layout : Layout)
    (number : Nat) : ∃ layout', layout.extend number lines = .ok layout' := by
  induction lines generalizing layout number with
  | nil => exact ⟨layout, rfl⟩
  | cons line lines ih =>
      obtain ⟨item, hi⟩ := hp line List.mem_cons_self
      have ha : layout.addLine number line = .ok (layout.placeLine number item) := by
        rw [addLine_eq, defineLine, hl line List.mem_cons_self, hi]
        rfl
      rw [extend, ha]
      exact ih (fun line hm => hl line (List.mem_cons_of_mem _ hm))
        (fun line hm => hp line (List.mem_cons_of_mem _ hm)) _ _

/-- Without lines that define labels there are none. -/
theorem Layout.Describes.labels_eq_none {layout : Layout} {lines : List (List Char)}
    (h : layout.Describes lines) (hl : ∀ line ∈ lines, labelOf line = none) (label : List Char) :
    layout.labels[label]? = none := by
  apply Option.eq_none_iff_forall_ne_some.mpr
  intro address ha
  obtain ⟨k, line, hk, hdef, -⟩ := (h.labels label address).mp ha
  rw [hl line (List.mem_of_getElem? hk)] at hdef
  cases hdef

theorem filterMap_itemOf_filter (lines : List (List Char)) :
    (lines.filter (· ≠ [])).filterMap itemOf = lines.filterMap itemOf := by
  rw [List.filterMap_filter]
  apply List.filterMap_congr
  intro line _
  by_cases h : line = []
  · subst h
    rfl
  · simp [h]

section Source

variable {source : List Char} {entries : List Entry}

theorem eq_nil_or_exists_entry (h : (lines source).filter (· ≠ []) = entries.map Entry.line)
    {line : List Char} (hm : line ∈ lines source) :
    line = [] ∨ ∃ entry : Entry, line = entry.line := by
  by_cases hn : line = []
  · exact .inl hn
  · have hf : line ∈ (lines source).filter (· ≠ []) := List.mem_filter.mpr ⟨hm, by simpa using hn⟩
    rw [h] at hf
    obtain ⟨entry, -, rfl⟩ := List.mem_map.mp hf
    exact .inr ⟨entry, rfl⟩

/-- A source whose lines, empty ones apart, are those of the entries assembles to their words. -/
theorem assemble_of_lines (h : (lines source).filter (· ≠ []) = entries.map Entry.line) :
    assemble source = .ok (entries.flatMap Entry.words) := by
  have hl : ∀ line ∈ lines source, labelOf line = none := by
    intro line hm
    rcases eq_nil_or_exists_entry h hm with rfl | ⟨entry, rfl⟩
    · rfl
    · exact entry.labelOf_line
  have hp : ∀ line ∈ lines source, ∃ item, Item.ofWords (wordsOf line) = .ok item := by
    intro line hm
    rcases eq_nil_or_exists_entry h hm with rfl | ⟨entry, rfl⟩
    · exact ⟨none, rfl⟩
    · exact ⟨_, entry.ofWords_line⟩
  obtain ⟨layout, ho⟩ : ∃ layout, Layout.ofSource source = .ok layout :=
    Layout.exists_extend hl hp {} 1
  have hd := Layout.describes_ofSource ho
  have hitems : layout.items.map Prod.snd = entries.map Entry.item := by
    have hitem : itemOf ∘ Entry.line = some ∘ Entry.item := funext Entry.itemOf_line
    rw [hd.items, ← filterMap_itemOf_filter, h, List.filterMap_map, hitem, List.filterMap_eq_map]
  -- No line defines a label, so no numeral is taken for one.
  have hemit : emitAll layout.labels layout.items = .ok (entries.map Entry.words) := by
    rw [emitAll_eq_ok_iff, hitems, List.forall₂_map_left_iff, List.forall₂_map_right_iff,
      List.forall₂_same]
    exact fun entry _ => entry.emit_item (hd.labels_eq_none hl)
  rw [List.flatMap_def]
  apply Except.bind_eq_ok_iff.mpr
  exact ⟨layout, ho, Except.bind_eq_ok_iff.mpr ⟨_, hemit, rfl⟩⟩

end Source

theorem Entry.line_ne_nil (entry : Entry) : entry.line ≠ [] := by
  intro h
  have hw := entry.wordsOf_line
  rw [h] at hw
  cases hw

/-- One line for each entry, with its line feed. -/
def written (entries : List Entry) : List Char := entries.flatMap fun entry => entry.line ++ ['\n']

theorem lines_append_newline {line : List Char} (h : '\n' ∉ line) (rest : List Char) :
    lines (line ++ '\n' :: rest) = line :: lines rest := by
  have hline : ∀ c ∈ line, (c == '\n') = false := by
    intro c hc
    exact beq_false_of_ne fun h' => h (h' ▸ hc)
  rw [lines, List.splitOn, List.splitOnP_append_cons _ _ (by decide),
    List.splitOnP_eq_singleton hline]
  rfl

theorem lines_written (entries : List Entry) :
    lines (written entries) = entries.map Entry.line ++ [[]] := by
  induction entries with
  | nil => rfl
  | cons entry entries ih =>
      rw [written, List.flatMap_cons, List.append_assoc, List.singleton_append,
        lines_append_newline entry.newline_not_mem_line, List.map_cons, List.cons_append]
      exact congrArg _ ih

theorem filter_map_line (entries : List Entry) :
    (entries.map Entry.line).filter (· ≠ []) = entries.map Entry.line := by
  apply List.filter_eq_self.mpr
  intro line hm
  obtain ⟨entry, -, rfl⟩ := List.mem_map.mp hm
  simpa using entry.line_ne_nil

theorem assemble_written (entries : List Entry) :
    assemble (written entries) = .ok (entries.flatMap Entry.words) := by
  apply assemble_of_lines
  rw [lines_written, List.filter_append, filter_map_line]
  exact List.append_nil _

/-- The line feed behind the last line is not needed. -/
theorem assemble_intercalate (entries : List Entry) :
    assemble (['\n'].intercalate (entries.map Entry.line)) = .ok (entries.flatMap Entry.words) := by
  apply assemble_of_lines
  cases entries with
  | nil => rfl
  | cons entry entries =>
      have hn : ∀ line ∈ (entry :: entries).map Entry.line, '\n' ∉ line := by
        intro line hm
        obtain ⟨other, -, rfl⟩ := List.mem_map.mp hm
        exact other.newline_not_mem_line
      rw [lines, List.splitOn_intercalate '\n' hn (List.cons_ne_nil _ _), filter_map_line]

/-- An entry is determined by its line. -/
theorem Entry.line_inj {a b : Entry} : a.line = b.line ↔ a = b := by
  refine ⟨fun h => ?_, fun h => h ▸ rfl⟩
  have hitem : a.item = b.item := by
    have hi := itemOf_line a
    rw [h, itemOf_line] at hi
    exact (Option.some.inj hi).symm
  -- Equal items have equal operand texts, which read back as the operand words.
  have hwords : a.words = b.words := by
    have hempty : ∀ label : List Char, (∅ : Labels)[label]? = none := fun label =>
      Std.TreeMap.getElem?_emptyc
    have hw := a.emit_item hempty
    rw [hitem, b.emit_item hempty] at hw
    exact (Except.ok.inj hw).symm
  cases a with
  | data word =>
      cases b with
      | data other =>
          cases hwords
          rfl
      | instruction op operand agrees => cases hitem
  | instruction op operand agrees =>
      cases b with
      | data other => cases hitem
      | instruction other operand' agrees' =>
          obtain rfl : op = other := (Item.instruction.inj hitem).1
          have ho : operand.toList = operand'.toList := (List.cons.inj hwords).2
          cases operand <;> cases operand' <;> cases ho <;> rfl

/-- Assembling undoes writing out, whether or not the last line is ended. Hence every sequence of
words is the image of some source, and different entries are written differently. -/
theorem assembling_undoes_listing :
    (∀ entries, assemble (written entries) = .ok (entries.flatMap Entry.words)) ∧
      (∀ entries : List Entry, assemble (['\n'].intercalate (entries.map Entry.line)) =
        .ok (entries.flatMap Entry.words)) ∧
      (∀ image, ∃ source, assemble source = .ok image) ∧
      ∀ a b : Entry, a.line = b.line ↔ a = b := by
  refine ⟨assemble_written, assemble_intercalate, fun image => ?_, fun a b => Entry.line_inj⟩
  have himage : (image.map Entry.data).flatMap Entry.words = image := by
    rw [List.flatMap_map]
    exact List.flatMap_singleton' image
  refine ⟨written (image.map Entry.data), ?_⟩
  rw [assemble_written, himage]

end Assembly

end CoolMachine
