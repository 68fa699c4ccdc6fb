import CoolMachine.Proofs.Assembly.Layout
import CoolMachine.Proofs.Assembly.Numeral

/-! The second pass over a source. A line emits the words that its own words stand for, and the
addresses that the first pass has counted are the places at which these words stand in the image. -/

namespace CoolMachine

namespace Assembly

/-! ### What a source stands for -/

/-- What a text stands for as an operand: the address of the label that it is, however it is
spelled, and the number that it reads as, modulo 65536, if it is no label. -/
inductive Denotes (labelled : List Char → Nat → Prop) (text : List Char) : Word → Prop where
  | label {word : Word} : labelled text word.toNat → Denotes labelled text word
  | number {word : Word} {value : Int} : (∀ address, ¬ labelled text address) →
      Decimal.toInt? text = some value → -32768 ≤ value → value ≤ 65535 →
      (word.toNat : Int) = value % 65536 → Denotes labelled text word

/-- What a line stands for in the image: nothing, an opcode with its operand if its kind takes one,
or a data word. -/
inductive Emits (labelled : List Char → Nat → Prop) (line : List Char) : List Word → Prop where
  | nothing : wordsOf line = [] → Emits labelled line []
  | opcode {head : List Char} {op : Opcode} : wordsOf line = [head] →
      Opcode.ofMnemonic? head = some op → op.operandKind = .absent →
      Emits labelled line [op.code]
  | operand {head text : List Char} {op : Opcode} {word : Word} : wordsOf line = [head, text] →
      Opcode.ofMnemonic? head = some op → op.operandKind ≠ .absent →
      Denotes labelled text word → Emits labelled line [op.code, word]
  | data {text : List Char} {word : Word} : wordsOf line = [dataDirective, text] →
      Denotes labelled text word → Emits labelled line [word]

/-- One of the lines defines the label, and the lines before it have emitted as many words as the
address says. -/
def Labelled (lines : List (List Char)) (emitted : List (List Word)) (label : List Char)
    (address : Nat) : Prop :=
  ∃ k line, lines[k]? = some line ∧ labelOf line = some label ∧
    address = (emitted.take k).flatten.length

/-! ### Operands and items -/

section Lines

variable {labels : Labels} {labelled : List Char → Nat → Prop}

theorem denotes_of_operandWord
    (hl : ∀ label address, labels[label]? = some address ↔ labelled label address)
    {text : List Char} {word : Word} (h : operandWord labels text = .ok word) :
    Denotes labelled text word := by
  unfold operandWord at h
  cases ha : labels[text]? with
  | some address =>
      simp only [ha] at h
      split at h
      · rename_i hlt
        cases h
        apply Denotes.label
        rw [UInt16.toNat_ofNat_of_lt' hlt]
        exact (hl text address).mp ha
      · cases h
  | none =>
      simp only [ha] at h
      obtain ⟨value, hvalue, hlo, hhi, hw⟩ := numeral_eq_ok_iff.mp h
      refine .number (fun address hd => ?_) (Decimal.toInt?_eq_some_iff.mpr hvalue) hlo hhi hw
      rw [(hl text address).mpr hd] at ha
      cases ha

theorem of_parse_eq_ok {head : List Char} {operand : Option (List Char)} {item : Item}
    (h : Item.parse head operand = .ok item) :
    (head = dataDirective ∧ ∃ value, operand = some value ∧ item = .word value) ∨
      ∃ op agrees, Opcode.ofMnemonic? head = some op ∧ item = .instruction op operand agrees := by
  unfold Item.parse at h
  split at h
  · rename_i hd
    cases operand with
    | some value => exact .inl ⟨hd, value, rfl, (Except.ok.inj h).symm⟩
    | none => cases h
  · cases ho : Opcode.ofMnemonic? head with
    | none => simp [ho] at h
    | some op =>
        simp only [ho] at h
        split at h
        · rename_i agrees
          exact .inr ⟨op, agrees, rfl, (Except.ok.inj h).symm⟩
        · split at h <;> cases h

/-- Without words there is no item, and one or two words are an item if they parse as one. -/
theorem of_ofWords_eq_ok {words : List (List Char)} {item? : Option Item}
    (h : Item.ofWords words = .ok item?) :
    (words = [] ∧ item? = none) ∨ ∃ head operand item, words = head :: operand.toList ∧
      Item.parse head operand = .ok item ∧ item? = some item := by
  have hmap : ∀ {x : Except Cause Item}, x.map some = .ok item? →
      ∃ item, x = .ok item ∧ item? = some item := by
    intro x hx
    cases x with
    | ok item => exact ⟨item, rfl, (Except.ok.inj hx).symm⟩
    | error cause => cases hx
  match words with
  | [] => exact .inl ⟨rfl, (Except.ok.inj h).symm⟩
  | [head] =>
      obtain ⟨item, hp, hi⟩ := hmap h
      exact .inr ⟨head, none, item, rfl, hp, hi⟩
  | [head, operand] =>
      obtain ⟨item, hp, hi⟩ := hmap h
      exact .inr ⟨head, some operand, item, rfl, hp, hi⟩
  | _ :: _ :: _ :: _ => cases h

theorem takesOperand_iff (op : Opcode) : op.takesOperand = true ↔ op.operandKind ≠ .absent := by
  simp [Opcode.takesOperand]

/-- An item emits as many words as the first pass counts for it. -/
theorem length_of_emit {item : Item} {words : List Word} (h : item.emit labels = .ok words) :
    words.length = item.size := by
  cases item with
  | word value =>
      obtain ⟨word, -, h⟩ := Except.bind_eq_ok_iff.mp h
      cases h
      rfl
  | instruction op operand agrees =>
      cases operand with
      | none =>
          cases h
          simp [Item.size, Opcode.size, ← agrees]
      | some text =>
          obtain ⟨word, -, h⟩ := Except.bind_eq_ok_iff.mp h
          cases h
          simp [Item.size, Opcode.size, ← agrees]

/-- What an item emits is what the words that it was read from stand for. -/
theorem emits_of_emit
    (hl : ∀ label address, labels[label]? = some address ↔ labelled label address)
    {line head : List Char} {operand : Option (List Char)} {item : Item} {words : List Word}
    (hw : wordsOf line = head :: operand.toList) (hp : Item.parse head operand = .ok item)
    (he : item.emit labels = .ok words) : Emits labelled line words := by
  rcases of_parse_eq_ok hp with ⟨rfl, value, rfl, rfl⟩ | ⟨op, agrees, ho, rfl⟩
  · obtain ⟨word, hv, he⟩ := Except.bind_eq_ok_iff.mp he
    cases he
    exact .data hw (denotes_of_operandWord hl hv)
  · cases operand with
    | none =>
        cases he
        have hk : op.operandKind = .absent :=
          not_not.mp ((takesOperand_iff op).not.mp (by simp [← agrees]))
        exact .opcode hw ho hk
    | some text =>
        obtain ⟨word, hv, he⟩ := Except.bind_eq_ok_iff.mp he
        cases he
        have hk : op.operandKind ≠ .absent := (takesOperand_iff op).mp agrees.symm
        exact .operand hw ho hk (denotes_of_operandWord hl hv)

end Lines

/-! ### The whole source -/

/-- The item on the line emits the words; a line without an item emits none. -/
def Yields (labels : Labels) (line : List Char) (words : List Word) : Prop :=
  match itemOf line with
  | some item => item.emit labels = .ok words
  | none => words = []

section Source

variable {labels : Labels}

/-- The second pass succeeds when every item does, in order. -/
theorem emitAll_eq_ok_iff {items : List (Nat × Item)} {words : List (List Word)} :
    emitAll labels items = .ok words ↔
      List.Forall₂ (fun item words => item.emit labels = .ok words) (items.map Prod.snd) words := by
  unfold emitAll
  induction items generalizing words with
  | nil => simp [pure, Except.pure, eq_comm]
  | cons entry items ih =>
      obtain ⟨number, item⟩ := entry
      rw [List.mapM_cons, Except.bind_eq_ok_iff, List.map_cons, List.forall₂_cons_left_iff]
      simp only [Except.mapError_eq_ok_iff, Except.bind_eq_ok_iff, ih, pure, Except.pure,
        Except.ok.injEq]
      constructor
      · rintro ⟨first, hf, rest, hr, rfl⟩
        exact ⟨first, rest, hf, hr, rfl⟩
      · rintro ⟨first, rest, hf, hr, rfl⟩
        exact ⟨first, hf, rest, hr, rfl⟩

/-- The words of the items, dealt out to the lines that the items stand on. -/
theorem exists_yields {lines : List (List Char)} {words : List (List Word)}
    (h : List.Forall₂ (fun item words => item.emit labels = .ok words)
      (lines.filterMap itemOf) words) :
    ∃ emitted, emitted.flatten = words.flatten ∧ List.Forall₂ (Yields labels) lines emitted := by
  induction lines generalizing words with
  | nil =>
      cases h
      exact ⟨[], rfl, .nil⟩
  | cons line lines ih =>
      cases hi : itemOf line with
      | none =>
          rw [List.filterMap_cons_none hi] at h
          obtain ⟨emitted, he, hr⟩ := ih h
          exact ⟨[] :: emitted, he, .cons (by rw [Yields, hi]) hr⟩
      | some item =>
          rw [List.filterMap_cons_some hi] at h
          cases h with
          | @cons _ first _ rest hw h =>
              obtain ⟨emitted, he, hr⟩ := ih h
              have hf : (first :: emitted).flatten = (first :: rest).flatten := by
                rw [List.flatten_cons, List.flatten_cons, he]
              exact ⟨first :: emitted, hf, .cons (by rwa [Yields, hi]) hr⟩

/-- The lines have emitted as many words as the first pass has counted for them. -/
theorem length_flatten_of_yields {lines : List (List Char)} {emitted : List (List Word)}
    (h : List.Forall₂ (Yields labels) lines emitted) : emitted.flatten.length = extent lines := by
  induction h with
  | nil => rfl
  | @cons line words lines emitted hw _ ih =>
      have hfirst : words.length = extent [line] := by
        unfold Yields at hw
        cases hi : itemOf line with
        | none =>
            rw [hi] at hw
            simp [extent, hi, show words = [] from hw]
        | some item =>
            rw [hi] at hw
            simp [extent, hi, length_of_emit hw]
      rw [List.flatten_cons, List.length_append, ih, hfirst, ← extent_append, List.singleton_append]

/-- The address that the first pass has given to a label is the place that it has in the image. -/
theorem labelled_iff_defines {lines : List (List Char)} {emitted : List (List Word)}
    (h : List.Forall₂ (Yields labels) lines emitted) (label : List Char) (address : Nat) :
    Labelled lines emitted label address ↔ Defines lines label address := by
  unfold Labelled Defines
  simp only [length_flatten_of_yields (List.forall₂_take _ h)]

/-- A line with well-formed words yields what these words stand for. -/
theorem emits_of_yields {labelled : List Char → Nat → Prop}
    (hl : ∀ label address, labels[label]? = some address ↔ labelled label address)
    {line : List Char} {words : List Word} (hp : Item.ofWords (wordsOf line) = .ok (itemOf line))
    (h : Yields labels line words) : Emits labelled line words := by
  unfold Yields at h
  rcases of_ofWords_eq_ok hp with ⟨hw, hi⟩ | ⟨head, operand, item, hw, hparse, hi⟩
  · rw [hi] at h
    rw [show words = [] from h]
    exact .nothing hw
  · rw [hi] at h
    exact emits_of_emit hl hw hparse h

end Source

/-- How the two passes over a source fit together, for what the second has emitted line by line.
Every line emits what its words stand for, and the image is what the lines emit, in order. The
labels are those that the lines define, and the image holds what a line and those after it emit
from the address of the line's label on. -/
structure Agreement (source : List Char) (image : List Word) (layout : Layout)
    (emitted : List (List Word)) : Prop where
  layout_eq : Layout.ofSource source = .ok layout
  size_eq : layout.size = image.length
  image_eq : image = emitted.flatten
  emits : List.Forall₂ (Emits (Labelled (lines source) emitted)) (lines source) emitted
  labels : ∀ label address, layout.labels[label]? = some address ↔
    Labelled (lines source) emitted label address
  places : ∀ k line label, (lines source)[k]? = some line → labelOf line = some label →
    ∃ address, layout.labels[label]? = some address ∧
      image.take address = (emitted.take k).flatten ∧
      image.drop address = (emitted.drop k).flatten

theorem passes_agree {source : List Char} {image : List Word} (h : assemble source = .ok image) :
    ∃ layout emitted, Agreement source image layout emitted := by
  obtain ⟨layout, ho, h⟩ := Except.bind_eq_ok_iff.mp h
  obtain ⟨words, he, h⟩ := Except.bind_eq_ok_iff.mp h
  have himage : words.flatten = image := Except.ok.inj h
  have hd := Layout.describes_ofSource ho
  -- The second pass runs over items; their words go back to the lines that they stand on.
  have hitems := emitAll_eq_ok_iff.mp he
  rw [hd.items] at hitems
  obtain ⟨emitted, hflat, hy⟩ := exists_yields hitems
  rw [himage] at hflat
  have hl : ∀ label address, layout.labels[label]? = some address ↔
      Labelled (lines source) emitted label address := fun label address =>
    (hd.labels label address).trans (labelled_iff_defines hy label address).symm
  have hsize : layout.size = image.length := by
    rw [hd.size, ← hflat, length_flatten_of_yields hy]
  refine ⟨layout, emitted, ho, hsize, hflat.symm, ?_, hl, ?_⟩
  · have hboth := (List.forall₂_and_left _ _).mpr ⟨hd.parsed, hy⟩
    exact hboth.imp fun line words hw => emits_of_yields hl hw.1 hw.2
  · intro k line label hk hlabel
    have hsplit : image = (emitted.take k).flatten ++ (emitted.drop k).flatten := by
      rw [← List.flatten_append, List.take_append_drop, hflat]
    refine ⟨_, (hl label _).mpr ⟨k, line, hk, hlabel, rfl⟩, ?_, ?_⟩
    · rw [hsplit, List.take_left]
    · rw [hsplit, List.drop_left]

/-- A label that is spelled like a number, used before it is defined. -/
theorem passes_agree_forward_reference :
    assemble "jmp 7 # ahead\n7:\n.word -1".toList = .ok [8, 2, 65535] ∧
      ∃ layout emitted, Agreement "jmp 7 # ahead\n7:\n.word -1".toList [8, 2, 65535] layout
        emitted := by
  have h : assemble "jmp 7 # ahead\n7:\n.word -1".toList = .ok [8, 2, 65535] := by cbv
  exact ⟨h, passes_agree h⟩

end Assembly

end CoolMachine
