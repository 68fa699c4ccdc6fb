import CoolMachine.Proofs.Assembly.Emission

/-! Where the items of a source stand in its image. An item stands at the number of words that the
items before it take, which the first pass counts, and there the image has what the second pass
emits for it; a label denotes the place of the next item. -/

namespace CoolMachine.Assembly

/-- The lines that an item stands on, in order. -/
def itemLines (source : List Char) : List (List Char) :=
  (lines source).filter fun line => (itemOf line).isSome

/-- The address of the item with the given index; behind the last one that is the end. -/
def itemAddress (source : List Char) (i : Nat) : Nat := extent ((itemLines source).take i)

/-- A data word stands on the line. -/
def IsData (line : List Char) : Prop := (wordsOf line).head? = some dataDirective

/-- The item on the line is the one with index `i`, and emits these words: the image has them at the
address of the item, and the next item stands right behind them. -/
structure Places (source : List Char) (image : List Word) (i : Nat) (line : List Char)
    (words : List Word) : Prop where
  line_eq : (itemLines source)[i]? = some line
  emits : Emits (Defines (lines source)) line words
  ne_nil : words ≠ []
  image_eq : words <+: image.drop (itemAddress source i)
  next_eq : itemAddress source (i + 1) = itemAddress source i + words.length

/-- All items are placed, one behind the other, up to the end of the image. -/
structure Placement (source : List Char) (image : List Word) : Prop where
  places : ∀ i line, (itemLines source)[i]? = some line → ∃ words, Places source image i line words
  end_eq : itemAddress source (itemLines source).length = image.length
  labels : ∀ label address, Defines (lines source) label address →
    ∃ i ≤ (itemLines source).length, address = itemAddress source i

/-! ### Lines with items -/

theorem filterMap_itemOf_isSome (lines : List (List Char)) :
    (lines.filter fun line => (itemOf line).isSome).filterMap itemOf = lines.filterMap itemOf := by
  rw [List.filterMap_filter]
  apply List.filterMap_congr
  intro line _
  cases h : itemOf line with
  | none => rfl
  | some item => rfl

theorem extent_filter (lines : List (List Char)) :
    extent (lines.filter fun line => (itemOf line).isSome) = extent lines := by
  rw [extent, extent, filterMap_itemOf_isSome]

/-- A label that is defined on some line denotes the address of the next item. -/
theorem exists_itemAddress {source label : List Char} {address : Nat}
    (h : Defines (lines source) label address) :
    ∃ i ≤ (itemLines source).length, address = itemAddress source i := by
  obtain ⟨k, line, -, -, rfl⟩ := h
  let before := ((lines source).take k).filter fun line => (itemOf line).isSome
  let after := ((lines source).drop k).filter fun line => (itemOf line).isSome
  have hsplit : itemLines source = before ++ after := by
    rw [← List.filter_append, List.take_append_drop]
    rfl
  refine ⟨before.length, ?_, ?_⟩
  · rw [hsplit, List.length_append]
    exact Nat.le_add_right _ _
  · rw [itemAddress, hsplit, List.take_left, extent_filter]

theorem exists_defines {source label target : List Char} (ht : target ∈ lines source)
    (hl : labelOf target = some label) : ∃ address, Defines (lines source) label address := by
  obtain ⟨k, hk⟩ := List.mem_iff_getElem?.mp ht
  exact ⟨_, k, target, hk, hl, rfl⟩

theorem ne_nil_of_itemOf {labels : Labels} {line : List Char} {item : Item} {words : List Word}
    (hi : itemOf line = some item) (h : Yields labels line words) : words ≠ [] := by
  rw [Yields, hi] at h
  have hsize : 0 < item.size := by
    cases item with
    | instruction op operand agrees =>
        rw [Item.size, Opcode.size]
        split <;> decide
    | word value => exact Nat.one_pos
  exact List.ne_nil_of_length_pos (length_of_emit h ▸ hsize)

/-! ### The image -/

section Image

variable {source : List Char} {image : List Word}

theorem Places.mem_lines {i : Nat} {line : List Char} {words : List Word}
    (h : Places source image i line words) : line ∈ lines source :=
  (List.mem_filter.mp (List.mem_of_getElem? h.line_eq)).1

theorem Placement.itemAddress_le (h : Placement source image) (i : Nat) :
    itemAddress source i ≤ image.length := by
  have hsplit : extent (itemLines source) =
      itemAddress source i + extent ((itemLines source).drop i) := by
    rw [itemAddress, ← extent_append, List.take_append_drop]
  rw [← h.end_eq, itemAddress, itemAddress, List.take_length, ← itemAddress, hsplit]
  exact Nat.le_add_right _ _

/-- The two passes over an accepted source agree on where its items are. -/
theorem placement_of_assemble (h : assemble source = .ok image) : Placement source image := by
  obtain ⟨layout, ho, h⟩ := Except.bind_eq_ok_iff.mp h
  obtain ⟨words, he, h⟩ := Except.bind_eq_ok_iff.mp h
  have himage : words.flatten = image := Except.ok.inj h
  have hd := Layout.describes_ofSource ho
  have hitems := emitAll_eq_ok_iff.mp he
  rw [hd.items, ← filterMap_itemOf_isSome] at hitems
  obtain ⟨emitted, hflat, hy⟩ := exists_yields hitems
  change List.Forall₂ (Yields layout.labels) (itemLines source) emitted at hy
  have haddress : ∀ i, itemAddress source i = (emitted.take i).flatten.length := fun i =>
    (length_flatten_of_yields (List.forall₂_take i hy)).symm
  refine ⟨fun i line hi => ?_, ?_, fun label address hl => exists_itemAddress hl⟩
  · obtain ⟨hlt, hline⟩ := List.getElem?_eq_some_iff.mp hi
    have hlt' : i < emitted.length := hy.length_eq ▸ hlt
    have hyi : Yields layout.labels line emitted[i] := hline ▸ hy.get hlt hlt'
    have hmem : line ∈ lines source ∧ (itemOf line).isSome :=
      List.mem_filter.mp (List.mem_of_getElem? hi)
    obtain ⟨item, hitem⟩ := Option.isSome_iff_exists.mp hmem.2
    have hsplit : image =
        (emitted.take i).flatten ++ (emitted[i] ++ (emitted.drop (i + 1)).flatten) := by
      rw [← List.flatten_cons, ← List.drop_eq_getElem_cons hlt', ← List.flatten_append,
        List.take_append_drop, hflat, himage]
    refine ⟨emitted[i], hi, emits_of_yields hd.labels (hd.parsed line hmem.1) hyi,
      ne_nil_of_itemOf hitem hyi, ?_, ?_⟩
    · rw [haddress, hsplit, List.drop_left]
      exact List.prefix_append _ _
    · rw [haddress, haddress, List.take_succ_eq_append_getElem hlt', List.flatten_append,
        List.length_append, List.flatten_singleton]
  · rw [haddress, hy.length_eq, List.take_length, hflat, himage]

end Image

end CoolMachine.Assembly
