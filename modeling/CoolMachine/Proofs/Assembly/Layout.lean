import Mathlib
import CoolMachine.Assembly.Program
import CoolMachine.Proofs.Outcome

/-! The first pass over a source. The layout that it ends with describes the lines: their items in
order, the number of words that these take, and for every label the number of words before the line
that defines it. -/

namespace CoolMachine.Assembly

/-! ### Lines -/

/-- The label that the line defines. -/
def labelOf (line : List Char) : Option (List Char) := (splitLabel (statement line)).1

/-- The words on the line, behind its label. -/
def wordsOf (line : List Char) : List (List Char) := Text.words (splitLabel (statement line)).2

/-- The item on the line, if it has a well-formed one. -/
def itemOf (line : List Char) : Option Item := (Item.ofWords (wordsOf line)).toOption.join

/-- The number of words that the items on the lines take. -/
def extent (lines : List (List Char)) : Nat := ((lines.filterMap itemOf).map Item.size).sum

/-- One of the lines defines the label, with the address of what comes next. -/
def Defines (lines : List (List Char)) (label : List Char) (address : Nat) : Prop :=
  ∃ k line, lines[k]? = some line ∧ labelOf line = some label ∧ address = extent (lines.take k)

theorem not_defines_nil (label : List Char) (address : Nat) : ¬ Defines [] label address := by
  rintro ⟨k, line, hk, -⟩
  simp at hk

theorem extent_append (before after : List (List Char)) :
    extent (before ++ after) = extent before + extent after := by
  simp only [extent, List.filterMap_append, List.map_append, List.sum_append]

/-- What is said of a line and the lines above it is said of the last line or of one before. -/
theorem exists_line_append_singleton {P : Nat → List (List Char) → List Char → Prop}
    {lines : List (List Char)} {line : List Char} :
    (∃ k other, (lines ++ [line])[k]? = some other ∧ P k ((lines ++ [line]).take k) other) ↔
      (∃ k other, lines[k]? = some other ∧ P k (lines.take k) other) ∨
        P lines.length lines line := by
  constructor
  · rintro ⟨k, other, hk, hP⟩
    rcases Nat.lt_or_ge k lines.length with h | h
    · rw [List.getElem?_append_left h] at hk
      rw [List.take_append_of_le_length (Nat.le_of_lt h)] at hP
      exact .inl ⟨k, other, hk, hP⟩
    · rw [List.getElem?_append_right h, List.getElem?_singleton] at hk
      split at hk
      · cases hk
        obtain rfl : k = lines.length := by omega
        rw [List.take_left] at hP
        exact .inr hP
      · cases hk
  · rintro (⟨k, other, hk, hP⟩ | hP)
    · obtain ⟨h, -⟩ := List.getElem?_eq_some_iff.mp hk
      refine ⟨k, other, by rwa [List.getElem?_append_left h], ?_⟩
      rwa [List.take_append_of_le_length (Nat.le_of_lt h)]
    · exact ⟨lines.length, line, List.getElem?_concat_length, by rwa [List.take_left]⟩

/-- A line at the end adds its own label and leaves the addresses before it as they are. -/
theorem defines_append_singleton {lines : List (List Char)} {line label : List Char}
    {address : Nat} : Defines (lines ++ [line]) label address ↔
      Defines lines label address ∨ labelOf line = some label ∧ address = extent lines :=
  exists_line_append_singleton
    (P := fun _ above line => labelOf line = some label ∧ address = extent above)

/-! ### Layouts -/

namespace Layout

/-- The layout is that of the lines, all of which are well formed. -/
structure Describes (layout : Layout) (lines : List (List Char)) : Prop where
  parsed : ∀ line ∈ lines, Item.ofWords (wordsOf line) = .ok (itemOf line)
  items : layout.items.map Prod.snd = lines.filterMap itemOf
  size : layout.size = extent lines
  labels : ∀ label address, layout.labels[label]? = some address ↔ Defines lines label address

theorem describes_nil : Describes {} [] := by
  refine ⟨by simp, rfl, rfl, fun label address => ?_⟩
  rw [Std.TreeMap.getElem?_emptyc]
  simp only [reduceCtorEq, not_defines_nil]

/-- The layout once the line has defined its label. -/
def defineLine (layout : Layout) (line : List Char) : Except Cause Layout :=
  match labelOf line with
  | some label => layout.define label
  | none => .ok layout

/-- The layout once an item has been placed, if there is one. -/
def placeLine (layout : Layout) (number : Nat) : Option Item → Layout
  | some item => layout.place number item
  | none => layout

theorem addLine_eq (layout : Layout) (number : Nat) (line : List Char) :
    layout.addLine number line = do
      let layout ← layout.defineLine line
      let item ← Item.ofWords (wordsOf line)
      return layout.placeLine number item := by
  rw [addLine, defineLine, labelOf, wordsOf]
  generalize splitLabel (statement line) = split
  obtain ⟨label?, rest⟩ := split
  have hplace : ∀ layout : Layout, (do
      match ← Item.ofWords (Text.words rest) with
      | some item => return layout.place number item
      | none => return layout : Except Cause Layout) = do
      let item ← Item.ofWords (Text.words rest)
      return layout.placeLine number item := fun layout =>
    bind_congr fun item => by cases item <;> rfl
  cases label? with
  | some label => exact bind_congr hplace
  | none => exact hplace layout

/-- A label is defined with the size so far, and nothing else changes. -/
theorem labels_define {layout layout' : Layout} {label : List Char}
    (h : layout.define label = .ok layout') :
    layout.labels[label]? = none ∧
      layout' = { layout with labels := layout.labels.insert label layout.size } := by
  unfold define at h
  split at h
  · cases h
  · split at h
    · cases h
    · rename_i hc
      cases h
      rw [Std.TreeMap.contains_eq_isSome_getElem?, Bool.not_eq_true, Option.isSome_eq_false_iff,
        Option.isNone_iff_eq_none] at hc
      exact ⟨hc, rfl⟩

theorem labels_defineLine {layout layout' : Layout} {line : List Char}
    {lines : List (List Char)} (h : layout.Describes lines)
    (hd : layout.defineLine line = .ok layout') :
    layout'.newestFirst = layout.newestFirst ∧ layout'.size = layout.size ∧
      ∀ label address, layout'.labels[label]? = some address ↔
        Defines (lines ++ [line]) label address := by
  unfold defineLine at hd
  cases hl : labelOf line with
  | none =>
      rw [hl] at hd
      cases hd
      refine ⟨rfl, rfl, fun label address => ?_⟩
      simp only [defines_append_singleton, hl, reduceCtorEq, false_and, or_false, h.labels]
  | some label =>
      rw [hl] at hd
      obtain ⟨hn, rfl⟩ := labels_define hd
      refine ⟨rfl, rfl, fun other address => ?_⟩
      have hnew : ∀ address, ¬ Defines lines label address := by
        intro address hd
        rw [(h.labels label address).mpr hd] at hn
        cases hn
      rw [defines_append_singleton, hl, Option.some.injEq, Std.TreeMap.getElem?_insert]
      by_cases ho : label = other
      · subst ho
        simp [hnew, h.size, eq_comm]
      · have hc : compare label other ≠ .eq := fun h => ho (Std.LawfulEqOrd.eq_of_compare h)
        simp [ho, hc, h.labels]

theorem items_placeLine (layout : Layout) (number : Nat) (item : Option Item) :
    (layout.placeLine number item).items =
      layout.items ++ (item.map fun item => (number, item)).toList := by
  cases item <;> simp [placeLine, place, items]

theorem size_placeLine (layout : Layout) (number : Nat) (item : Option Item) :
    (layout.placeLine number item).size = layout.size + (item.toList.map Item.size).sum := by
  cases item <;> simp [placeLine, place]

theorem labels_placeLine (layout : Layout) (number : Nat) (item : Option Item) :
    (layout.placeLine number item).labels = layout.labels := by
  cases item <;> rfl

/-- A line is accepted when its label is and its words make up an item, or none. -/
theorem addLine_eq_ok {layout layout' : Layout} {number : Nat} {line : List Char}
    (h : layout.addLine number line = .ok layout') :
    ∃ middle, layout.defineLine line = .ok middle ∧
      Item.ofWords (wordsOf line) = .ok (itemOf line) ∧
      layout' = middle.placeLine number (itemOf line) := by
  rw [addLine_eq] at h
  obtain ⟨middle, hd, h⟩ := Except.bind_eq_ok_iff.mp h
  obtain ⟨item, hi, h⟩ := Except.bind_eq_ok_iff.mp h
  have hitem : itemOf line = item := by
    rw [itemOf, hi]
    rfl
  rw [hitem]
  exact ⟨middle, hd, hi, (Except.ok.inj h).symm⟩

/-- A line that is accepted is described as well. -/
theorem Describes.addLine {layout layout' : Layout} {lines : List (List Char)} {number : Nat}
    {line : List Char} (h : layout.Describes lines)
    (ha : layout.addLine number line = .ok layout') : layout'.Describes (lines ++ [line]) := by
  obtain ⟨middle, hd, hi, rfl⟩ := addLine_eq_ok ha
  obtain ⟨hfirst, hsize, hlabels⟩ := labels_defineLine h hd
  have hlast : [line].filterMap itemOf = (itemOf line).toList := by
    cases hl : itemOf line <;> simp [hl]
  refine ⟨fun other ho => ?_, ?_, ?_, ?_⟩
  · rcases List.mem_append.mp ho with ho | ho
    · exact h.parsed other ho
    · rw [List.mem_singleton.mp ho, hi]
  · have hm : middle.items = layout.items := congrArg List.reverse hfirst
    rw [items_placeLine, hm, List.map_append, h.items, List.filterMap_append, hlast]
    cases itemOf line <;> rfl
  · have hl : extent [line] = ((itemOf line).toList.map Item.size).sum := by rw [extent, hlast]
    rw [size_placeLine, hsize, h.size, extent_append, hl]
  · rw [labels_placeLine]
    exact hlabels

theorem Describes.extend {layout layout' : Layout} {lines rest : List (List Char)} {number : Nat}
    (h : layout.Describes lines) (he : layout.extend number rest = .ok layout') :
    layout'.Describes (lines ++ rest) := by
  induction rest generalizing layout lines number with
  | nil =>
      cases he
      simpa only [List.append_nil] using h
  | cons line rest ih =>
      rw [Layout.extend] at he
      cases ha : layout.addLine number line with
      | error cause => simp [ha] at he
      | ok middle =>
          rw [ha] at he
          simpa only [List.append_assoc, List.singleton_append] using ih (h.addLine ha) he

/-- The layout of a source describes its lines. -/
theorem describes_ofSource {source : List Char} {layout : Layout}
    (h : ofSource source = .ok layout) : layout.Describes (lines source) :=
  describes_nil.extend h

end Layout

end CoolMachine.Assembly
