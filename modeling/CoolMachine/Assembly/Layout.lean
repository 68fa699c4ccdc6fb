import CoolMachine.Assembly.Item
import Std.Data.TreeMap.Basic

/-! Layouts: the items of a program in order, and the address of every label. A label denotes the
number of words that the items before it emit, so labels are known before any word is. -/

namespace CoolMachine.Assembly

/-- The addresses of the labels defined so far. -/
abbrev Labels := Std.TreeMap (List Char) Nat

/-- The items laid out so far, newest first, each with its line; `size` words in all. -/
structure Layout where
  labels : Labels := ∅
  size : Nat := 0
  newestFirst : List (Nat × Item) := []

namespace Layout

/-- The items in source order. -/
def items (layout : Layout) : List (Nat × Item) := layout.newestFirst.reverse

/-- Labels are non-empty, free of blanks and defined once. -/
def define (layout : Layout) (label : List Char) : Except Cause Layout :=
  if label.isEmpty || label.any Text.isBlank then .error (.invalidLabel label)
  else if layout.labels.contains label then .error (.duplicateLabel label)
  else .ok { layout with labels := layout.labels.insert label layout.size }

def place (layout : Layout) (line : Nat) (item : Item) : Layout :=
  { layout with
    size := layout.size + item.size
    newestFirst := (line, item) :: layout.newestFirst }

/-- A line first defines its label, then places its item. -/
def addLine (layout : Layout) (number : Nat) (line : List Char) : Except Cause Layout := do
  let (label, rest) := splitLabel (statement line)
  let layout ←
    match label with
    | some label => layout.define label
    | none => .ok layout
  match ← Item.ofWords (Text.words rest) with
  | some item => return layout.place number item
  | none => return layout

/-- Adds consecutive lines, the first of which has the given number. -/
def extend (layout : Layout) (number : Nat) : List (List Char) → Except Error Layout
  | [] => .ok layout
  | line :: rest =>
    match layout.addLine number line with
    | .ok layout => extend layout (number + 1) rest
    | .error cause => .error ⟨number, cause⟩

def ofSource (source : List Char) : Except Error Layout := extend {} 1 (lines source)

end Layout

end CoolMachine.Assembly
