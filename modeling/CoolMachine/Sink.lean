/-! Output streams. A sink stores what is written to it until its room runs out; a write that
does not fit stores the part that fits and fails. -/

namespace CoolMachine

/-- Why a write failed. -/
structure OutputError where
  reason : String
  deriving DecidableEq

def OutputError.full : OutputError := ⟨"sink full"⟩

/-- A sink keeps its newest item first; `room` counts what it can still take, if bounded. -/
structure Sink (α : Type) where
  room : Option Nat := none
  newestFirst : List α := []

namespace Sink

variable {α : Type}

/-- Everything stored, oldest first. -/
def contents (s : Sink α) : List α := s.newestFirst.reverse

def write (items : List α) : EStateM OutputError (Sink α) Unit := fun s =>
  match s.room with
  | none => .ok () ⟨none, items.reverseAux s.newestFirst⟩
  | some room =>
    let stored := ⟨some (room - items.length), (items.take room).reverseAux s.newestFirst⟩
    if items.length ≤ room then .ok () stored else .error .full stored

theorem write_unbounded {s : Sink α} (h : s.room = none) (items : List α) :
    write items s = .ok () ⟨none, items.reverse ++ s.newestFirst⟩ := by
  simp only [write, h, List.reverseAux_eq]

theorem write_of_le {s : Sink α} {room : Nat} (h : s.room = some room) {items : List α}
    (hi : items.length ≤ room) :
    write items s = .ok () ⟨some (room - items.length), items.reverse ++ s.newestFirst⟩ := by
  simp only [write, h, if_pos hi, List.take_of_length_le hi, List.reverseAux_eq]

theorem write_of_lt {s : Sink α} {room : Nat} (h : s.room = some room) {items : List α}
    (hi : room < items.length) :
    write items s = .error .full ⟨some 0, (items.take room).reverse ++ s.newestFirst⟩ := by
  have h₀ : room - items.length = 0 := Nat.sub_eq_zero_of_le (Nat.le_of_lt hi)
  simp only [write, h, if_neg (Nat.not_le.mpr hi), List.reverseAux_eq, h₀]

end Sink

end CoolMachine
