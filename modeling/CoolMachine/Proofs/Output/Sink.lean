import CoolMachine.Proofs.Simulation
import CoolMachine.Sink

/-! Writes to a stream, one after another. They are a single write of all that they write, also
when the room runs out in between. -/

namespace CoolMachine.Sink

variable {α : Type}

theorem write_nil (s : Sink α) : write [] s = .ok () s := by
  rcases s with ⟨room, items⟩
  cases room with
  | none => rfl
  | some room => simp [write]

/-- Writing two texts is writing the first and then, if it fits, the second. -/
theorem write_append (first second : List α) :
    write (first ++ second) = write first >>= fun _ => write second := by
  funext s
  simp only [bind, EStateM.bind]
  cases hr : s.room with
  | none =>
      rw [write_unbounded hr, write_unbounded hr]
      simp only [write_unbounded, List.reverse_append, List.append_assoc]
  | some room =>
      by_cases h₁ : first.length ≤ room
      · rw [write_of_le hr h₁]
        simp only
        by_cases h₂ : second.length ≤ room - first.length
        · rw [write_of_le hr (by simp; omega), write_of_le rfl h₂]
          simp [Nat.sub_sub]
        · rw [write_of_lt hr (by simp; omega), write_of_lt rfl (Nat.not_le.mp h₂)]
          simp [List.take_append, List.take_of_length_le h₁]
      · have h₁ := Nat.not_le.mp h₁
        rw [write_of_lt hr h₁, write_of_lt hr (by simp; omega)]
        simp [List.take_append_of_le_length (Nat.le_of_lt h₁)]

theorem write_fresh (capacity : Nat) (items : List α) : write items { room := some capacity } =
    if items.length ≤ capacity then .ok () ⟨some (capacity - items.length), items.reverse⟩
    else .error .full ⟨some 0, (items.take capacity).reverse⟩ := by
  split
  · rename_i h
    rw [write_of_le rfl h, List.append_nil]
  · rename_i h
    rw [write_of_lt rfl (Nat.not_le.mp h), List.append_nil]

/-- A fresh stream keeps as much of what is written as it has room for. -/
theorem contents_write_fresh (capacity : Nat) (items : List α) :
    (write items { room := some capacity }).state.contents = items.take capacity := by
  rw [write_fresh]
  split
  · rename_i h
    rw [List.take_of_length_le h]
    exact List.reverse_reverse items
  · exact List.reverse_reverse (items.take capacity)

/-- What is written behind a text that fits is written together with it. -/
theorem write_behind {capacity : Nat} {before : List α} (h : before.length ≤ capacity)
    (items : List α) : write items ⟨some (capacity - before.length), before.reverse⟩ =
      write (before ++ items) { room := some capacity } := by
  rw [write_append]
  simp only [bind, EStateM.bind, write_fresh, if_pos h]

/-- A full stream stays as it is. -/
theorem state_write_of_full (items stored : List α) :
    (write items ⟨some 0, stored⟩).state = ⟨some 0, stored⟩ := by
  cases items with
  | nil => rw [write_nil]; rfl
  | cons item items => rw [write_of_lt rfl (by simp)]; rfl

theorem length_le_of_write {s s' : Sink α} {room : Nat} {items : List α} {u : Unit}
    (hs : s.room = some room) (h : write items s = .ok u s') :
    items.length ≤ room ∧ s'.room = some (room - items.length) := by
  by_cases hle : items.length ≤ room
  · rw [write_of_le hs hle] at h
    cases h
    exact ⟨hle, rfl⟩
  · rw [write_of_lt hs (Nat.not_le.mp hle)] at h
    cases h

theorem lt_length_of_write {s s' : Sink α} {room : Nat} {items : List α} {e : OutputError}
    (hs : s.room = some room) (h : write items s = .error e s') :
    room < items.length ∧ e = .full := by
  by_cases hle : items.length ≤ room
  · rw [write_of_le hs hle] at h
    cases h
  · have hlt := Nat.not_le.mp hle
    rw [write_of_lt hs hlt] at h
    cases h
    exact ⟨hlt, rfl⟩

end CoolMachine.Sink
