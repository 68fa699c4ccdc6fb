import CoolMachine.Machine.Run

/-! What the elementary actions do to a machine, one equation each. -/

namespace CoolMachine

/-- Reading the state leaves it. -/
theorem get_apply {ε σ : Type} (s : σ) : (get : EStateM ε σ σ) s = .ok s s := rfl

namespace Memory

def countRead (m : Memory) : Memory := { m with traffic := m.traffic.countRead }

def countWrite (m : Memory) : Memory := { m with traffic := m.traffic.countWrite }

/-- Puts a word into a cell. -/
def store (m : Memory) (cell value : Word) : Memory :=
  { m with cells := m.cells.set cell.toNat value }

@[simp] theorem peek_countRead (m : Memory) (cell : Word) : m.countRead.peek cell = m.peek cell :=
  rfl

@[simp] theorem peek_countWrite (m : Memory) (cell : Word) :
    m.countWrite.peek cell = m.peek cell := rfl

theorem peek_store (m : Memory) (cell other value : Word) :
    (m.store cell value).peek other = if cell = other then value else m.peek other := by
  simp only [store, peek, Bank.get_set _ _ (toNat_lt cell) (toNat_lt other), UInt16.toNat_inj]

theorem mode_load {m m' : Memory} {image : List Word} (h : m.load image = .ok m') :
    m'.mode = m.mode := by
  unfold load at h
  split at h
  · cases h
    rfl
  · cases h

/-- Loading an image is no traffic. -/
theorem traffic_load {m m' : Memory} {image : List Word} (h : m.load image = .ok m') :
    m'.traffic = m.traffic := by
  unfold load at h
  split at h
  · cases h
    rfl
  · cases h

end Memory

theorem Machine.load_eq_ok {m m' : Machine} {image : List Word} (h : m.load image = .ok m') :
    ∃ memory, m.memory.load image = .ok memory ∧ m' = { m with memory } := by
  unfold Machine.load at h
  cases hl : m.memory.load image with
  | ok memory =>
      simp only [hl, Except.map, Except.ok.injEq] at h
      exact ⟨memory, rfl, h.symm⟩
  | error e => simp [hl, Except.map] at h

theorem Machine.length_le_of_load {m m' : Machine} {image : List Word}
    (h : m.load image = .ok m') : image.length ≤ memoryWords := by
  obtain ⟨memory, hload, -⟩ := Machine.load_eq_ok h
  unfold Memory.load at hload
  split at hload
  · assumption
  · cases hload

theorem Machine.load_of_le {m : Machine} {image : List Word} (h : image.length ≤ memoryWords) :
    ∃ m', m.load image = .ok m' := by
  have hl : m.memory.load image =
      .ok { m.memory with cells := (Bank.fill 0 16).setRun 0 image } := if_pos h
  exact ⟨_, by rw [Machine.load, hl, Except.map]⟩

namespace Action

theorem readCell_apply (address : Register) (m : Machine) : readCell address m =
    match m.memory.mode.resolve address with
    | some cell => .ok (m.memory.peek cell) { m with memory := m.memory.countRead }
    | none => .error (.address address) { m with memory := m.memory.countRead } := by
  simp only [readCell, Memory.read, Memory.countRead]
  cases m.memory.mode.resolve address <;> rfl

theorem writeCell_apply (address : Register) (value : Word) (m : Machine) :
    writeCell address value m =
    match m.memory.mode.resolve address with
    | some cell => .ok () { m with memory := m.memory.countWrite.store cell value }
    | none => .error (.address address) { m with memory := m.memory.countWrite } := by
  simp only [writeCell, Memory.write, Memory.countWrite]
  cases m.memory.mode.resolve address <;> rfl

theorem readCell_of_resolve {address : Register} {m : Machine} {cell : Word}
    (h : m.memory.mode.resolve address = some cell) : readCell address m =
      .ok (m.memory.peek cell) { m with memory := m.memory.countRead } := by
  simp only [readCell_apply, h]

theorem writeCell_of_resolve {address : Register} {m : Machine} {cell : Word} (value : Word)
    (h : m.memory.mode.resolve address = some cell) : writeCell address value m =
      .ok () { m with memory := m.memory.countWrite.store cell value } := by
  simp only [writeCell_apply, h]

theorem push_apply (value : Word) (m : Machine) : push value m =
    if m.memory.mode = .hardened ∧ m.sp ≤ 0 then .error (.stackOverflow m.sp) m
    else writeCell (m.sp - 1) value { m with sp := m.sp - 1 } := by
  by_cases h : m.memory.mode = .hardened ∧ m.sp ≤ 0
  · simp only [push, bind, EStateM.bind, get_apply, if_pos h]
    rfl
  · simp only [push, bind, EStateM.bind, get_apply, if_neg h]
    rfl

theorem top_apply (m : Machine) : top m =
    if m.memory.mode = .hardened ∧ 65536 ≤ m.sp then .error (.stackUnderflow m.sp) m
    else readCell m.sp m := by
  by_cases h : m.memory.mode = .hardened ∧ 65536 ≤ m.sp
  · simp only [top, bind, EStateM.bind, get_apply, if_pos h]
    rfl
  · simp only [top, bind, EStateM.bind, get_apply, if_neg h]

theorem fetch_apply (m : Machine) : fetch m =
    match m.memory.mode.resolve m.pc with
    | some cell => .ok (m.memory.peek cell) { m with pc := m.pc + 1, memory := m.memory.countRead }
    | none => .error (.address m.pc) { m with memory := m.memory.countRead } := by
  simp only [fetch, bind, EStateM.bind, get_apply, readCell_apply]
  cases m.memory.mode.resolve m.pc <;> rfl

end Action

end CoolMachine
