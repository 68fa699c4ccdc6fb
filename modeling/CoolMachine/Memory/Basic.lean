import CoolMachine.Memory.Bank
import CoolMachine.Memory.Traffic

/-! Main memory: 65536 words behind thirty-two-bit addresses. Reads and writes belong to the
running program and are counted, successful or not; loading, peeking and dumping belong to the
host and are not. -/

namespace CoolMachine

/-- What happens to an address outside main memory: an error, or a wrap at sixteen bits. -/
inductive Mode where
  | hardened
  | compatible
  deriving DecidableEq

instance : Inhabited Mode := ⟨.hardened⟩

/-- The number of words in main memory. -/
def memoryWords : Nat := 65536

/-- The number of words that the reserved cache will hold. -/
def cacheWords : Nat := 32

/-- The cell that an address selects, if any. -/
def Mode.resolve (mode : Mode) (address : Register) : Option Word :=
  match mode with
  | .hardened => if 0 ≤ address ∧ address < 65536 then some (Word.ofRegister address) else none
  | .compatible => some (Word.ofRegister address)

structure OutOfRange where
  address : Register
  deriving DecidableEq

def OutOfRange.message (e : OutOfRange) : String :=
  "address " ++ toString e.address.toInt ++ " is outside main memory"

structure ImageTooLarge where
  words : Nat
  deriving DecidableEq

def ImageTooLarge.message (e : ImageTooLarge) : String :=
  "program image of " ++ toString e.words ++ " words does not fit in main memory"

structure Memory where
  mode : Mode
  cells : Bank 16
  traffic : Traffic

namespace Memory

/-- Memory at power on: every cell is zero and nothing has been counted. -/
def powerOn (mode : Mode) : Memory := ⟨mode, Bank.fill 0 16, {}⟩

/-- The word in a cell, seen from the host. -/
def peek (m : Memory) (cell : Word) : Word := m.cells.get cell.toNat

/-- The words from `start` up to but not including `stop`; no answer if the range runs backwards. -/
def range? (m : Memory) (start stop : Word) : Option (List Word) :=
  if start ≤ stop then
    some ((List.range' start.toNat (stop.toNat - start.toNat)).map m.cells.get)
  else none

/-- All words of memory in the order of their addresses. -/
def contents (m : Memory) : List Word := (List.range memoryWords).map m.cells.get

/-- Clears memory and copies the image to its start, if it fits. -/
def load (m : Memory) (image : List Word) : Except ImageTooLarge Memory :=
  if image.length ≤ memoryWords then
    .ok { m with cells := (Bank.fill 0 16).setRun 0 image }
  else .error ⟨image.length⟩

def read (address : Register) : EStateM OutOfRange Memory Word := fun m =>
  let counted := { m with traffic := m.traffic.countRead }
  match m.mode.resolve address with
  | some cell => .ok (m.peek cell) counted
  | none => .error ⟨address⟩ counted

def write (address : Register) (value : Word) : EStateM OutOfRange Memory Unit := fun m =>
  let counted := { m with traffic := m.traffic.countWrite }
  match m.mode.resolve address with
  | some cell => .ok () { counted with cells := m.cells.set cell.toNat value }
  | none => .error ⟨address⟩ counted

theorem toNat_lt (cell : Word) : cell.toNat < Bank.size 16 := cell.toNat_lt

theorem peek_powerOn (mode : Mode) (cell : Word) : (powerOn mode).peek cell = 0 :=
  Bank.get_fill 0 16 cell.toNat

/-- A successful write changes the cell that it names and no other. -/
theorem peek_write {m m' : Memory} {address : Register} {value : Word} {u : Unit}
    (h : write address value m = .ok u m') (cell : Word) :
    m'.peek cell = if m.mode.resolve address = some cell then value else m.peek cell := by
  unfold write at h
  split at h
  · rename_i named hn
    cases h
    simp only [peek, Bank.get_set _ _ (toNat_lt named) (toNat_lt cell), UInt16.toNat_inj, hn,
      Option.some.injEq]
  · cases h

/-- After loading, a cell holds the word of the image at its address, or zero behind the image. -/
theorem peek_load {m m' : Memory} {image : List Word} (h : m.load image = .ok m') (cell : Word) :
    m'.peek cell = image[cell.toNat]?.getD 0 := by
  unfold load at h
  split at h
  · rename_i hfit
    cases h
    have hf : 0 + image.length ≤ Bank.size 16 := by simpa [Bank.size, memoryWords] using hfit
    rw [peek, Bank.get_setRun _ _ _ hf (toNat_lt cell), if_pos (Nat.zero_le _), Bank.get_fill,
      Nat.sub_zero]
  · cases h

/-- Memories are told apart by their mode, their counters and what their cells hold. -/
theorem ext_peek {a b : Memory} (hm : a.mode = b.mode) (ht : a.traffic = b.traffic)
    (hc : ∀ cell, a.peek cell = b.peek cell) : a = b := by
  obtain ⟨mode, cells, traffic⟩ := a
  obtain ⟨mode', cells', traffic'⟩ := b
  simp only at hm ht
  have hcells : cells = cells' := Bank.ext_get fun i hi => by
    have h := hc (UInt16.ofNat i)
    simpa only [peek, UInt16.toNat_ofNat_of_lt' hi] using h
  rw [hm, ht, hcells]

end Memory

end CoolMachine
