import CoolMachine.Proofs.Machine.Outcome
import CoolMachine.Proofs.Register.Arithmetic

/-! Memory over whole histories of requests. A cell holds what the last request that replaced its
word has put there, whatever was asked for in between, and the counters tell how often the program
asked for a word or for a store. -/

namespace CoolMachine

/-- The addresses at which a memory can be read and written: in hardened mode those of its cells,
otherwise all. -/
def Mode.Admits (mode : Mode) (address : Register) : Prop :=
  mode = .hardened → 0 ≤ address.toInt ∧ address.toInt ≤ 65535

/-- An address selects the cell whose number it is modulo 65536, if it is admitted at all. -/
structure Mode.Selects (mode : Mode) (address : Register) (cell : Word) : Prop where
  admitted : mode.Admits address
  named : (cell.toNat : Int) = address.toInt % 65536

theorem Mode.Admits.selects {mode : Mode} {address : Register} (h : mode.Admits address) :
    mode.Selects address (Word.ofRegister address) :=
  ⟨h, Word.toNat_ofRegister address⟩

theorem Mode.resolve_ne_none_iff (mode : Mode) (address : Register) :
    mode.resolve address ≠ none ↔ mode.Admits address := by
  cases mode with
  | compatible => simp [resolve, Admits]
  | hardened =>
      have hrange : (0 ≤ address ∧ address < 65536) ↔
          0 ≤ address.toInt ∧ address.toInt ≤ 65535 := by
        have htop : (65536 : Register).toInt = 65535 + 1 := rfl
        rw [Int32.le_iff_toInt_le, Int32.lt_iff_toInt_lt, htop, Int.lt_add_one_iff]
        exact Iff.rfl
      simp [resolve, Admits, ← hrange]

theorem Mode.resolve_eq_none_iff (mode : Mode) (address : Register) :
    mode.resolve address = none ↔ ¬ mode.Admits address := by
  rw [← resolve_ne_none_iff, ne_eq, Decidable.not_not]

theorem Mode.resolve_eq_some_iff (mode : Mode) (address : Register) (cell : Word) :
    mode.resolve address = some cell ↔ mode.Selects address cell := by
  constructor
  · intro h
    have hadmits := (mode.resolve_ne_none_iff address).mp (h ▸ Option.some_ne_none cell)
    exact ⟨hadmits, (Word.eq_ofRegister_iff cell address).mp (Mode.eq_of_resolve h)⟩
  · intro ⟨hadmits, hnamed⟩
    obtain ⟨selected, h⟩ :=
      Option.ne_none_iff_exists'.mp ((mode.resolve_ne_none_iff address).mpr hadmits)
    rw [h, Mode.eq_of_resolve h, (Word.eq_ofRegister_iff cell address).mpr hnamed]

namespace Memory

/-! ### Single requests -/

theorem read_of_selects {m : Memory} {address : Register} {cell : Word}
    (h : m.mode.Selects address cell) : read address m = .ok (m.peek cell) m.countRead := by
  simp only [read, (m.mode.resolve_eq_some_iff address cell).mpr h, countRead]

theorem read_of_not_admits {m : Memory} {address : Register} (h : ¬ m.mode.Admits address) :
    read address m = .error ⟨address⟩ m.countRead := by
  simp only [read, (m.mode.resolve_eq_none_iff address).mpr h, countRead]

theorem write_of_selects {m : Memory} {address : Register} {cell : Word} (value : Word)
    (h : m.mode.Selects address cell) :
    write address value m = .ok () (m.countWrite.store cell value) := by
  simp only [write, (m.mode.resolve_eq_some_iff address cell).mpr h, countWrite, store]

theorem write_of_not_admits {m : Memory} {address : Register} (value : Word)
    (h : ¬ m.mode.Admits address) : write address value m = .error ⟨address⟩ m.countWrite := by
  simp only [write, (m.mode.resolve_eq_none_iff address).mpr h, countWrite]

theorem exists_load_of_le {m : Memory} {image : List Word} (h : image.length ≤ memoryWords) :
    ∃ loaded, m.load image = .ok loaded :=
  ⟨_, if_pos h⟩

theorem load_of_gt (m : Memory) {image : List Word} (h : memoryWords < image.length) :
    m.load image = .error ⟨image.length⟩ :=
  if_neg (Nat.not_le.mpr h)

/-- What can be asked of a memory: accesses of the running program, and those of its host. -/
inductive Request where
  | read (address : Register)
  | write (address : Register) (value : Word)
  | load (image : List Word)
  | peek (cell : Word)
  | dump (start stop : Word)

/-- The memory behind a request, which may have failed. -/
def serve (m : Memory) : Request → Memory
  | .read address => (read address m).state
  | .write address value => (write address value m).state
  | .load image =>
      match m.load image with
      | .ok loaded => loaded
      | .error _ => m
  | .peek _ | .dump _ _ => m

/-- A new memory after a history of requests. -/
def after (mode : Mode) (history : List Request) : Memory :=
  history.foldl serve (powerOn mode)

/-- The request leaves a word of its own in the cell. -/
def Request.Replaces (mode : Mode) (cell : Word) : Request → Prop
  | .write address _ => mode.Selects address cell
  | .load image => image.length ≤ 65536
  | .read _ | .peek _ | .dump _ _ => False

def Request.isRead : Request → Bool
  | .read _ => true
  | _ => false

def Request.isWrite : Request → Bool
  | .write _ _ => true
  | _ => false

/-! ### One step of a history -/

section

variable {m : Memory} {cell : Word}

/-- A request leaves the mode, and counts as what it is, successful or not; those of the host count
as nothing. -/
theorem mode_and_traffic_serve (m : Memory) (request : Request) :
    (m.serve request).mode = m.mode ∧
      (m.serve request).traffic =
        { m.traffic with
          reads := m.traffic.reads + request.isRead.toNat
          writes := m.traffic.writes + request.isWrite.toNat } := by
  cases request with
  | read address =>
      simp only [serve, read]
      cases m.mode.resolve address <;> exact ⟨rfl, rfl⟩
  | write address value =>
      simp only [serve, write]
      cases m.mode.resolve address <;> exact ⟨rfl, rfl⟩
  | load image =>
      simp only [serve]
      split
      · next loaded h => exact ⟨mode_load h, traffic_load h⟩
      · exact ⟨rfl, rfl⟩
  | peek _ => exact ⟨rfl, rfl⟩
  | dump _ _ => exact ⟨rfl, rfl⟩

theorem peek_serve_write {address : Register} {value : Word} (h : m.mode.Selects address cell) :
    (m.serve (.write address value)).peek cell = value := by
  rw [serve, write_of_selects value h, EStateM.Result.state, peek_store, if_pos rfl]

theorem peek_serve_load {image : List Word} (h : image.length ≤ 65536) :
    (m.serve (.load image)).peek cell = image[cell.toNat]?.getD 0 := by
  obtain ⟨loaded, hload⟩ := exists_load_of_le (m := m) h
  rw [serve, hload]
  exact peek_load hload cell

/-- A request that does not replace the word of a cell leaves it. -/
theorem peek_serve_of_not_replaces {request : Request}
    (h : ¬ request.Replaces m.mode cell) : (m.serve request).peek cell = m.peek cell := by
  cases request with
  | read address =>
      simp only [serve, read]
      cases m.mode.resolve address <;> rfl
  | write address value =>
      by_cases hadmits : m.mode.Admits address
      · have hother : Word.ofRegister address ≠ cell := fun hcell => h (hcell ▸ hadmits.selects)
        rw [serve, write_of_selects value hadmits.selects, EStateM.Result.state, peek_store,
          if_neg hother, peek_countWrite]
      · rw [serve, write_of_not_admits value hadmits, EStateM.Result.state, peek_countWrite]
  | load image =>
      rw [serve, load_of_gt m (Nat.not_le.mp h)]
  | peek _ => rfl
  | dump _ _ => rfl

end

/-! ### Whole histories -/

@[simp] theorem mode_foldl_serve (m : Memory) (history : List Request) :
    (history.foldl serve m).mode = m.mode := by
  induction history generalizing m with
  | nil => rfl
  | cons request history ih => rw [List.foldl_cons, ih, (mode_and_traffic_serve m request).1]

theorem mode_after (mode : Mode) (history : List Request) : (after mode history).mode = mode :=
  mode_foldl_serve (powerOn mode) history

theorem traffic_foldl_serve (m : Memory) (history : List Request) :
    (history.foldl serve m).traffic =
      { m.traffic with
        reads := m.traffic.reads + history.countP Request.isRead
        writes := m.traffic.writes + history.countP Request.isWrite } := by
  induction history generalizing m with
  | nil => rfl
  | cons request history ih =>
      rw [List.foldl_cons, ih, (mode_and_traffic_serve m request).2]
      cases hread : request.isRead <;> cases hwrite : request.isWrite <;>
        simp [hread, hwrite, Nat.add_right_comm, Nat.add_assoc]

theorem peek_foldl_serve {m : Memory} {cell : Word} {history : List Request}
    (h : ∀ request ∈ history, ¬ request.Replaces m.mode cell) :
    (history.foldl serve m).peek cell = m.peek cell := by
  induction history generalizing m with
  | nil => rfl
  | cons request history ih =>
      have hrest : ∀ request' ∈ history, ¬ request'.Replaces (m.serve request).mode cell := by
        rw [(mode_and_traffic_serve m request).1]
        exact fun request' hmem => h request' (List.mem_cons_of_mem _ hmem)
      rw [List.foldl_cons, ih hrest, peek_serve_of_not_replaces (h request List.mem_cons_self)]

/-- The word that a request has put into a cell stays there until a later one replaces it. -/
theorem peek_after_append {mode : Mode} {cell : Word} {request : Request}
    {before later : List Request} (h : ∀ request ∈ later, ¬ request.Replaces mode cell) :
    (after mode (before ++ request :: later)).peek cell =
      ((after mode before).serve request).peek cell := by
  have hmode : ((after mode before).serve request).mode = mode :=
    (mode_and_traffic_serve _ request).1.trans (mode_after mode before)
  rw [← hmode] at h
  rw [after, List.foldl_append, List.foldl_cons]
  exact peek_foldl_serve h

/-- A memory that stores what it is given: `m` is a new memory after the history, and each kind of
request is about to be served by it. -/
structure Faithful (mode : Mode) (history : List Request) (m : Memory) : Prop where
  /-- A cell holds the last word written to it, -/
  written : ∀ before address value later cell,
    history = before ++ .write address value :: later → mode.Selects address cell →
    (∀ request ∈ later, ¬ request.Replaces mode cell) → m.peek cell = value
  /-- or that of the image loaded after it, which leaves zero behind its end, -/
  loaded : ∀ before image later (cell : Word),
    history = before ++ .load image :: later → image.length ≤ 65536 →
    (∀ request ∈ later, ¬ request.Replaces mode cell) →
    m.peek cell = image[cell.toNat]?.getD 0
  /-- or zero while there has been neither. -/
  untouched : ∀ cell, (∀ request ∈ history, ¬ request.Replaces mode cell) → m.peek cell = 0
  read_returns : ∀ address, mode.Admits address → ∃ cell m', mode.Selects address cell ∧
    read address m = .ok (m.peek cell) m' ∧ ∀ other, m'.peek other = m.peek other
  read_fails : ∀ address, ¬ mode.Admits address →
    ∃ m', read address m = .error ⟨address⟩ m' ∧ ∀ other, m'.peek other = m.peek other
  write_succeeds : ∀ address value, mode.Admits address → ∃ m', write address value m = .ok () m'
  write_fails : ∀ address value, ¬ mode.Admits address →
    ∃ m', write address value m = .error ⟨address⟩ m' ∧ ∀ other, m'.peek other = m.peek other
  load_succeeds : ∀ image : List Word, image.length ≤ 65536 → ∃ m', m.load image = .ok m'
  load_fails : ∀ image : List Word, 65536 < image.length →
    m.load image = .error ⟨image.length⟩ ∧ m.serve (.load image) = m
  dumped : ∀ start stop : Word, start ≤ stop → ∃ words, m.range? start stop = some words ∧
    words.length = stop.toNat - start.toNat ∧
    ∀ cell : Word, start ≤ cell → cell < stop →
      words[cell.toNat - start.toNat]? = some (m.peek cell)
  dump_backwards : ∀ start stop : Word, stop < start → m.range? start stop = none
  /-- Reads and writes are counted, failed ones as well, and nothing else is. -/
  counted : m.traffic =
    ⟨history.countP Request.isRead, history.countP Request.isWrite, 0, 0⟩

theorem faithful_after (mode : Mode) (history : List Request) :
    Faithful mode history (after mode history) := by
  have hmode := mode_after mode history
  generalize hm : after mode history = m at hmode ⊢
  subst hmode
  refine {
    written := ?_
    loaded := ?_
    untouched := ?_
    read_returns := fun address h =>
      ⟨_, _, h.selects, read_of_selects h.selects, peek_countRead m⟩
    read_fails := fun address h => ⟨_, read_of_not_admits h, peek_countRead m⟩
    write_succeeds := fun address value h =>
      ⟨_, write_of_selects value h.selects⟩
    write_fails := fun address value h =>
      ⟨_, write_of_not_admits value h, peek_countWrite m⟩
    load_succeeds := fun image h => exists_load_of_le h
    load_fails := fun image h => ?_
    dumped := ?_
    dump_backwards := fun start stop h => if_neg (UInt16.not_le.mpr h)
    counted := ?_ }
  · rintro before address value later cell rfl hselects hlater
    rw [← hm, peek_after_append hlater]
    exact peek_serve_write ((mode_after _ before).symm ▸ hselects)
  · rintro before image later cell rfl hfits hlater
    rw [← hm, peek_after_append hlater, peek_serve_load hfits]
  · intro cell huntouched
    rw [← hm]
    exact (peek_foldl_serve (m := powerOn m.mode) huntouched).trans (peek_powerOn _ cell)
  · have hload := load_of_gt m h
    exact ⟨hload, by rw [serve, hload]⟩
  · intro start stop h
    refine ⟨_, if_pos h, by simp, fun cell hstart hstop => ?_⟩
    have hlt : cell.toNat - start.toNat < stop.toNat - start.toNat := by
      rw [UInt16.le_iff_toNat_le] at hstart
      rw [UInt16.lt_iff_toNat_lt] at hstop
      omega
    have hcell : start.toNat + (cell.toNat - start.toNat) = cell.toNat :=
      Nat.add_sub_of_le (UInt16.le_iff_toNat_le.mp hstart)
    simp [hlt, hcell, peek]
  · rw [← hm, after, traffic_foldl_serve]
    simp [powerOn]

/-- The second image clears what the first one and the write have left, and 65537 names the second
cell. -/
example : (after .compatible
    [.load [5, 6], .write 2 9, .load [7], .write 65537 3]).range? 0 3 = some [7, 3, 0] := by rfl

end Memory

end CoolMachine
