import CoolMachine.Proofs.Machine.Flow

/-! The operand of an instruction. A host that looks behind the instruction word before the step
sees the word that the instruction goes on to fetch: what comes before the fetch in a step stores
nothing. -/

namespace CoolMachine

/-- The word of the next address: behind the last cell comes the first one. -/
theorem Word.eq_ofRegister_succ_iff (cell : Word) (pc : Register) :
    cell = ofRegister (pc + 1) ↔ (cell.toNat : Int) = (pc.toInt + 1) % 65536 := by
  have hone : (1 : Register).toInt = 1 := rfl
  have hwrap : (pc.toInt + 1).bmod 4294967296 % 65536 = (pc.toInt + 1) % 65536 := by
    simp only [Int.bmod]
    split <;> omega
  rw [eq_ofRegister_iff, Int32.toInt_add, hone]
  exact (congrArg ((cell.toNat : Int) = ·) hwrap).to_iff

namespace Action

/-! ### Instructions with the fetch of the operand left open -/

section

variable (operand : Action Word)

/-- The address in the current frame that is named by what `operand` yields. -/
def frameAddressBy : Action Register := do
  let offset ← operand
  return (← get).fp + offset.offset

/-- What an instruction does once its first word has been fetched, if it is `operand` that yields
its second one. -/
def withOperand : Opcode → Action Unit
  | .call => do
    let target ← operand
    push (Word.ofRegister (← get).pc)
    push (Word.ofRegister (← get).fp)
    modify fun m => { m with fp := m.sp, pc := target.address }
  | .ret => do
    let slot ← frameAddressBy operand
    let value ← pop
    modify fun m => { m with sp := m.fp }
    let fp ← pop
    modify fun m => { m with fp := fp.address }
    let pc ← pop
    modify fun m => { m with pc := pc.address, sp := slot }
    writeCell slot value
  | .jmp => do
    let target ← operand
    modify fun m => { m with pc := target.address }
  | .jeq => do
    if (← pop) = 0 then
      let target ← operand
      modify fun m => { m with pc := target.address }
    else
      modify fun m => { m with pc := m.pc + 1 }
  | .pushc => do
    let value ← operand
    push value
  | .pusha => do
    let address ← operand
    let value ← readCell address.address
    push value
  | .pushr => do
    let address ← frameAddressBy operand
    let value ← readCell address
    push value
  | .popa => do
    let address ← operand
    let value ← pop
    writeCell address.address value
  | .popr => do
    let address ← frameAddressBy operand
    let value ← pop
    writeCell address value
  | op => ofOpcode op

end

theorem withOperand_fetch (op : Opcode) : withOperand fetch op = ofOpcode op := by
  cases op <;> rfl

/-- A fetch that fails for the given cause unless it yields the word that is expected. -/
def fetchExpecting (expected : Word) (otherwise : FaultCause) : Action Word := do
  let word ← fetch
  if word = expected then return word else throw otherwise

theorem fetchExpecting_apply {m : Machine} {expected : Word}
    (h : m.memory.peek (Word.ofRegister m.pc) = expected) (otherwise : FaultCause) :
    fetchExpecting expected otherwise m = fetch m := by
  simp only [fetchExpecting, bind, EStateM.bind, fetch_apply]
  cases hr : m.memory.mode.resolve m.pc with
  | none => rfl
  | some cell =>
      obtain rfl := Mode.eq_of_resolve hr
      simp only [h, if_true]
      rfl

theorem bind_apply_congr {α β : Type} {x y : Action α} {m : Machine} (h : x m = y m)
    (f : α → Action β) : (x >>= f) m = (y >>= f) m := by
  simp only [bind, EStateM.bind, h]

theorem frameAddressBy_apply_congr {operand operand' : Action Word} {m : Machine}
    (h : operand m = operand' m) : frameAddressBy operand m = frameAddressBy operand' m :=
  bind_apply_congr h _

/-- Popping leaves the program counter and every word in memory. -/
theorem pop_leaves (m : Machine) :
    Meets pop m (fun _ m' => m'.pc = m.pc ∧ ∀ cell, m'.memory.peek cell = m.memory.peek cell)
      fun _ _ => True := by
  simp only [meets_pop, meets_top, meets_readCell, implies_true, and_true, true_and]
  exact fun _ _ _ => rfl

/-- A jump on zero may have popped a word before it fetches its operand. -/
theorem jumpIfZero_expecting (m : Machine) (otherwise : FaultCause) :
    withOperand (fetchExpecting m.operandWord otherwise) .jeq m.fetched =
      ofOpcode .jeq m.fetched := by
  have hpop := pop_leaves m.fetched
  simp only [withOperand, ofOpcode, jumpIfZero, bind, EStateM.bind]
  cases hp : pop m.fetched with
  | error cause m' => rfl
  | ok word m' =>
      obtain ⟨hpc, hpeek⟩ := hpop.of_ok hp
      have hword : m'.memory.peek (Word.ofRegister m'.pc) = m.operandWord := by
        rw [hpc, hpeek]
        rfl
      by_cases hzero : word = 0
      · simp only [if_pos hzero, EStateM.bind, fetchExpecting_apply hword]
      · simp only [if_neg hzero]

/-- No instruction ever fetches another operand than the word that stood behind it before. -/
theorem withOperand_expecting (m : Machine) (op : Opcode) (otherwise : FaultCause) :
    withOperand (fetchExpecting m.operandWord otherwise) op m.fetched = ofOpcode op m.fetched := by
  have hfetch : fetchExpecting m.operandWord otherwise m.fetched = fetch m.fetched :=
    fetchExpecting_apply rfl otherwise
  cases op with
  | call | jmp | pushc | pusha | popa => exact bind_apply_congr hfetch _
  | ret | pushr | popr => exact bind_apply_congr (frameAddressBy_apply_congr hfetch) _
  | jeq => exact jumpIfZero_expecting m otherwise
  | halt | nop | prints | add | sub | mult | div | printi => rfl

end Action

end CoolMachine
