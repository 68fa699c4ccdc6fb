import CoolMachine.Proofs.Machine.Equations
import CoolMachine.Proofs.Outcome

/-! The step of a machine in either mode, taken apart: the fetch of an instruction word, and what
that word does to the machine behind the fetch. -/

namespace CoolMachine

/-- An address selects the cell of its low half, if it selects any. -/
theorem Mode.eq_of_resolve {mode : Mode} {address : Register} {cell : Word}
    (h : mode.resolve address = some cell) : cell = Word.ofRegister address := by
  cases mode with
  | hardened =>
      simp only [resolve] at h
      split at h
      · exact (Option.some.inj h).symm
      · cases h
  | compatible => exact (Option.some.inj h).symm

namespace Machine

/-- The word at the program counter. -/
def opcodeWord (m : Machine) : Word := m.memory.peek (Word.ofRegister m.pc)

/-- The word at the stack pointer. -/
def topWord (m : Machine) : Word := m.memory.peek (Word.ofRegister m.sp)

/-- The machine that is about to execute the instruction whose first word it has fetched. -/
def fetched (m : Machine) : Machine :=
  { m with pc := m.pc + 1, memory := m.memory.countRead, executed := m.executed + 1 }

/-- A step of a running machine is the fetch of an instruction word and what the word does. -/
theorem meets_step {m : Machine} (h : m.halted = none) {after : Option Word → Machine → Prop}
    {failed : Fault → Machine → Prop} :
    Meets step m after failed ↔
      (m.memory.mode.resolve m.pc ≠ none →
        Meets (Action.ofWord m.opcodeWord) m.fetched (fun _ m' => after m'.halted m')
          fun cause m' => failed
            ⟨m.pc, some (m.opcodeWord, m'.operandBehind m.pc m.opcodeWord), cause⟩ m') ∧
      (m.memory.mode.resolve m.pc = none →
        failed ⟨m.pc, none, .address m.pc⟩ { m with memory := m.memory.countRead }) := by
  cases hr : m.memory.mode.resolve m.pc with
  | none =>
      simp only [Meets, step, h, Action.fetch_apply, hr, ne_eq, not_true, false_implies, true_and,
        forall_const]
  | some cell =>
      obtain rfl := Mode.eq_of_resolve hr
      simp only [Meets, step, h, Action.fetch_apply, hr, ne_eq, reduceCtorEq, not_false_iff,
        forall_const, false_implies, and_true, opcodeWord, fetched]
      generalize Action.ofWord _ _ = result
      cases result <;> rfl

end Machine

end CoolMachine
