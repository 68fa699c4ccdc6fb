import CoolMachine.Proofs.Machine.Outcome

/-! The accesses of the machine as conditions, in either mode: when each succeeds, and which state
it leaves. An access that succeeds is one to the cell of the low half of its address. -/

namespace CoolMachine.Action

variable {m : Machine} {failed : FaultCause → Machine → Prop}

@[simp] theorem meets_readCell {address : Register} {after : Word → Machine → Prop} :
    Meets (readCell address) m after failed ↔
      (m.memory.mode.resolve address ≠ none →
        after (m.memory.peek (Word.ofRegister address))
          { m with memory := m.memory.countRead }) ∧
      (m.memory.mode.resolve address = none →
        failed (.address address) { m with memory := m.memory.countRead }) := by
  cases h : m.memory.mode.resolve address with
  | none => simp [Meets, readCell_apply, h]
  | some cell =>
      obtain rfl := Mode.eq_of_resolve h
      simp [Meets, readCell_apply, h]

@[simp] theorem meets_writeCell {address : Register} {value : Word}
    {after : Unit → Machine → Prop} :
    Meets (writeCell address value) m after failed ↔
      (m.memory.mode.resolve address ≠ none → after ()
        { m with memory := m.memory.countWrite.store (Word.ofRegister address) value }) ∧
      (m.memory.mode.resolve address = none →
        failed (.address address) { m with memory := m.memory.countWrite }) := by
  cases h : m.memory.mode.resolve address with
  | none => simp [Meets, writeCell_apply, h]
  | some cell =>
      obtain rfl := Mode.eq_of_resolve h
      simp [Meets, writeCell_apply, h]

@[simp] theorem meets_fetch {after : Word → Machine → Prop} :
    Meets fetch m after failed ↔
      Meets (readCell m.pc) m (fun word m' => after word { m' with pc := m'.pc + 1 }) failed := by
  simp only [fetch, meets_bind, meets_get, meets_modify, meets_pure]

@[simp] theorem meets_push {value : Word} {after : Unit → Machine → Prop} :
    Meets (push value) m after failed ↔
      (m.memory.mode = .hardened ∧ m.sp ≤ 0 → failed (.stackOverflow m.sp) m) ∧
      (¬ (m.memory.mode = .hardened ∧ m.sp ≤ 0) →
        Meets (writeCell (m.sp - 1) value) { m with sp := m.sp - 1 } after failed) := by
  by_cases h : m.memory.mode = .hardened ∧ m.sp ≤ 0
  · simp [Meets, push_apply, h]
  · simp only [Meets, push_apply, h, if_false, false_implies, not_false_iff, forall_const, true_and]

@[simp] theorem meets_top {after : Word → Machine → Prop} :
    Meets top m after failed ↔
      (m.memory.mode = .hardened ∧ 65536 ≤ m.sp → failed (.stackUnderflow m.sp) m) ∧
      (¬ (m.memory.mode = .hardened ∧ 65536 ≤ m.sp) →
        Meets (readCell m.sp) m after failed) := by
  by_cases h : m.memory.mode = .hardened ∧ 65536 ≤ m.sp
  · simp [Meets, top_apply, h]
  · simp only [Meets, top_apply, h, if_false, false_implies, not_false_iff, forall_const, true_and]

@[simp] theorem meets_pop {after : Word → Machine → Prop} :
    Meets pop m after failed ↔
      Meets top m (fun word m' => after word { m' with sp := m'.sp + 1 }) failed := by
  simp only [pop, meets_bind, meets_modify, meets_pure]

@[simp] theorem meets_frameAddress {after : Register → Machine → Prop} :
    Meets frameAddress m after failed ↔
      Meets fetch m (fun offset m' => after (m'.fp + offset.offset) m') failed := by
  simp only [frameAddress, meets_bind, meets_get, meets_pure]

@[simp] theorem meets_print {text : List Char} {after : Unit → Machine → Prop} :
    Meets (print text) m after failed ↔
      Meets (Sink.write text) m.out (fun u out => after u { m with out })
        (fun error out => failed (.output error) { m with out }) := by
  simp only [Meets, print]
  cases Sink.write text m.out <;> rfl

end CoolMachine.Action
