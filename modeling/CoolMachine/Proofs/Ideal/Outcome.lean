import CoolMachine.Proofs.Ideal.Machine
import CoolMachine.Proofs.Outcome

/-! The accesses of the machine over the integers as conditions: when each succeeds, and which
state it leaves. -/

namespace CoolMachine.Ideal

variable {e : Ideal} {failed : Cause → Ideal → Prop}

@[simp] theorem meets_read {purpose : Purpose} {address : Int} {after : Word → Ideal → Prop} :
    Meets (read purpose address) e after failed ↔
      (InMemory address → after (e.look address) { e with memory := e.memory.countRead }) ∧
      (¬ InMemory address →
        failed (.address purpose address) { e with memory := e.memory.countRead }) := by
  by_cases h : InMemory address <;> simp [Meets, read, h]

@[simp] theorem meets_write {purpose : Purpose} {address : Int} {value : Word}
    {after : Unit → Ideal → Prop} :
    Meets (write purpose address value) e after failed ↔
      (InMemory address →
        after () { e with memory := e.memory.countWrite.store (word address) value }) ∧
      (¬ InMemory address →
        failed (.address purpose address) { e with memory := e.memory.countWrite }) := by
  by_cases h : InMemory address <;> simp [Meets, write, h]

@[simp] theorem meets_fetch {purpose : Purpose} {after : Word → Ideal → Prop} :
    Meets (fetch purpose) e after failed ↔
      (InMemory e.pc →
        after (e.look e.pc) { e with pc := e.pc + 1, memory := e.memory.countRead }) ∧
      (¬ InMemory e.pc →
        failed (.address purpose e.pc) { e with memory := e.memory.countRead }) := by
  by_cases h : InMemory e.pc <;> simp [Meets, fetch_apply, h]

@[simp] theorem meets_push {value : Word} {after : Unit → Ideal → Prop} :
    Meets (push value) e after failed ↔
      (e.sp ≤ 0 → failed (.stackOverflow e.sp) e) ∧
      (0 < e.sp →
        Meets (write .stack (e.sp - 1) value) { e with sp := e.sp - 1 } after failed) := by
  by_cases h : e.sp ≤ 0
  · simp [Meets, push_apply, h, Int.not_lt.mpr h]
  · simp [Meets, push_apply, h, Int.not_le.mp h]

@[simp] theorem meets_top {after : Word → Ideal → Prop} :
    Meets top e after failed ↔
      (65536 ≤ e.sp → failed (.stackUnderflow e.sp) e) ∧
      (e.sp < 65536 → Meets (read .stack e.sp) e after failed) := by
  by_cases h : 65536 ≤ e.sp
  · simp [Meets, top_apply, h, Int.not_lt.mpr h]
  · simp [Meets, top_apply, h, Int.not_le.mp h]

@[simp] theorem meets_pop {after : Word → Ideal → Prop} :
    Meets pop e after failed ↔
      Meets top e (fun word e' => after word { e' with sp := e'.sp + 1 }) failed := by
  simp only [pop, meets_bind, meets_modify, meets_pure]

@[simp] theorem meets_frameAddress {after : Int → Ideal → Prop} :
    Meets frameAddress e after failed ↔
      Meets (fetch .operand) e (fun offset e' => after (e'.fp + offset.signed.toInt) e')
        failed := by
  simp only [frameAddress, meets_bind, meets_get, meets_pure]

@[simp] theorem meets_print {text : List Char} {after : Unit → Ideal → Prop} :
    Meets (print text) e after failed ↔
      Meets (Sink.write text) e.out (fun u out => after u { e with out })
        (fun error out => failed (.output error) { e with out }) := by
  simp only [Meets, print]
  cases Sink.write text e.out <;> rfl

/-! ### Steps -/

/-- The machine that is about to execute the instruction whose first word it has fetched. -/
def fetched (e : Ideal) : Ideal :=
  { e with pc := e.pc + 1, memory := e.memory.countRead, executed := e.executed + 1 }

theorem meets_step_of_halted {result : Word} (h : e.halted = some result)
    {after : Option Word → Ideal → Prop} {failed : Fault → Ideal → Prop} :
    Meets step e after failed ↔ after (some result) e := by
  simp only [Meets, step, h]

/-- A step of a running machine is the fetch of an opcode and what the opcode does. -/
theorem meets_step (h : e.halted = none) {after : Option Word → Ideal → Prop}
    {failed : Fault → Ideal → Prop} :
    Meets step e after failed ↔
      (InMemory e.pc → Meets (ofWord (e.look e.pc)) e.fetched (fun _ e' => after e'.halted e')
        fun cause e' => failed
          ⟨e.pc, some (e.look e.pc, e'.operandBehind e.pc (e.look e.pc)), cause⟩ e') ∧
      (¬ InMemory e.pc → failed ⟨e.pc, none, .address .instruction e.pc⟩
        { e with memory := e.memory.countRead }) := by
  by_cases hpc : InMemory e.pc
  · simp only [Meets, step, fetched, h, fetch_apply, hpc, if_true, forall_const, not_true,
      false_implies, and_true]
    generalize ofWord _ _ = result
    cases result <;> rfl
  · simp only [Meets, step, h, fetch_apply, hpc, if_false, false_implies, not_false_iff,
      forall_const, true_and]

theorem ofWord_code (op : Opcode) : ofWord op.code = ofOpcode op := by
  rw [ofWord, Opcode.ofWord?_code]

theorem meets_step_code (h : e.halted = none) (hpc : InMemory e.pc) {op : Opcode}
    (hop : e.look e.pc = op.code) {after : Option Word → Ideal → Prop}
    {failed : Fault → Ideal → Prop} :
    Meets step e after failed ↔
      Meets (ofOpcode op) e.fetched (fun _ e' => after e'.halted e')
        fun cause e' => failed ⟨e.pc, some (op.code, e'.operandBehind e.pc op.code), cause⟩ e' := by
  simp only [meets_step h, hop, ofWord_code, hpc, forall_const, not_true, false_implies, and_true]

end CoolMachine.Ideal
