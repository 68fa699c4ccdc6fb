import CoolMachine.Proofs.Output.Sink
import CoolMachine.Proofs.Register.Range

/-! When a step faults, and with what. An instruction makes its checks in a fixed order, and the
first of them that fails decides. The checks are read off the machine before the step, so they
foretell the fault without executing anything. -/

namespace CoolMachine

/-- Whether the stream cannot take as many items. -/
def Sink.refuses {α : Type} (s : Sink α) (items : List α) : Bool :=
  s.room.any fun room => room < items.length

theorem Sink.meets_write {α : Type} {s : Sink α} {items : List α}
    {after : Unit → Sink α → Prop} {failed : OutputError → Sink α → Prop}
    (ha : s.refuses items = false → ∀ s', after () s')
    (hf : s.refuses items = true → ∀ s', failed .full s') :
    Meets (Sink.write items) s after failed := by
  unfold Meets
  cases hr : s.room with
  | none =>
      rw [write_unbounded hr]
      exact ha (by simp [refuses, hr]) _
  | some room =>
      by_cases hle : items.length ≤ room
      · rw [write_of_le hr hle]
        exact ha (by simp [refuses, hr, hle]) _
      · have hlt := Nat.not_le.mp hle
        rw [write_of_lt hr hlt]
        exact hf (by simp [refuses, hr, hlt]) _

theorem Word.signed_eq_zero_iff (w : Word) : w.signed = 0 ↔ w = 0 := by
  refine ⟨fun h => ?_, fun h => h ▸ rfl⟩
  rw [← UInt16.toUInt16_toInt16 w]
  exact congrArg Int16.toUInt16 h

/-- The cause that a check finds, if its condition holds. -/
def raise {γ : Type} (condition : Prop) [Decidable condition] (cause : γ) : Option γ :=
  if condition then some cause else none

section Raise

variable {γ : Type} {p : Prop} [Decidable p] {c d : γ}

theorem raise_eq_some : raise p c = some d ↔ p ∧ c = d := by
  unfold raise
  split <;> simp_all

theorem raise_eq_none : raise p c = none ↔ ¬ p := by
  unfold raise
  split <;> simp_all

end Raise

namespace Ideal

section Checks

variable (e : Ideal)

/-- The address in the current frame that the operand of the next instruction names. -/
def frameCell : Int := e.fp + (e.look (e.pc + 1)).signed.toInt

def operandMissing : Option Cause := raise (e.pc = 65535) (.address .operand 65536)

def stackEmpty : Option Cause := raise (e.sp = 65536) (.stackUnderflow 65536)

def stackFull : Option Cause := raise (e.sp = 0) (.stackOverflow 0)

/-- An operation pops two words, and finds less than two. -/
def pairMissing : Option Cause := raise (65535 ≤ e.sp) (.stackUnderflow 65536)

def frameMissing : Option Cause := raise (¬ InMemory e.frameCell) (.address .frame e.frameCell)

def outputRefused : Option Cause :=
  raise (e.out.refuses (Decimal.ofInt (e.look e.sp).signed.toInt)) (.output .full)

/-- What the instruction at the program counter faults with, if it faults: the first of its checks
that fails decides. Only a jump that is taken looks at its operand, and a return pops its value
and two more words from the bottom of the frame. -/
def hazardOf : Opcode → Option Cause
  | .nop | .prints => none
  | .halt => e.stackEmpty
  | .printi => e.stackEmpty.or e.outputRefused
  | .add | .sub | .mult => e.pairMissing
  | .div => e.pairMissing.or (raise (e.look e.sp = 0) .arithmetic)
  | .jmp => e.operandMissing
  | .jeq => e.stackEmpty.or (raise (e.pc = 65535 ∧ e.look e.sp = 0) (.address .operand 65536))
  | .call => e.operandMissing.or (raise (e.sp ≤ 1) (.stackOverflow 0))
  | .ret =>
    e.operandMissing.or <|
      (raise (e.sp = 65536 ∨ e.fp = 65535) (.stackUnderflow 65536)).or e.frameMissing
  | .pushc | .pusha => e.operandMissing.or e.stackFull
  | .pushr => e.operandMissing.or (e.frameMissing.or e.stackFull)
  | .popa => e.operandMissing.or e.stackEmpty
  | .popr => e.operandMissing.or (e.stackEmpty.or e.frameMissing)

/-- What the next step faults with, if it faults. -/
def hazard : Option Cause :=
  if InMemory e.pc then
    match Opcode.ofWord? (e.look e.pc) with
    | some op => e.hazardOf op
    | none => some (.illegalInstruction (e.look e.pc))
  else some (.address .instruction e.pc)

end Checks

/-! ### Instructions -/

/-- The instruction at the program counter has been fetched, from a state that no fault has left. -/
def Poised (e : Ideal) : Prop :=
  (0 ≤ e.pc ∧ e.pc < 65536) ∧ (0 ≤ e.sp ∧ e.sp ≤ 65536) ∧ 0 ≤ e.fp ∧ e.fp ≤ 65535

/-- Behind its fetch the instruction faults with its hazard, and succeeds if it has none. -/
def Foretold (e : Ideal) (x : Action Unit) (hazard : Option Cause) : Prop :=
  Meets x e.fetched (fun _ _ => hazard = none) fun cause _ => hazard = some cause

section Instructions

variable {e : Ideal}

theorem foretold_combine (h : e.Poised) (value? : Int16 → Int16 → Option Int16) :
    e.Foretold (combine value?) (e.pairMissing.or
      (raise (value? (e.look (e.sp + 1)).signed (e.look e.sp).signed = none) .arithmetic)) := by
  have hright : e.fetched.look e.fetched.sp = e.look e.sp := rfl
  have hleft : Ideal.look { e.fetched with
      sp := e.fetched.sp + 1, memory := e.fetched.memory.countRead } (e.fetched.sp + 1) =
        e.look (e.sp + 1) := rfl
  simp only [Foretold, combine, meets_bind, meets_pop, meets_top, meets_read, hright, hleft,
    pairMissing, Option.or_eq_some_iff, Option.or_eq_none_iff, raise_eq_some, raise_eq_none]
  unfold Poised at h
  cases value? (e.look (e.sp + 1)).signed (e.look e.sp).signed with
  | some value =>
      simp only [meets_push, meets_write, fetched, InMemory, Cause.stackUnderflow.injEq,
        reduceCtorEq, false_and, and_false, or_false, not_false_iff, and_true]
      omega
  | none =>
      simp only [meets_throw, fetched, InMemory, Cause.stackUnderflow.injEq, reduceCtorEq,
        and_false, or_false, false_or, true_and, and_true, not_true]
      omega

/-- An operation without faults of its own needs two words and nothing else. -/
theorem foretold_combine_some (h : e.Poised) (operation : Int16 → Int16 → Int16) :
    e.Foretold (combine fun left right => some (operation left right)) e.pairMissing := by
  have hc := foretold_combine h fun left right => some (operation left right)
  rwa [raise_eq_none.mpr (Option.some_ne_none _), Option.or_none] at hc

theorem foretold_div (h : e.Poised) : e.Foretold (combine divide?) (e.hazardOf .div) := by
  have hzero : e.look e.sp = 0 ↔
      divide? (e.look (e.sp + 1)).signed (e.look e.sp).signed = none := by
    rw [divide?, ite_eq_left_iff, Word.signed_eq_zero_iff]
    simp
  simp only [hazardOf, hzero]
  exact foretold_combine h divide?

theorem foretold_printi (h : e.Poised) :
    e.Foretold (ofOpcode .printi) (e.stackEmpty.or e.outputRefused) := by
  obtain ⟨-, ⟨hsp₀, hsp₁⟩, -⟩ := h
  have hlook : e.fetched.look e.fetched.sp = e.look e.sp := rfl
  have hprint : ∀ m : Ideal, m.out = e.out → e.sp < 65536 →
      Meets (print (Decimal.ofInt (e.look e.sp).signed.toInt)) m
        (fun _ _ => e.stackEmpty.or e.outputRefused = none)
        fun cause _ => e.stackEmpty.or e.outputRefused = some cause := by
    intro m hout hsp
    have hempty : e.stackEmpty = none := raise_eq_none.mpr (Int.ne_of_lt hsp)
    rw [hempty, Option.none_or, meets_print, hout]
    refine Sink.meets_write (fun ha _ => ?_) fun hf _ => ?_
    · exact raise_eq_none.mpr (Bool.eq_false_iff.mp ha)
    · exact raise_eq_some.mpr ⟨hf, rfl⟩
  simp only [Foretold, ofOpcode, meets_bind, meets_pop, meets_top, meets_read, hlook]
  refine ⟨fun hsp => ?_, fun hsp => ⟨fun _ => hprint _ rfl hsp, fun hn => ?_⟩⟩
  · have hsp : e.sp = 65536 := Int.le_antisymm hsp₁ hsp
    have hempty : e.stackEmpty = some (.stackUnderflow e.sp) :=
      raise_eq_some.mpr ⟨hsp, by rw [hsp]⟩
    rw [hempty]
    rfl
  · exact absurd ⟨hsp₀, hsp⟩ hn

theorem foretold_jumpIfZero (h : e.Poised) : e.Foretold jumpIfZero (e.hazardOf .jeq) := by
  have hlook : e.fetched.look e.fetched.sp = e.look e.sp := rfl
  simp only [Foretold, jumpIfZero, meets_bind, meets_pop, meets_top, meets_read, meets_ite, hlook,
    hazardOf, stackEmpty, Option.or_eq_some_iff, Option.or_eq_none_iff, raise_eq_some,
    raise_eq_none]
  unfold Poised at h
  by_cases hz : e.look e.sp = 0
  · simp only [hz, if_true, meets_fetch, meets_modify, fetched, InMemory,
      Cause.stackUnderflow.injEq, Cause.address.injEq, reduceCtorEq, and_false, false_and,
      or_false, true_and, and_true]
    omega
  · simp only [hz, if_false, meets_modify, fetched, InMemory, Cause.stackUnderflow.injEq,
      reduceCtorEq, and_false, or_false, not_false_iff, and_true]
    omega

theorem foretold_call (h : e.Poised) : e.Foretold call (e.hazardOf .call) := by
  simp only [Foretold, call, meets_bind, meets_fetch, meets_get, meets_push, meets_write,
    meets_modify, fetched, InMemory, hazardOf, operandMissing, Option.or_eq_some_iff,
    Option.or_eq_none_iff, raise_eq_some, raise_eq_none, Cause.address.injEq,
    Cause.stackOverflow.injEq, reduceCtorEq, false_and, and_false, or_false, false_or, true_and]
  unfold Poised at h
  omega

theorem foretold_ret (h : e.Poised) : e.Foretold ret (e.hazardOf .ret) := by
  have hfp := (e.memory.peek (word e.fp)).toNat_lt
  have hreturn := (e.memory.peek (word (e.fp + 1))).toNat_lt
  simp only [Foretold, hazardOf, operandMissing, frameMissing, Option.or_eq_some_iff,
    Option.or_eq_none_iff, raise_eq_some, raise_eq_none]
  simp only [ret, meets_bind, meets_frameAddress, meets_fetch, meets_pop, meets_top, meets_read,
    meets_modify, meets_write, fetched, InMemory, frameCell, look, Memory.peek_countRead,
    Cause.address.injEq, Cause.stackUnderflow.injEq, reduceCtorEq, false_and, and_false,
    or_false, false_or, true_and, and_true]
  unfold Poised at h
  omega

theorem foretold_pushr (h : e.Poised) : e.Foretold (ofOpcode .pushr) (e.hazardOf .pushr) := by
  simp only [Foretold, hazardOf, operandMissing, frameMissing, stackFull, Option.or_eq_some_iff,
    Option.or_eq_none_iff, raise_eq_some, raise_eq_none]
  simp only [ofOpcode, meets_bind, meets_frameAddress, meets_fetch, meets_read, meets_push,
    meets_write, fetched, InMemory, frameCell, look, Memory.peek_countRead,
    Cause.address.injEq, Cause.stackOverflow.injEq, reduceCtorEq, false_and, and_false,
    or_false, false_or, true_and, and_true]
  unfold Poised at h
  omega

theorem foretold_popr (h : e.Poised) : e.Foretold (ofOpcode .popr) (e.hazardOf .popr) := by
  simp only [Foretold, hazardOf, operandMissing, frameMissing, stackEmpty, Option.or_eq_some_iff,
    Option.or_eq_none_iff, raise_eq_some, raise_eq_none]
  simp only [ofOpcode, meets_bind, meets_frameAddress, meets_fetch, meets_pop, meets_top,
    meets_read, meets_write, fetched, InMemory, frameCell, look, Memory.peek_countRead,
    Cause.address.injEq, Cause.stackUnderflow.injEq, reduceCtorEq, false_and, and_false,
    or_false, false_or, true_and, and_true]
  unfold Poised at h
  omega

theorem foretold_ofOpcode (h : e.Poised) (op : Opcode) :
    e.Foretold (ofOpcode op) (e.hazardOf op) := by
  have hp := h
  unfold Poised at hp
  have hoperand := (e.look (e.pc + 1)).toNat_lt
  cases op with
  | halt =>
      simp only [Foretold, ofOpcode, halt, meets_bind, meets_top, meets_read, meets_modify,
        fetched, InMemory, hazardOf, stackEmpty, raise_eq_some, raise_eq_none,
        Cause.stackUnderflow.injEq, reduceCtorEq, and_false]
      omega
  | nop => rfl
  | prints => rfl
  | add => exact foretold_combine_some h fun left right => left + right
  | sub => exact foretold_combine_some h fun left right => left - right
  | mult => exact foretold_combine_some h fun left right => left * right
  | div => exact foretold_div h
  | call => exact foretold_call h
  | ret => exact foretold_ret h
  | jmp =>
      simp only [Foretold, ofOpcode, meets_bind, meets_fetch, meets_modify, fetched, InMemory,
        hazardOf, operandMissing, raise_eq_some, raise_eq_none, Cause.address.injEq, true_and]
      omega
  | jeq => exact foretold_jumpIfZero h
  | printi => exact foretold_printi h
  | pushc =>
      simp only [Foretold, ofOpcode, meets_bind, meets_fetch, meets_push, meets_write, fetched,
        InMemory, hazardOf, operandMissing, stackFull, Option.or_eq_some_iff,
        Option.or_eq_none_iff, raise_eq_some, raise_eq_none, Cause.address.injEq,
        Cause.stackOverflow.injEq, reduceCtorEq, false_and, and_false, or_false, false_or,
        true_and]
      omega
  | pusha =>
      have hlook : e.fetched.look e.fetched.pc = e.look (e.pc + 1) := rfl
      simp only [Foretold, ofOpcode, meets_bind, meets_fetch, meets_read, meets_push, meets_write,
        hlook, hazardOf, operandMissing, stackFull, Option.or_eq_some_iff,
        Option.or_eq_none_iff, raise_eq_some, raise_eq_none, Cause.address.injEq,
        Cause.stackOverflow.injEq, reduceCtorEq, false_and, and_false, or_false, false_or,
        true_and]
      simp only [fetched, InMemory]
      omega
  | pushr => exact foretold_pushr h
  | popa =>
      have hlook : e.fetched.look e.fetched.pc = e.look (e.pc + 1) := rfl
      simp only [Foretold, ofOpcode, meets_bind, meets_fetch, meets_pop, meets_top, meets_read,
        meets_write, hlook, hazardOf, operandMissing, stackEmpty, Option.or_eq_some_iff,
        Option.or_eq_none_iff, raise_eq_some, raise_eq_none, Cause.address.injEq,
        Cause.stackUnderflow.injEq, reduceCtorEq, false_and, and_false, or_false, false_or,
        true_and]
      simp only [fetched, InMemory]
      omega
  | popr => exact foretold_popr h

end Instructions

/-- What the checks say of a step is what comes of it. -/
theorem meets_step_hazard {e : Ideal} (hh : e.halted = none) (hr : e.InRange) (hl : e.Level) :
    Meets step e (fun _ _ => e.hazard = none) fun fault _ => e.hazard = some fault.cause := by
  refine (meets_step hh).mpr ⟨fun hpc => ?_, fun hpc => ?_⟩
  · have hp : e.Poised := ⟨hpc, ⟨hl.sp_nonneg, hl.sp_le⟩, hr.fp_nonneg, hr.fp_le⟩
    simp only [hazard, if_pos hpc, ofWord]
    cases Opcode.ofWord? (e.look e.pc) with
    | some op => exact foretold_ofOpcode hp op
    | none => rfl
  · simp only [hazard, if_neg hpc]

end Ideal

end CoolMachine
