import CoolMachine.Proofs.Ideal.Agreement
import CoolMachine.Proofs.Ideal.Outcome

/-! Which cells an instruction stores to. The addresses are read off the machine before the step;
a step without a fault writes once for each of them and leaves all other cells alone. -/

namespace CoolMachine

/-- The addresses that the instruction stores to, where `operand` is the word behind it. -/
def Opcode.stores (sp fp : Int) (operand : Word) : Opcode → List Int
  | add | sub | mult | div => [sp + 1]
  | call => [sp - 1, sp - 2]
  | pushc | pusha | pushr => [sp - 1]
  | popa => [operand.toNat]
  | ret | popr => [fp + operand.signed.toInt]
  | halt | nop | jmp | jeq | printi | prints => []

namespace Ideal

theorem word_inj {a b : Int} (ha : InMemory a) (hb : InMemory b) : word a = word b ↔ a = b := by
  refine ⟨fun h => ?_, fun h => h ▸ rfl⟩
  have hw := toNat_word a
  have hw' := toNat_word b
  obtain ⟨ha₀, ha₁⟩ := ha
  obtain ⟨hb₀, hb₁⟩ := hb
  rw [h] at hw
  omega

theorem peek_store_word {memory : Memory} {a b : Int} {value : Word} (ha : InMemory a)
    (hb : InMemory b) : (memory.store (word a) value).peek (word b) =
      if b = a then value else memory.peek (word b) := by
  simp only [Memory.peek_store, word_inj ha hb, eq_comm]

/-- The second memory comes from the first by one write to each of the addresses. -/
structure Wrote (before after : Memory) (addresses : List Int) : Prop where
  writes : after.traffic.writes = before.traffic.writes + addresses.length
  others : ∀ address, InMemory address → address ∉ addresses →
    after.peek (word address) = before.peek (word address)

theorem wrote_nil (memory : Memory) : Wrote memory memory [] :=
  ⟨rfl, fun _ _ _ => rfl⟩

section Accesses

variable {before after : Memory} {addresses : List Int}

theorem Wrote.countRead (h : Wrote before after addresses) :
    Wrote before after.countRead addresses :=
  ⟨h.writes, h.others⟩

theorem Wrote.store (h : Wrote before after addresses) {address : Int} (ha : InMemory address)
    (value : Word) :
    Wrote before (after.countWrite.store (word address) value) (addresses ++ [address]) := by
  refine ⟨?_, fun other ho hn => ?_⟩
  · rw [List.length_append, ← Nat.add_assoc, ← h.writes]
    rfl
  · rw [List.mem_append, List.mem_singleton, not_or] at hn
    rw [peek_store_word ha ho, if_neg hn.2, Memory.peek_countWrite]
    exact h.others other ho hn.1

end Accesses

/-! ### Instructions -/

section Instructions

variable (e : Ideal)

theorem wrote_combine (operation : Int16 → Int16 → Option Int16) :
    Meets (combine operation) e (fun _ e' => Wrote e.memory e'.memory [e.sp + 1] ∧ e'.fp = e.fp)
      fun _ _ => True := by
  simp only [combine, meets_bind, meets_pop, meets_top, meets_read, implies_true, true_and,
    and_true]
  intro _ _ _ _
  generalize operation _ _ = value?
  cases value? with
  | none => trivial
  | some value =>
      simp only [meets_push, meets_write, implies_true, true_and, and_true, Int.add_sub_cancel]
      exact fun _ hin => (wrote_nil e.memory).countRead.countRead.store hin _

theorem wrote_call :
    Meets call e (fun _ e' => Wrote e.memory e'.memory [e.sp - 1, e.sp - 2]) fun _ _ => True := by
  have hsp : e.sp - 1 - 1 = e.sp - 2 := by omega
  simp only [call, meets_bind, meets_fetch, meets_get, meets_push, meets_write, meets_modify,
    implies_true, true_and, and_true, hsp]
  exact fun _ _ h₁ _ h₂ => ((wrote_nil e.memory).countRead.store h₁ _).store h₂ _

theorem wrote_ret :
    Meets ret e (fun _ e' => Wrote e.memory e'.memory [e.fp + (e.look e.pc).signed.toInt])
      fun _ _ => True := by
  simp only [ret, meets_bind, meets_frameAddress, meets_fetch, meets_pop, meets_top, meets_read,
    meets_modify, meets_write, implies_true, true_and, and_true]
  exact fun _ _ _ _ _ _ _ h =>
    (wrote_nil e.memory).countRead.countRead.countRead.countRead.store h _

theorem wrote_jumpIfZero :
    Meets jumpIfZero e (fun _ e' => Wrote e.memory e'.memory [] ∧ e'.fp = e.fp)
      fun _ _ => True := by
  simp only [jumpIfZero, meets_bind, meets_pop, meets_top, meets_read, meets_ite, meets_fetch,
    meets_modify, implies_true, true_and, and_true]
  intro _ _
  split
  · exact fun _ => (wrote_nil e.memory).countRead.countRead
  · exact (wrote_nil e.memory).countRead

theorem wrote_printi :
    Meets (ofOpcode .printi) e (fun _ e' => Wrote e.memory e'.memory [] ∧ e'.fp = e.fp)
      fun _ _ => True := by
  simp only [ofOpcode, meets_bind, meets_pop, meets_top, meets_read, meets_print, implies_true,
    true_and, and_true]
  intro _ _
  unfold Meets
  split
  · exact (wrote_nil e.memory).countRead
  · trivial

/-- Only a call and a return change the frame pointer. -/
theorem wrote_ofOpcode (op : Opcode) :
    Meets (ofOpcode op) e
      (fun _ e' => Wrote e.memory e'.memory (op.stores e.sp e.fp (e.look e.pc)) ∧
        (op ≠ .call → op ≠ .ret → e'.fp = e.fp))
      fun _ _ => True := by
  have h₀ := wrote_nil e.memory
  have hfp : ∀ {x : Action Unit} {addresses : List Int},
      Meets x e (fun _ e' => Wrote e.memory e'.memory addresses ∧ e'.fp = e.fp) (fun _ _ => True) →
      Meets x e (fun _ e' => Wrote e.memory e'.memory addresses ∧
        (op ≠ .call → op ≠ .ret → e'.fp = e.fp)) fun _ _ => True :=
    fun h => h.mono (fun _ _ h => ⟨h.1, fun _ _ => h.2⟩) fun _ _ h => h
  cases op with
  | halt =>
      simp only [ofOpcode, halt, meets_bind, meets_top, meets_read, meets_modify, implies_true,
        true_and, and_true]
      exact fun _ _ => h₀.countRead
  | nop => exact ⟨h₀, fun _ _ => rfl⟩
  | prints => exact ⟨h₀, fun _ _ => rfl⟩
  | add => exact hfp (wrote_combine e fun left right => some (left + right))
  | sub => exact hfp (wrote_combine e fun left right => some (left - right))
  | mult => exact hfp (wrote_combine e fun left right => some (left * right))
  | div => exact hfp (wrote_combine e divide?)
  | call => exact (wrote_call e).mono (fun _ _ h => ⟨h, fun hc => absurd rfl hc⟩) fun _ _ h => h
  | ret => exact (wrote_ret e).mono (fun _ _ h => ⟨h, fun _ hr => absurd rfl hr⟩) fun _ _ h => h
  | jmp =>
      simp only [ofOpcode, meets_bind, meets_fetch, meets_modify, implies_true, and_true]
      exact fun _ => h₀.countRead
  | jeq => exact hfp (wrote_jumpIfZero e)
  | printi => exact hfp (wrote_printi e)
  | pushc =>
      simp only [ofOpcode, meets_bind, meets_fetch, meets_push, meets_write, implies_true, true_and,
        and_true]
      exact fun _ _ h => h₀.countRead.store h _
  | pusha =>
      simp only [ofOpcode, meets_bind, meets_fetch, meets_read, meets_push, meets_write,
        implies_true, true_and, and_true]
      exact fun _ _ _ h => h₀.countRead.countRead.store h _
  | pushr =>
      simp only [ofOpcode, meets_bind, meets_frameAddress, meets_fetch, meets_read, meets_push,
        meets_write, implies_true, true_and, and_true]
      exact fun _ _ _ h => h₀.countRead.countRead.store h _
  | popa =>
      simp only [ofOpcode, meets_bind, meets_fetch, meets_pop, meets_top, meets_read, meets_write,
        implies_true, true_and, and_true]
      exact fun _ _ _ h => h₀.countRead.countRead.store h _
  | popr =>
      simp only [ofOpcode, meets_bind, meets_frameAddress, meets_fetch, meets_pop, meets_top,
        meets_read, meets_write, implies_true, true_and, and_true]
      exact fun _ _ _ h => h₀.countRead.countRead.store h _

end Instructions

/-! ### Steps -/

/-- The opcode that the next step executes, if it executes one. -/
def opcode? (e : Ideal) : Option Opcode :=
  match e.halted with
  | some _ => none
  | none => Opcode.ofWord? (e.look e.pc)

/-- The addresses that the next step stores to. -/
def stores (e : Ideal) : List Int :=
  match e.opcode? with
  | some op => op.stores e.sp e.fp (e.look (e.pc + 1))
  | none => []

/-- What the next step does is what its opcode does, once it has been fetched. -/
theorem meets_step_of_opcode {e : Ideal} {op : Opcode} (h : e.opcode? = some op)
    {after : Ideal → Prop}
    (hop : Meets (ofOpcode op) e.fetched (fun _ e' => after e') fun _ _ => True) :
    Meets step e (fun _ e' => after e') fun _ _ => True := by
  unfold opcode? at h
  cases hh : e.halted with
  | some result => simp [hh] at h
  | none =>
      rw [hh] at h
      rw [meets_step hh, ofWord]
      simp only [h]
      exact ⟨fun _ => hop, fun _ => trivial⟩

theorem meets_step_of_no_opcode {e : Ideal} (h : e.opcode? = none) :
    Meets step e (fun _ e' => e' = e) fun _ _ => True := by
  unfold opcode? at h
  cases hh : e.halted with
  | some result => exact (meets_step_of_halted hh).mpr rfl
  | none =>
      rw [hh] at h
      rw [meets_step hh, ofWord]
      simp only [h]
      exact ⟨fun _ => trivial, fun _ => trivial⟩

theorem wrote_step (e : Ideal) :
    Meets step e
      (fun _ e' => Wrote e.memory e'.memory e.stores ∧
        (e.opcode? ≠ some .call → e.opcode? ≠ some .ret → e'.fp = e.fp))
      fun _ _ => True := by
  cases hop : e.opcode? with
  | none =>
      refine (meets_step_of_no_opcode hop).mono (fun _ e' he => ?_) fun _ _ h => h
      rw [he, stores, hop]
      exact ⟨wrote_nil e.memory, fun _ _ => rfl⟩
  | some op =>
      refine meets_step_of_opcode hop ((wrote_ofOpcode e.fetched op).mono ?_ fun _ _ h => h)
      intro _ e' h
      rcases h with ⟨hw, hfp⟩
      rw [stores, hop]
      refine ⟨⟨hw.writes, hw.others⟩, fun hc hr => ?_⟩
      exact hfp (fun h => hc (h ▸ rfl)) (fun h => hr (h ▸ rfl))

end Ideal

end CoolMachine
