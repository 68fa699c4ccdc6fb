import Mathlib
import CoolMachine.Proofs.Machine.Outcome

/-! What an instruction adds to the counters of memory traffic. An access counts whether its
address is in memory or not, and a check of the stack comes before the access, so a fault leaves a
part of what the instruction would have added. -/

namespace CoolMachine

/-- Reads and writes, in this order. -/
abbrev Charge := Nat × Nat

namespace Traffic

/-- The counters once the charge has been added to them. -/
def charged (t : Traffic) (charge : Charge) : Traffic :=
  { t with reads := t.reads + charge.1, writes := t.writes + charge.2 }

theorem charged_add (t : Traffic) (c d : Charge) : t.charged (c + d) = (t.charged c).charged d := by
  simp only [charged, Prod.fst_add, Prod.snd_add, Nat.add_assoc]

end Traffic

/-- The traffic of an instruction, the fetch of its opcode included, where `top` is the word on top
of the stack: a jump that is not taken leaves its operand unread. -/
def Opcode.charge (top : Word) : Opcode → Charge
  | nop | prints => (1, 0)
  | add | sub | mult | div => (3, 1)
  | call => (2, 2)
  | ret => (5, 1)
  | jmp | printi | halt => (2, 0)
  | jeq => if top = 0 then (3, 0) else (2, 0)
  | pushc => (2, 1)
  | pusha | pushr | popa | popr => (3, 1)

/-- No word on top of the stack makes an instruction dearer than zero does. -/
theorem Opcode.charge_le (op : Opcode) (top : Word) : op.charge top ≤ op.charge 0 := by
  cases op with
  | jeq =>
      simp only [charge]
      split <;> decide
  | _ => exact le_rfl

theorem Opcode.fetch_le_charge (op : Opcode) (top : Word) : (1, 0) ≤ op.charge top := by
  cases op with
  | jeq =>
      simp only [charge]
      split <;> decide
  | _ => exact ⟨Nat.le_of_ble_eq_true rfl, Nat.zero_le _⟩

namespace Action

variable {α β : Type} {m : Machine}

/-- Run from `m`, the action adds the charge to the counters, or a part of it if it faults. -/
def Spends (x : Action α) (m : Machine) (charge : Charge) : Prop :=
  Meets x m (fun _ m' => m'.memory.traffic = m.memory.traffic.charged charge)
    fun _ m' => ∃ part ≤ charge, m'.memory.traffic = m.memory.traffic.charged part

theorem spends_pure (a : α) : Spends (pure a) m 0 := rfl

theorem spends_throw (cause : FaultCause) (charge : Charge) :
    Spends (throw cause : Action α) m charge :=
  ⟨0, zero_le, rfl⟩

theorem spends_modify {f : Machine → Machine} (h : (f m).memory = m.memory) :
    Spends (modify f) m 0 :=
  congrArg Memory.traffic h

theorem spends_get_bind {k : Machine → Action α} {charge : Charge} (h : Spends (k m) m charge) :
    Spends (get >>= k) m charge := h

/-- The first action spends its part of the charge, and the second one what is left of it. -/
theorem spends_bind {x : Action α} {f : α → Action β} {part charge : Charge}
    (hx : Spends x m part) (hf : ∀ a m', x m = .ok a m' → Spends (f a) m' (charge - part))
    (hp : part ≤ charge := by decide) : Spends (x >>= f) m charge := by
  unfold Spends
  rw [meets_bind]
  unfold Meets
  cases h : x m with
  | ok a m' =>
      have ht := hx.of_ok h
      refine (hf a m' h).mono (fun _ m'' hm => ?_) fun _ m'' hm => ?_
      · rw [hm, ht, ← Traffic.charged_add, add_tsub_cancel_of_le hp]
      · -- The first action has spent its whole part by the time that the second one faults.
        obtain ⟨rest, hr, hm⟩ := hm
        refine ⟨part + rest, ?_, by rw [hm, ht, Traffic.charged_add]⟩
        rw [← add_tsub_cancel_of_le hp]
        gcongr
  | error cause m' =>
      obtain ⟨rest, hr, hm⟩ := hx.of_error h
      exact ⟨rest, hr.trans hp, hm⟩

/-! ### Accesses -/

theorem spends_readCell (address : Register) : Spends (readCell address) m (1, 0) := by
  unfold Spends Meets
  rw [readCell_apply]
  cases m.memory.mode.resolve address with
  | none => exact ⟨(1, 0), le_rfl, rfl⟩
  | some cell => rfl

theorem spends_writeCell (address : Register) (value : Word) :
    Spends (writeCell address value) m (0, 1) := by
  unfold Spends Meets
  rw [writeCell_apply]
  cases m.memory.mode.resolve address with
  | none => exact ⟨(0, 1), le_rfl, rfl⟩
  | some cell => rfl

theorem spends_print (text : List Char) : Spends (print text) m 0 := by
  unfold Spends Meets print
  cases Sink.write text m.out with
  | ok u out => rfl
  | error e out => exact ⟨0, le_rfl, rfl⟩

/-- The check for room comes before the write, so a stack that is full costs nothing. -/
theorem spends_push (value : Word) : Spends (push value) m (0, 1) := by
  unfold Spends Meets
  rw [push_apply]
  by_cases h : m.memory.mode = .hardened ∧ m.sp ≤ 0
  · rw [if_pos h]
    exact ⟨0, zero_le, rfl⟩
  · rw [if_neg h]
    exact spends_writeCell _ value

/-- The check for a word comes before the read, so a stack that is empty costs nothing. -/
theorem spends_top : Spends top m (1, 0) := by
  unfold Spends Meets
  rw [top_apply]
  by_cases h : m.memory.mode = .hardened ∧ 65536 ≤ m.sp
  · rw [if_pos h]
    exact ⟨0, zero_le, rfl⟩
  · rw [if_neg h]
    exact spends_readCell m.sp

theorem spends_fetch : Spends fetch m (1, 0) :=
  spends_get_bind <| spends_bind (spends_readCell m.pc) fun word _ _ =>
    spends_bind (spends_modify rfl) fun _ _ _ => spends_pure word

theorem spends_pop : Spends pop m (1, 0) :=
  spends_bind spends_top fun word _ _ =>
    spends_bind (spends_modify rfl) fun _ _ _ => spends_pure word

theorem eq_topWord_of_top {word : Word} {m' : Machine} (h : top m = .ok word m') :
    word = m.topWord := by
  rw [top_apply] at h
  split at h
  · cases h
  · rw [readCell_apply] at h
    split at h
    · rename_i cell hr
      cases h
      rw [Machine.topWord, Mode.eq_of_resolve hr]
    · cases h

/-- What is popped is the word that the stack pointer selected before. -/
theorem eq_topWord_of_pop {word : Word} {m' : Machine} (h : pop m = .ok word m') :
    word = m.topWord := by
  simp only [pop, bind, EStateM.bind] at h
  cases ht : top m with
  | ok value m₁ =>
      rw [ht] at h
      cases h
      exact eq_topWord_of_top ht
  | error cause m₁ => simp [ht] at h

theorem spends_frameAddress : Spends frameAddress m (1, 0) :=
  spends_bind spends_fetch fun _ _ _ => spends_get_bind (spends_pure _)

/-! ### Instructions -/

theorem spends_combine (operation : Int16 → Int16 → Except FaultCause Int16) :
    Spends (combine operation) m (2, 1) := by
  refine spends_bind spends_pop fun right _ _ => spends_bind spends_pop fun left m' _ => ?_
  cases operation left.signed right.signed with
  | ok value => exact spends_push _
  | error cause => exact spends_throw cause (0, 1)

theorem spends_call : Spends call m (1, 2) := by
  refine spends_bind spends_fetch fun target _ _ => spends_get_bind ?_
  refine spends_bind (spends_push _) fun _ _ _ => spends_get_bind ?_
  exact spends_bind (spends_push _) fun _ _ _ => spends_modify rfl

theorem spends_ret : Spends ret m (4, 1) := by
  refine spends_bind spends_frameAddress fun slot _ _ => ?_
  refine spends_bind spends_pop fun value _ _ => ?_
  refine spends_bind (spends_modify rfl) fun _ _ _ => ?_
  refine spends_bind spends_pop fun fp _ _ => ?_
  refine spends_bind (spends_modify rfl) fun _ _ _ => ?_
  refine spends_bind spends_pop fun pc _ _ => ?_
  exact spends_bind (spends_modify rfl) fun _ _ _ => spends_writeCell slot value

/-- Whether the operand is read depends on the word that is popped. -/
theorem spends_jumpIfZero : Spends jumpIfZero m (if m.topWord = 0 then (2, 0) else (1, 0)) := by
  refine spends_bind spends_pop (fun word m' h => ?_) (by split <;> decide)
  rw [eq_topWord_of_pop h]
  by_cases hz : m.topWord = 0
  · rw [if_pos hz, if_pos hz]
    exact spends_bind spends_fetch fun target _ _ => spends_modify rfl
  · rw [if_neg hz, if_neg hz]
    exact spends_modify rfl

theorem spends_ofOpcode (op : Opcode) : Spends (ofOpcode op) m (op.charge m.topWord - (1, 0)) := by
  cases op with
  | halt =>
      change Spends _ m (1, 0)
      exact spends_bind spends_top fun _ _ _ => spends_modify rfl
  | nop => exact spends_pure ()
  | prints => exact spends_pure ()
  | add => exact spends_combine fun left right => .ok (left + right)
  | sub => exact spends_combine fun left right => .ok (left - right)
  | mult => exact spends_combine fun left right => .ok (left * right)
  | div => exact spends_combine divide
  | call => exact spends_call
  | ret => exact spends_ret
  | jmp =>
      change Spends _ m (1, 0)
      exact spends_bind spends_fetch fun _ _ _ => spends_modify rfl
  | jeq =>
      have hc : Opcode.jeq.charge m.topWord - (1, 0) =
          if m.topWord = 0 then (2, 0) else (1, 0) := by
        simp only [Opcode.charge]
        split <;> rfl
      rw [hc]
      exact spends_jumpIfZero
  | printi =>
      change Spends _ m (1, 0)
      exact spends_bind spends_pop fun _ _ _ => spends_print _
  | pushc =>
      change Spends _ m (1, 1)
      exact spends_bind spends_fetch fun _ _ _ => spends_push _
  | pusha =>
      change Spends _ m (2, 1)
      refine spends_bind spends_fetch fun address _ _ => ?_
      exact spends_bind (spends_readCell _) fun _ _ _ => spends_push _
  | pushr =>
      change Spends _ m (2, 1)
      refine spends_bind spends_frameAddress fun address _ _ => ?_
      exact spends_bind (spends_readCell _) fun _ _ _ => spends_push _
  | popa =>
      change Spends _ m (2, 1)
      refine spends_bind spends_fetch fun address _ _ => ?_
      exact spends_bind spends_pop fun _ _ _ => spends_writeCell _ _
  | popr =>
      change Spends _ m (2, 1)
      refine spends_bind spends_frameAddress fun address _ _ => ?_
      exact spends_bind spends_pop fun _ _ _ => spends_writeCell _ _

end Action

/-! ### Steps -/

namespace Machine

/-- The traffic of the next instruction; a word that is no opcode is only fetched. -/
def charge (m : Machine) : Charge :=
  match Opcode.ofWord? m.opcodeWord with
  | some op => op.charge m.topWord
  | none => (1, 0)

/-- The most that the opcode of the next instruction can add. -/
def chargeLimit (m : Machine) : Charge :=
  match Opcode.ofWord? m.opcodeWord with
  | some op => op.charge 0
  | none => (1, 0)

theorem charge_le (m : Machine) : m.charge ≤ m.chargeLimit := by
  unfold charge chargeLimit
  cases Opcode.ofWord? m.opcodeWord with
  | some op => exact op.charge_le m.topWord
  | none => exact le_rfl

theorem fetch_le_charge (m : Machine) : (1, 0) ≤ m.charge := by
  unfold charge
  cases Opcode.ofWord? m.opcodeWord with
  | some op => exact op.fetch_le_charge m.topWord
  | none => exact le_rfl

/-- An illegal instruction has spent what it will spend when it faults. -/
theorem spends_ofWord (m : Machine) :
    (Action.ofWord m.opcodeWord).Spends m.fetched (m.charge - (1, 0)) := by
  rw [Action.ofWord, charge]
  cases Opcode.ofWord? m.opcodeWord with
  | some op => exact Action.spends_ofOpcode op
  | none =>
      refine Action.spends_get_bind ?_
      split
      · exact Action.spends_throw _ _
      · exact Action.spends_pure ()

theorem step_spends {m : Machine} (h : m.halted = none) :
    Meets step m (fun _ m' => m'.memory.traffic = m.memory.traffic.charged m.charge)
      fun _ m' => ∃ part ≤ m.charge, m'.memory.traffic = m.memory.traffic.charged part := by
  have hf : m.fetched.memory.traffic = m.memory.traffic.charged (1, 0) := rfl
  have hc : (1, 0) + (m.charge - (1, 0)) = m.charge := add_tsub_cancel_of_le m.fetch_le_charge
  refine (meets_step h).mpr ⟨fun _ => ?_, fun _ => ⟨(1, 0), m.fetch_le_charge, rfl⟩⟩
  refine m.spends_ofWord.mono (fun _ m' hm => ?_) fun _ m' hm => ?_
  · rw [hm, hf, ← Traffic.charged_add, hc]
  · obtain ⟨part, hp, hm⟩ := hm
    refine ⟨(1, 0) + part, ?_, by rw [hm, hf, Traffic.charged_add]⟩
    rw [← hc]
    gcongr

/-- A step that cannot fetch its instruction has tried to read once. -/
theorem step_unfetched {m : Machine} (h : m.halted = none)
    (hr : m.memory.mode.resolve m.pc = none) :
    m.step = .error ⟨m.pc, none, .address m.pc⟩ { m with memory := m.memory.countRead } := by
  simp only [step, h, Action.fetch_apply, hr]

end Machine

end CoolMachine
