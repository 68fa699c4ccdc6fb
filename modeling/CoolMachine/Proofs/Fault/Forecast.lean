import CoolMachine.Proofs.Fault.Hazard
import CoolMachine.Proofs.Machine.Accesses

/-! Faults in both modes. Where addresses wrap no access and no stack can fail, so only a division
by zero and a stream that is full are left; in hardened mode the hazard of a machine is the fault
of its next step. -/

namespace CoolMachine

namespace Action

variable {α β : Type}

/-- In compatible mode the action has no fault, and leaves the machine in that mode. -/
def Unfailing (x : Action α) : Prop :=
  ∀ m, m.memory.mode = .compatible →
    Meets x m (fun _ m' => m'.memory.mode = .compatible) fun _ _ => False

theorem unfailing_pure (a : α) : Unfailing (pure a) := fun _ h => h

theorem unfailing_modify {f : Machine → Machine} (h : ∀ m, (f m).memory.mode = m.memory.mode) :
    Unfailing (modify f) :=
  fun m hm => (h m).trans hm

theorem unfailing_bind {x : Action α} {f : α → Action β} (hx : Unfailing x)
    (hf : ∀ a, Unfailing (f a)) : Unfailing (x >>= f) := by
  intro m hm
  rw [meets_bind]
  exact (hx m hm).mono (fun a m' hm' => hf a m' hm') fun _ _ h => h

theorem unfailing_get_bind {k : Machine → Action α} (h : ∀ m, Unfailing (k m)) :
    Unfailing (get >>= k) :=
  fun m hm => h m m hm

theorem unfailing_readCell (address : Register) : Unfailing (readCell address) := by
  intro m hm
  rw [meets_readCell, hm]
  exact ⟨fun _ => hm, fun h => absurd h (Option.some_ne_none _)⟩

theorem unfailing_writeCell (address : Register) (value : Word) :
    Unfailing (writeCell address value) := by
  intro m hm
  rw [meets_writeCell, hm]
  exact ⟨fun _ => hm, fun h => absurd h (Option.some_ne_none _)⟩

theorem unfailing_push (value : Word) : Unfailing (push value) := by
  intro m hm
  rw [meets_push]
  refine ⟨fun h => ?_, fun _ => unfailing_writeCell _ value _ hm⟩
  rw [hm] at h
  cases h.1

theorem unfailing_top : Unfailing top := by
  intro m hm
  rw [meets_top]
  refine ⟨fun h => ?_, fun _ => unfailing_readCell m.sp m hm⟩
  rw [hm] at h
  cases h.1

theorem unfailing_fetch : Unfailing fetch :=
  unfailing_get_bind fun m => unfailing_bind (unfailing_readCell m.pc) fun word =>
    unfailing_bind (unfailing_modify fun _ => rfl) fun _ => unfailing_pure word

theorem unfailing_pop : Unfailing pop :=
  unfailing_bind unfailing_top fun word =>
    unfailing_bind (unfailing_modify fun _ => rfl) fun _ => unfailing_pure word

theorem unfailing_frameAddress : Unfailing frameAddress :=
  unfailing_bind unfailing_fetch fun _ => unfailing_get_bind fun _ => unfailing_pure _

theorem unfailing_combine (operation : Int16 → Int16 → Int16) :
    Unfailing (combine fun left right => .ok (operation left right)) :=
  unfailing_bind unfailing_pop fun _ => unfailing_bind unfailing_pop fun _ => unfailing_push _

theorem unfailing_call : Unfailing call := by
  refine unfailing_bind unfailing_fetch fun target => unfailing_get_bind fun m => ?_
  refine unfailing_bind (unfailing_push _) fun _ => unfailing_get_bind fun m => ?_
  exact unfailing_bind (unfailing_push _) fun _ => unfailing_modify fun _ => rfl

theorem unfailing_ret : Unfailing ret := by
  refine unfailing_bind unfailing_frameAddress fun slot => ?_
  refine unfailing_bind unfailing_pop fun value => ?_
  refine unfailing_bind (unfailing_modify fun _ => rfl) fun _ => ?_
  refine unfailing_bind unfailing_pop fun fp => ?_
  refine unfailing_bind (unfailing_modify fun _ => rfl) fun _ => ?_
  refine unfailing_bind unfailing_pop fun pc => ?_
  exact unfailing_bind (unfailing_modify fun _ => rfl) fun _ => unfailing_writeCell slot value

theorem unfailing_jumpIfZero : Unfailing jumpIfZero := by
  refine unfailing_bind unfailing_pop fun word => ?_
  by_cases hz : word = 0
  · rw [if_pos hz]
    exact unfailing_bind unfailing_fetch fun _ => unfailing_modify fun _ => rfl
  · rw [if_neg hz]
    exact unfailing_modify fun _ => rfl

/-- Only a division and a printed number can fail. -/
theorem unfailing_ofOpcode {op : Opcode} (hd : op ≠ .div) (hp : op ≠ .printi) :
    Unfailing (ofOpcode op) := by
  cases op with
  | halt => exact unfailing_bind unfailing_top fun _ => unfailing_modify fun _ => rfl
  | nop => exact unfailing_pure ()
  | prints => exact unfailing_pure ()
  | add => exact unfailing_combine (· + ·)
  | sub => exact unfailing_combine (· - ·)
  | mult => exact unfailing_combine (· * ·)
  | div => exact absurd rfl hd
  | call => exact unfailing_call
  | ret => exact unfailing_ret
  | jmp => exact unfailing_bind unfailing_fetch fun _ => unfailing_modify fun _ => rfl
  | jeq => exact unfailing_jumpIfZero
  | printi => exact absurd rfl hp
  | pushc => exact unfailing_bind unfailing_fetch fun _ => unfailing_push _
  | pusha =>
      refine unfailing_bind unfailing_fetch fun address => ?_
      exact unfailing_bind (unfailing_readCell _) fun _ => unfailing_push _
  | pushr =>
      refine unfailing_bind unfailing_frameAddress fun address => ?_
      exact unfailing_bind (unfailing_readCell _) fun _ => unfailing_push _
  | popa =>
      refine unfailing_bind unfailing_fetch fun address => ?_
      exact unfailing_bind unfailing_pop fun _ => unfailing_writeCell _ _
  | popr =>
      refine unfailing_bind unfailing_frameAddress fun address => ?_
      exact unfailing_bind unfailing_pop fun _ => unfailing_writeCell _ _

/-- A pop in compatible mode takes the word that the stack pointer selects, wherever that is. -/
theorem meets_pop_compatible {m : Machine} (hm : m.memory.mode = .compatible)
    {after : Word → Machine → Prop} {failed : FaultCause → Machine → Prop} :
    Meets pop m after failed ↔
      after m.topWord { m with sp := m.sp + 1, memory := m.memory.countRead } := by
  rw [meets_pop, meets_top, meets_readCell, hm]
  simp [Mode.resolve, Machine.topWord]

end Action

namespace Machine

/-- What an instruction faults with in compatible mode, if it faults. -/
def wrappedHazardOf (m : Machine) : Opcode → Option FaultCause
  | .div => raise (m.topWord = 0) .arithmetic
  | .printi => raise (m.out.refuses (Decimal.ofInt m.topWord.signed.toInt)) (.output .full)
  | _ => none

/-- What the next step faults with in compatible mode; words that are no opcodes do nothing. -/
def wrappedHazard (m : Machine) : Option FaultCause :=
  (Opcode.ofWord? m.opcodeWord).bind m.wrappedHazardOf

section Compatible

variable {m : Machine}

theorem meets_div_compatible (hm : m.memory.mode = .compatible) :
    Meets (Action.ofOpcode .div) m (fun _ _ => m.wrappedHazardOf .div = none)
      fun cause _ => m.wrappedHazardOf .div = some cause := by
  have hm₁ : ({ m with sp := m.sp + 1, memory := m.memory.countRead } : Machine).memory.mode =
    .compatible := hm
  simp only [Action.ofOpcode, Action.combine, meets_bind]
  rw [Action.meets_pop_compatible hm, Action.meets_pop_compatible hm₁]
  by_cases hz : m.topWord = 0
  · rw [Action.divide, if_pos ((Word.signed_eq_zero_iff m.topWord).mpr hz)]
    exact raise_eq_some.mpr ⟨hz, rfl⟩
  · rw [Action.divide, if_neg fun h => hz ((Word.signed_eq_zero_iff m.topWord).mp h)]
    have hnone : m.wrappedHazardOf .div = none := raise_eq_none.mpr hz
    rw [hnone]
    refine Meets.mono (Action.unfailing_push _ _ ?_) (fun _ _ _ => rfl) fun _ _ h => h.elim
    exact hm

theorem meets_printi_compatible (hm : m.memory.mode = .compatible) :
    Meets (Action.ofOpcode .printi) m (fun _ _ => m.wrappedHazardOf .printi = none)
      fun cause _ => m.wrappedHazardOf .printi = some cause := by
  simp only [Action.ofOpcode, meets_bind]
  rw [Action.meets_pop_compatible hm, Action.meets_print]
  refine Sink.meets_write (fun ha _ => ?_) fun hf _ => ?_
  · exact raise_eq_none.mpr (Bool.eq_false_iff.mp ha)
  · exact raise_eq_some.mpr ⟨hf, rfl⟩

theorem meets_ofOpcode_compatible (hm : m.memory.mode = .compatible) (op : Opcode) :
    Meets (Action.ofOpcode op) m (fun _ _ => m.wrappedHazardOf op = none)
      fun cause _ => m.wrappedHazardOf op = some cause := by
  by_cases hd : op = .div
  · rw [hd]
    exact meets_div_compatible hm
  · by_cases hp : op = .printi
    · rw [hp]
      exact meets_printi_compatible hm
    · have hnone : m.wrappedHazardOf op = none := by
        cases op with
        | div => contradiction
        | printi => contradiction
        | _ => rfl
      rw [hnone]
      exact (Action.unfailing_ofOpcode hd hp m hm).mono (fun _ _ _ => rfl) fun _ _ h => h.elim

theorem meets_step_compatible (hm : m.memory.mode = .compatible) (hh : m.halted = none) :
    Meets step m (fun _ _ => m.wrappedHazard = none)
      fun fault _ => m.wrappedHazard = some fault.cause := by
  refine (meets_step hh).mpr ⟨fun _ => ?_, fun h => ?_⟩
  · rw [Action.ofWord, wrappedHazard]
    cases Opcode.ofWord? m.opcodeWord with
    | some op => exact meets_ofOpcode_compatible (m := m.fetched) hm op
    | none =>
        have hmode : m.fetched.memory.mode ≠ .hardened := by
          rw [show m.fetched.memory.mode = .compatible from hm]
          decide
        simp only [meets_bind, meets_get, if_neg hmode, meets_pure, Option.bind_none]
  · rw [hm] at h
    cases h

end Compatible

/-- A step faults exactly if a check fails, and with the cause of the first that does. In hardened
mode the checks are those of its instruction, as long as no fault has moved the registers; in
compatible mode only a division by zero and a full stream are left, wherever the registers are. -/
theorem steps_fault_as_foretold :
    (∀ m : Machine, m.memory.mode = .hardened → m.halted = none → m.ideal.InRange →
      m.ideal.Level →
      Meets step m (fun _ _ => m.ideal.hazard = none)
        fun fault _ => ∃ purpose, m.ideal.hazard = some (fault.cause.ideal purpose)) ∧
    (∀ m, Undisturbed .hardened m → m.ideal.InRange ∧ m.ideal.Level) ∧
    ∀ m : Machine, m.memory.mode = .compatible → m.halted = none →
      Meets step m (fun _ _ => m.wrappedHazard = none)
        fun fault _ => m.wrappedHazard = some fault.cause := by
  refine ⟨fun m hm hh hr hl => ?_, fun m hm => ⟨hm.reachable.bounded.range, hm.level⟩,
    fun m hm hh => meets_step_compatible hm hh⟩
  have hforetold := Ideal.meets_step_hazard (e := m.ideal) hh hr hl
  have hb : m.Bounded := ⟨hm, hr⟩
  refine (meets_step_ideal hm hb.frameSafe).mono ?_ ?_
  · rintro result m' ⟨-, hs⟩
    exact hforetold.of_ok hs
  · rintro fault m' ⟨-, purpose, hs⟩
    exact ⟨purpose, hforetold.of_error hs⟩

/-- A word has been pushed and is about to be stored just below the outermost frame. -/
def beforeStrayPop (mode : Mode) : Machine :=
  (((powerOn mode {}).perform (.load [12, 1, 16, 0xFFFF])).2.perform .step).2

theorem steps_fault_as_foretold_stray_pop :
    Undisturbed .hardened (beforeStrayPop .hardened) ∧
    (beforeStrayPop .hardened).halted = none ∧
    (beforeStrayPop .hardened).ideal.InRange ∧ (beforeStrayPop .hardened).ideal.Level ∧
    (beforeStrayPop .hardened).step = .error ⟨2, some (16, some 0xFFFF), .address (-1)⟩
      ((beforeStrayPop .hardened).perform .step).2 ∧
    (∃ purpose, (beforeStrayPop .hardened).ideal.hazard =
      some (FaultCause.ideal purpose (.address (-1)))) ∧
    (beforeStrayPop .hardened).ideal.hazard = some (.address .frame (-1)) ∧
    (beforeStrayPop .compatible).step = .ok none ((beforeStrayPop .compatible).perform .step).2 ∧
    (beforeStrayPop .compatible).wrappedHazard = none := by
  have hu : Undisturbed .hardened (beforeStrayPop .hardened) :=
    .perform .step (.perform (.load [12, 1, 16, 0xFFFF]) (.powerOn {}) rfl) rfl
  obtain ⟨hardened, undisturbed, compatible⟩ := steps_fault_as_foretold
  obtain ⟨hr, hl⟩ := undisturbed _ hu
  have hs : (beforeStrayPop .hardened).step =
      .error ⟨2, some (16, some 0xFFFF), .address (-1)⟩
        ((beforeStrayPop .hardened).perform .step).2 := rfl
  have hs' : (beforeStrayPop .compatible).step =
      .ok none ((beforeStrayPop .compatible).perform .step).2 := rfl
  exact ⟨hu, rfl, hr, hl, hs, (hardened _ rfl rfl hr hl).of_error hs, rfl, hs',
    (compatible _ rfl rfl).of_ok hs'⟩

end Machine

end CoolMachine
