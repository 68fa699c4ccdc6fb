import CoolMachine.Proofs.Machine.Control
import CoolMachine.Proofs.Machine.Flow

/-! The instructions that a run begins. An instruction counts as soon as its first word has been
fetched, whether it then succeeds or faults, and the only one that ends a run with a result is the
halt. -/

namespace CoolMachine

theorem meets_true {ε σ α : Type} (x : EStateM ε σ α) (s : σ) :
    Meets x s (fun _ _ => True) fun _ _ => True := by
  unfold Meets
  split <;> trivial

/-! ### The states that runs lead to -/

namespace Run

variable {ε σ α : Type}

theorem state_upTo_succ (x : EStateM ε σ (Option α)) (limit done : Nat) (s : σ) :
    (upTo x (limit + 1) done s).state =
      match x s with
      | .ok none s' => (upTo x limit (done + 1) s').state
      | result => result.state := by
  rw [upTo]
  split <;> simp_all [EStateM.Result.state]

theorem state_untilResult (x : EStateM ε σ (Option α)) (bound : Nat) (s : σ) :
    (untilResult x bound s).state = (upTo x bound 0 s).state := by
  rw [untilResult_eq_upTo x bound 0]
  simp only [Functor.map, EStateM.map]
  cases upTo x bound 0 s <;> rfl

/-- A single step is a run as well. -/
theorem state_upTo_one (x : EStateM ε σ (Option α)) (s : σ) :
    (upTo x 1 0 s).state = (x s).state := by
  rw [state_upTo_succ]
  cases x s with
  | ok result s' => cases result <;> rfl
  | error e s' => rfl

end Run

/-! ### Results -/

namespace Action

theorem halted_combine (operation : Int16 → Int16 → Except FaultCause Int16) (m : Machine) :
    Meets (combine operation) m (fun _ m' => m'.halted = m.halted) fun _ _ => True := by
  simp only [combine, meets_bind, meets_pop, meets_top, meets_readCell, implies_true, and_true,
    true_and]
  intro _ _ _ _
  cases operation _ _ with
  | error cause => trivial
  | ok value => simp

/-- No instruction but the halt gives the machine a result. -/
theorem halted_ofOpcode {op : Opcode} (h : op ≠ .halt) (m : Machine) :
    Meets (ofOpcode op) m (fun _ m' => m'.halted = m.halted) fun _ _ => True := by
  cases op with
  | halt => exact absurd rfl h
  | nop => rfl
  | prints => rfl
  | add => exact halted_combine (fun left right => .ok (left + right)) m
  | sub => exact halted_combine (fun left right => .ok (left - right)) m
  | mult => exact halted_combine (fun left right => .ok (left * right)) m
  | div => exact halted_combine divide m
  | call => simp [ofOpcode, call]
  | ret => simp [ofOpcode, ret]
  | jmp => simp [ofOpcode]
  | jeq =>
      simp only [ofOpcode, jumpIfZero, meets_bind, meets_pop, meets_top, meets_readCell, meets_ite]
      simp
  | printi =>
      simp only [ofOpcode, meets_bind, meets_pop, meets_top, meets_readCell, meets_print,
        implies_true, and_true, true_and]
      exact fun _ _ => meets_true _ _
  | pushc => simp [ofOpcode]
  | pusha => simp [ofOpcode]
  | pushr => simp [ofOpcode]
  | popa => simp [ofOpcode]
  | popr => simp [ofOpcode]

theorem halted_halt (m : Machine) :
    Meets halt m (fun _ m' => m'.halted ≠ none) fun _ _ => True := by
  simp [halt]

/-- A word that is no opcode leaves the machine without a result, too. -/
theorem halted_ofWord {word : Word} (h : Opcode.ofWord? word ≠ some .halt) (m : Machine) :
    Meets (ofWord word) m (fun _ m' => m'.halted = m.halted) fun _ _ => True := by
  rw [ofWord]
  cases ho : Opcode.ofWord? word with
  | some op => exact halted_ofOpcode (fun hop => h (ho.trans (congrArg some hop))) m
  | none =>
      rw [meets_bind, meets_get, meets_ite]
      split <;> trivial

end Action

namespace Machine

/-- The next step fetches an instruction word. -/
def Begins (m : Machine) : Prop := m.halted = none ∧ m.memory.mode.resolve m.pc ≠ none

instance (m : Machine) : Decidable m.Begins := inferInstanceAs (Decidable (_ ∧ _))

/-- The next step is a halt that finds its result. -/
def Stops (m : Machine) : Prop := m.opcode? = some .halt ∧ m.step.answer.isOk

instance (m : Machine) : Decidable m.Stops := inferInstanceAs (Decidable (_ ∧ _))

/-- The machines from which a run of at most so many steps fetches an instruction word, in order. -/
def begun : Nat → Machine → List Machine
  | 0, _ => []
  | limit + 1, m =>
    if m.Begins then
      m ::
        match m.step with
        | .ok none m' => begun limit m'
        | _ => []
    else []

section

variable {m m' : Machine}

theorem step_of_not_begins (h : ¬ m.Begins) :
    (∃ result, m.step = .ok (some result) m) ∨
      ∃ fault, m.step = .error fault { m with memory := m.memory.countRead } := by
  by_cases hh : m.halted = none
  · have hr : m.memory.mode.resolve m.pc = none := Decidable.of_not_not fun hr => h ⟨hh, hr⟩
    exact .inr ⟨_, by rw [step_of_running hh, hr]⟩
  · obtain ⟨result, hresult⟩ := Option.ne_none_iff_exists'.mp hh
    exact .inl ⟨result, step_of_halted hresult⟩

/-- Beginning an instruction counts it, whatever becomes of it. -/
theorem executed_state_step (m : Machine) :
    m.step.state.executed = m.executed + if m.Begins then 1 else 0 := by
  by_cases h : m.Begins
  · rw [if_pos h]
    refine (meets_state (I := fun m' => m'.executed = m.executed + 1)).mp
      ((meets_step h.1).mpr ⟨fun _ => ?_, fun hr => absurd hr h.2⟩)
    exact (Action.executed_ofWord m.opcodeWord m.fetched).mono (fun _ _ => id) fun _ _ => id
  · rw [if_neg h]
    obtain ⟨result, hs⟩ | ⟨fault, hs⟩ := step_of_not_begins h <;> rw [hs] <;> rfl

theorem begins_of_step (hs : m.step = .ok none m') : m.Begins := by
  by_contra h
  obtain ⟨result, hs'⟩ | ⟨fault, hs'⟩ := step_of_not_begins h <;> rw [hs'] at hs <;> cases hs

/-- A machine comes to its result by a halt, and by nothing else. -/
theorem stops_iff {result : Option Word} (hs : m.step = .ok result m') :
    m.halted = none ∧ m'.halted ≠ none ↔ m.Stops := by
  have hok : m.step.answer.isOk = true := by rw [hs]; rfl
  constructor
  · rintro ⟨hh, hne⟩
    have hopcode : m.opcode? = Opcode.ofWord? m.opcodeWord := by simp only [opcode?, hh]
    by_contra hstops
    have hop : Opcode.ofWord? m.opcodeWord ≠ some .halt := fun h =>
      hstops ⟨hopcode.trans h, hok⟩
    have hkeeps : Meets step m (fun _ m' => m'.halted = none) fun _ _ => True := by
      refine (meets_step hh).mpr ⟨fun _ => ?_, fun _ => trivial⟩
      exact (Action.halted_ofWord hop m.fetched).mono (fun _ _ hm => hm.trans hh) fun _ _ => id
    exact hne (hkeeps.of_ok hs)
  · intro h
    refine ⟨?_, of_step_of_opcode h.1 (Action.halted_halt m.fetched) hs⟩
    by_contra hh
    obtain ⟨word, hword⟩ := Option.ne_none_iff_exists'.mp hh
    have hop := h.1
    simp only [opcode?, hword, reduceCtorEq] at hop

theorem not_stops_of_error {fault : Fault} (hs : m.step = .error fault m') : ¬ m.Stops := by
  intro h
  have hok := h.2
  rw [hs] at hok
  cases hok

theorem Stops.begins (h : m.Stops) : m.Begins := by
  by_contra hb
  obtain ⟨result, hs⟩ | ⟨fault, hs⟩ := step_of_not_begins hb
  · obtain ⟨hh, hne⟩ := (stops_iff hs).mpr h
    exact hne hh
  · exact not_stops_of_error hs h

/-! ### Runs -/

theorem begun_of_not_begins (h : ¬ m.Begins) (limit : Nat) : m.begun limit = [] := by
  cases limit with
  | zero => rfl
  | succ limit => rw [begun, if_neg h]

theorem begun_succ_of_step (hs : m.step = .ok none m') (limit : Nat) :
    m.begun (limit + 1) = m :: m'.begun limit := by
  rw [begun, if_pos (begins_of_step hs), hs]

theorem begun_succ_of_ended (h : m.Begins) (hs : ∀ m', m.step ≠ .ok none m') (limit : Nat) :
    m.begun (limit + 1) = [m] := by
  rw [begun, if_pos h]
  split
  · next m' hs' => exact absurd hs' (hs m')
  · rfl

/-- The instructions that a run begins are those that it counts, each at its own count. -/
structure Counts (before : Machine) (begun : List Machine) (after : Machine) : Prop where
  executed_eq : after.executed = before.executed + begun.length
  one_by_one : begun.map executed = List.range' before.executed begun.length

theorem Counts.nil (m : Machine) : Counts m [] m := ⟨rfl, rfl⟩

theorem Counts.append {first second third : Machine} {begun begun' : List Machine}
    (h : Counts first begun second) (h' : Counts second begun' third) :
    Counts first (begun ++ begun') third where
  executed_eq := by
    rw [h'.executed_eq, h.executed_eq, List.length_append, Nat.add_assoc]
  one_by_one := by
    rw [List.map_append, h.one_by_one, h'.one_by_one, h.executed_eq, List.length_append,
      List.range'_append_1]

theorem counts_step (m : Machine) : Counts m (if m.Begins then [m] else []) m.step.state where
  executed_eq := by
    rw [executed_state_step]
    split <;> rfl
  one_by_one := by split <;> rfl

theorem counts_upTo (m : Machine) (limit done : Nat) :
    Counts m (m.begun limit) (Run.upTo step limit done m).state := by
  induction limit generalizing m done with
  | zero => exact .nil m
  | succ limit ih =>
      have hstep := counts_step m
      rw [Run.state_upTo_succ]
      split
      · next m' hs =>
          rw [hs, if_pos (begins_of_step hs)] at hstep
          rw [begun_succ_of_step hs]
          exact hstep.append (ih m' (done + 1))
      · next hs =>
          by_cases hb : m.Begins
          · rw [if_pos hb] at hstep
            rwa [begun_succ_of_ended hb hs]
          · rw [if_neg hb] at hstep
            rwa [begun_of_not_begins hb]

end

theorem state_runFor (m : Machine) (limit : Nat) :
    (m.runFor limit).state = (Run.upTo step limit 0 m).state := by
  cases h : m.halted with
  | none => rw [runFor_of_running h]
  | some result =>
      rw [runFor_of_halted h]
      cases limit with
      | zero => rfl
      | succ limit =>
          rw [Run.state_upTo_succ, step_of_halted h]
          rfl

end Machine

/-! ### Operations -/

/-- The number of steps that an operation takes at most, if it takes any. -/
def Operation.limit? : Operation → Option Nat
  | .load _ | .reset | .attach _ => none
  | .step => some 1
  | .advance limit => some limit
  | .runToHalt => some Run.endless

namespace Machine

/-- The machines from which an operation fetches an instruction word, in order. -/
def begunBy (m : Machine) (op : Operation) : List Machine :=
  match op.limit? with
  | some limit => m.begun limit
  | none => []

theorem outcome_snd {α : Type} (result : EStateM.Result Fault Machine α) :
    (Operation.outcome result).2 = result.state := by
  cases result <;> rfl

theorem perform_of_limit {op : Operation} {limit : Nat} (h : op.limit? = some limit)
    (m : Machine) : (m.perform op).2 = (Run.upTo step limit 0 m).state := by
  cases op with
  | load | reset | attach => cases h
  | step =>
      cases h
      rw [perform, outcome_snd, Run.state_upTo_one]
  | advance limit =>
      cases h
      rw [perform, outcome_snd, state_runFor]
  | runToHalt =>
      cases h
      rw [perform, outcome_snd, runToHalt, Run.state_untilResult]

/-- Nothing but a reset takes the count of instructions back. -/
theorem counts_perform {op : Operation} (h : op ≠ .reset) (m : Machine) :
    Counts m (m.begunBy op) (m.perform op).2 := by
  cases hl : op.limit? with
  | some limit =>
      rw [perform_of_limit hl, begunBy, hl]
      exact counts_upTo m limit 0
  | none =>
      cases op with
      | reset => exact absurd rfl h
      | attach out => exact ⟨rfl, rfl⟩
      | step | advance | runToHalt => cases hl
      | load image =>
          rw [perform]
          split
          · next m' hload =>
              obtain ⟨memory, -, rfl⟩ := load_eq_ok hload
              exact ⟨rfl, rfl⟩
          · exact .nil m

end Machine

end CoolMachine
