import Mathlib.Order.Bounds.Basic
import CoolMachine.Proofs.Machine.Operation
import CoolMachine.Proofs.Machine.Silence

/-! The ways to let a machine run. A bounded run can be cut short and gone on with, and a run
without a limit is every bounded run that is long enough; a machine that has halted rests until it
is reset. -/

namespace CoolMachine

/-- The progress of a run that goes on after so many steps. -/
def Progress.after {α : Type} (before : Nat) (progress : Progress α) : Progress α :=
  ⟨before + progress.steps, progress.result⟩

namespace Run

variable {ε σ α : Type}

/-- The run has come to a result or to an error; it has not merely been cut short. -/
def Ended : EStateM.Result ε σ (Progress α) → Prop
  | .ok progress _ => progress.result ≠ none
  | .error _ _ => True

/-- Goes on where a run was cut short. -/
def resume (x : EStateM ε σ (Option α)) (limit : Nat) (progress : Progress α) :
    EStateM ε σ (Progress α) :=
  match progress.result with
  | some _ => pure progress
  | none => upTo x limit progress.steps

/-- A run in two parts is the run of both lengths together. -/
theorem upTo_add (x : EStateM ε σ (Option α)) (first second done : Nat) :
    upTo x (first + second) done = upTo x first done >>= resume x second := by
  induction first generalizing done with
  | zero =>
      rw [Nat.zero_add]
      rfl
  | succ first ih =>
      rw [Nat.add_right_comm, upTo_succ, upTo_succ, bind_assoc]
      refine bind_congr fun result => ?_
      cases result with
      | none => exact ih (done + 1)
      | some result => rfl

/-- Steps taken before only add to the count. -/
theorem upTo_after (x : EStateM ε σ (Option α)) (limit before done : Nat) :
    upTo x limit (before + done) = Progress.after before <$> upTo x limit done := by
  induction limit generalizing done with
  | zero => rfl
  | succ limit ih =>
      rw [upTo_succ, upTo_succ, map_bind]
      refine bind_congr fun result => ?_
      cases result with
      | none => exact ih (done + 1)
      | some result => rfl

theorem untilResult_eq_upTo (x : EStateM ε σ (Option α)) (bound done : Nat) :
    untilResult x bound = Progress.result <$> upTo x bound done := by
  induction bound generalizing done with
  | zero => rfl
  | succ bound ih =>
      rw [upTo_succ, untilResult_succ, map_bind]
      refine bind_congr fun result => ?_
      cases result with
      | none => exact ih (done + 1)
      | some result => rfl

/-- A run that has been cut short has taken all the steps that it was allowed. -/
theorem steps_of_upTo {x : EStateM ε σ (Option α)} {limit done : Nat} {s s' : σ}
    {progress : Progress α} (h : upTo x limit done s = .ok progress s')
    (hp : progress.result = none) : progress.steps = done + limit := by
  induction limit generalizing done s with
  | zero =>
      cases h
      rfl
  | succ limit ih =>
      rw [upTo_succ] at h
      simp only [bind, EStateM.bind] at h
      cases hs : x s with
      | error e s₁ => simp [hs] at h
      | ok result s₁ =>
          rw [hs] at h
          cases result with
          | none => rw [ih h, Nat.add_right_comm, Nat.add_assoc]
          | some result =>
              cases h
              cases hp

end Run

/-! ### Machines -/

namespace Machine

theorem runFor_of_running {m : Machine} (h : m.halted = none) (limit : Nat) :
    m.runFor limit = Run.upTo step limit 0 m := by
  simp only [runFor, h]

/-- A run answers the result that it leaves, and its steps are the instructions executed. -/
theorem meets_upTo_step {m : Machine} (h : m.halted = none) (limit done : Nat) :
    Meets (Run.upTo step limit done) m
      (fun progress m' => m'.halted = progress.result ∧
        m'.executed + done = m.executed + progress.steps) fun _ _ => True := by
  induction limit generalizing m done with
  | zero => exact ⟨h, rfl⟩
  | succ limit ih =>
      rw [Run.upTo_succ, meets_bind]
      unfold Meets
      cases hs : m.step with
      | error fault m₁ => trivial
      | ok result m₁ =>
          have hh := halted_step hs
          have he := executed_step h hs
          cases result with
          | some result => exact ⟨hh, by simp only [he]; omega⟩
          | none =>
              refine (ih hh (done + 1)).mono (fun progress m' hm => ⟨hm.1, ?_⟩) fun _ _ _ => trivial
              have hc := hm.2
              rw [he] at hc
              omega

/-- A run without a limit is one whose limit it does not reach. -/
theorem runToHalt_eq_runFor : runToHalt = Progress.result <$> runFor Run.endless := by
  funext m
  cases h : m.halted with
  | some result =>
      have hr : m.runFor Run.endless = .ok ⟨0, some result⟩ m := runFor_of_halted h _
      rw [runToHalt_of_halted h]
      simp only [Functor.map, EStateM.map, hr]
  | none =>
      have hr : m.runFor Run.endless = Run.upTo step Run.endless 0 m := runFor_of_running h _
      rw [runToHalt, Run.untilResult_eq_upTo step Run.endless 0]
      simp only [Functor.map, EStateM.map, hr]

/-- A run that has been cut short leaves a machine from which it can go on. -/
theorem of_runFor_limited {m m' : Machine} {limit : Nat} {progress : Progress Word}
    (h : m.runFor limit = .ok progress m') (hp : progress.result = none) :
    m.halted = none ∧ progress.steps = limit ∧ m'.halted = none ∧
      m'.executed = m.executed + limit := by
  have hh : m.halted = none := by
    cases hm : m.halted with
    | none => rfl
    | some result =>
        rw [runFor_of_halted hm] at h
        cases h
        cases hp
  rw [runFor_of_running hh] at h
  have hsteps : progress.steps = limit := by
    rw [Run.steps_of_upTo h hp, Nat.zero_add]
  obtain ⟨hhalted, hexecuted⟩ := (meets_upTo_step hh limit 0).of_ok h
  exact ⟨hh, hsteps, hhalted.trans hp, by omega⟩

theorem runFor_add_of_limited {m m' : Machine} {first : Nat} {progress : Progress Word}
    (h : m.runFor first = .ok progress m') (hp : progress.result = none) (second : Nat) :
    m.runFor (first + second) = (Progress.after first <$> runFor second) m' := by
  obtain ⟨hh, hsteps, hh', -⟩ := of_runFor_limited h hp
  have hsecond : m'.runFor second = Run.upTo step second 0 m' := runFor_of_running hh' second
  have hresume : Run.upTo step (first + second) 0 m = Run.resume step second progress m' := by
    rw [runFor_of_running hh] at h
    rw [Run.upTo_add]
    simp only [bind, EStateM.bind, h]
  calc m.runFor (first + second)
      = Run.resume step second progress m' := by rw [runFor_of_running hh, hresume]
    _ = Run.upTo step second first m' := by rw [Run.resume, hp, hsteps]
    _ = (Progress.after first <$> Run.upTo step second 0) m' := by
        rw [← Run.upTo_after, Nat.add_zero]
    _ = (Progress.after first <$> runFor second) m' := by
        simp only [Functor.map, EStateM.map, hsecond]

theorem runFor_add_of_ended {m : Machine} {first : Nat} (h : Run.Ended (m.runFor first))
    (second : Nat) : m.runFor (first + second) = m.runFor first := by
  cases hh : m.halted with
  | some result => rw [runFor_of_halted hh, runFor_of_halted hh]
  | none =>
      rw [runFor_of_running hh] at h
      rw [runFor_of_running hh, runFor_of_running hh, Run.upTo_add]
      simp only [bind, EStateM.bind]
      cases hr : Run.upTo step first 0 m with
      | error fault m' => rfl
      | ok progress m' =>
          rw [hr] at h
          obtain ⟨result, hresult⟩ := Option.ne_none_iff_exists'.mp h
          simp only [Run.resume, hresult]
          rfl

theorem runFor_of_ended {m : Machine} {k n : Nat} (h : Run.Ended (m.runFor k)) (hn : k ≤ n) :
    m.runFor n = m.runFor k := by
  obtain ⟨rest, rfl⟩ := Nat.exists_eq_add_of_le hn
  exact runFor_add_of_ended h rest

theorem runFor_of_not_ended {m : Machine} {k : Nat} (h : ¬ Run.Ended (m.runFor k)) :
    ∃ m', m.runFor k = .ok ⟨k, none⟩ m' := by
  cases hr : m.runFor k with
  | error fault m' =>
      rw [hr] at h
      exact absurd trivial h
  | ok progress m' =>
      rw [hr] at h
      have hp : progress.result = none := not_not.mp h
      obtain ⟨-, hsteps, -⟩ := of_runFor_limited hr hp
      rcases progress with ⟨steps, result⟩
      exact ⟨m', by rw [← hsteps, ← hp]⟩

theorem executed_runFor {m m' : Machine} {limit : Nat} {progress : Progress Word}
    (h : m.runFor limit = .ok progress m') : m'.executed = m.executed + progress.steps := by
  cases hh : m.halted with
  | some result =>
      rw [runFor_of_halted hh] at h
      cases h
      rfl
  | none =>
      rw [runFor_of_running hh] at h
      exact ((meets_upTo_step hh limit 0).of_ok h).2

/-- A run without a limit has a result or a fault if one of the bounded runs has. -/
theorem exists_ended_iff (m : Machine) :
    (∃ k ≤ Run.endless, Run.Ended (m.runFor k)) ↔ ∀ m', m.runToHalt ≠ .ok none m' := by
  have hrun : m.runToHalt = (Progress.result <$> runFor Run.endless) m := by
    rw [runToHalt_eq_runFor]
  have hiff : Run.Ended (m.runFor Run.endless) ↔ ∀ m', m.runToHalt ≠ .ok none m' := by
    rw [hrun]
    simp only [Functor.map, EStateM.map]
    cases m.runFor Run.endless with
    | error fault m' => simp [Run.Ended]
    | ok progress m' => simp [Run.Ended]
  rw [← hiff]
  constructor
  · rintro ⟨k, hk, he⟩
    rwa [runFor_of_ended he hk]
  · intro he
    exact ⟨_, Nat.le_refl _, he⟩

/-! ### Machines at rest -/

/-- Whatever is tried, the machine answers its result at once and stays as it is. -/
structure Rests (m : Machine) (result : Word) : Prop where
  step_eq : m.step = .ok (some result) m
  runFor_eq : ∀ limit, m.runFor limit = .ok ⟨0, some result⟩ m
  runToHalt_eq : m.runToHalt = .ok (some result) m

theorem rests_of_halted {m : Machine} {result : Word} (h : m.halted = some result) :
    m.Rests result :=
  ⟨step_of_halted h, runFor_of_halted h, runToHalt_of_halted h⟩

/-- The machine after operations one after another, whether they fault or not. -/
def performAll (m : Machine) (ops : List Operation) : Machine :=
  ops.foldl (fun m op => (m.perform op).2) m

/-- Short of a reset, only the words in memory and the stream of a halted machine can change, and
these only by loading and by attaching. -/
theorem perform_of_halted {m : Machine} {result : Word} (h : m.halted = some result)
    {op : Operation} (hop : op ≠ .reset) :
    ∃ cells out, (m.perform op).2 = { m with memory := { m.memory with cells }, out } := by
  have hr := rests_of_halted h
  cases op with
  | reset => exact absurd rfl hop
  | load image =>
      by_cases hfit : image.length ≤ memoryWords
      · exact ⟨_, m.out, by simp only [perform, load, Memory.load, if_pos hfit, Except.map]; rfl⟩
      · exact ⟨m.memory.cells, m.out, by simp only [perform, load, Memory.load, if_neg hfit, Except.map]⟩
  | attach out => exact ⟨m.memory.cells, out, rfl⟩
  | step => exact ⟨m.memory.cells, m.out, by simp only [perform, hr.step_eq, Operation.outcome]⟩
  | advance limit =>
      exact ⟨m.memory.cells, m.out, by simp only [perform, hr.runFor_eq, Operation.outcome]⟩
  | runToHalt =>
      exact ⟨m.memory.cells, m.out, by simp only [perform, hr.runToHalt_eq, Operation.outcome]⟩

theorem performAll_of_halted {m : Machine} {result : Word} (h : m.halted = some result)
    {ops : List Operation} (hops : .reset ∉ ops) :
    ∃ cells out, m.performAll ops = { m with memory := { m.memory with cells }, out } := by
  induction ops generalizing m with
  | nil => exact ⟨m.memory.cells, m.out, rfl⟩
  | cons op ops ih =>
      have hop : op ≠ .reset := fun h => hops (h ▸ List.mem_cons_self)
      obtain ⟨cells, out, hm⟩ := perform_of_halted h hop
      have hh : (m.perform op).2.halted = some result := by rw [hm, h]
      obtain ⟨cells', out', hrest⟩ := ih hh fun hr => hops (List.mem_cons_of_mem _ hr)
      refine ⟨cells', out', ?_⟩
      rw [performAll, List.foldl_cons, ← performAll, hrest, hm]

/-- How the ways to run a machine agree. -/
structure ControlsAgree (m : Machine) : Prop where
  /-- A run that its limit has cut short has executed as many instructions, and going on is as
  good as having had the higher limit from the beginning. -/
  limited : ∀ first progress m', m.runFor first = .ok progress m' → progress.result = none →
    progress.steps = first ∧ m'.executed = m.executed + first ∧
      ∀ second, m.runFor (first + second) = (Progress.after first <$> runFor second) m'
  /-- A higher limit makes no difference to a run that has ended. -/
  ended : ∀ first second, Run.Ended (m.runFor first) → m.runFor (first + second) = m.runFor first
  unlimited : (∃ k ≤ Run.endless, Run.Ended (m.runFor k)) ↔ ∀ m', m.runToHalt ≠ .ok none m'
  /-- The run without a limit is every run whose limit is not too low. -/
  least : ∀ k ≤ Run.endless, IsLeast {k | Run.Ended (m.runFor k)} k →
    (∀ n ≥ k, m.runToHalt = (Progress.result <$> runFor n) m) ∧
      ∀ n < k, ∃ m', m.runFor n = .ok ⟨n, none⟩ m'
  counted : ∀ limit progress m', m.runFor limit = .ok progress m' →
    m'.executed = m.executed + progress.steps
  /-- A halted machine is at rest, and stays so through all operations before a reset. -/
  halted : ∀ result, m.halted = some result → ∀ ops : List Operation, .reset ∉ ops →
    (m.performAll ops).Rests result ∧
      (∃ cells out, m.performAll ops = { m with memory := { m.memory with cells }, out }) ∧
      (m.performAll ops).reset.halted = none

theorem run_controls_agree (m : Machine) : m.ControlsAgree where
  limited := by
    intro first progress m' h hp
    obtain ⟨-, hsteps, -, hexecuted⟩ := of_runFor_limited h hp
    exact ⟨hsteps, hexecuted, runFor_add_of_limited h hp⟩
  ended := fun first second h => runFor_add_of_ended h second
  unlimited := m.exists_ended_iff
  least := by
    intro k hk hleast
    have he : Run.Ended (m.runFor k) := hleast.1
    refine ⟨fun n hn => ?_, fun n hn => runFor_of_not_ended fun hend => ?_⟩
    · have hsame : m.runFor Run.endless = m.runFor n :=
        (runFor_of_ended he hk).trans (runFor_of_ended he hn).symm
      rw [runToHalt_eq_runFor]
      simp only [Functor.map, EStateM.map, hsame]
    · exact absurd (hleast.2 hend) (Nat.not_le.mpr hn)
  counted := fun limit progress m' h => executed_runFor h
  halted := by
    intro result h ops hops
    obtain ⟨cells, out, hm⟩ := performAll_of_halted h hops
    have hh : (m.performAll ops).halted = some result := by rw [hm, h]
    exact ⟨rests_of_halted hh, ⟨cells, out, hm⟩, rfl⟩

/-- `pushc 7; halt`, after the given number of steps. -/
def constantHalt (steps : Nat) : Machine :=
  (((powerOn .hardened {}).perform (.load [12, 7, 0])).2.perform (.advance steps)).2

/-- The limit of one step is one too low, and the halt is final although its program is gone. -/
theorem run_controls_agree_constant :
    (constantHalt 0).runFor 1 = .ok ⟨1, none⟩ (constantHalt 1) ∧
    (constantHalt 1).runFor 1 = .ok ⟨1, some 7⟩ (constantHalt 2) ∧
    (constantHalt 0).runFor 2 = .ok ⟨2, some 7⟩ (constantHalt 2) ∧
    (constantHalt 0).runToHalt = .ok (some 7) (constantHalt 2) ∧
    ((constantHalt 2).performAll [.load [5], .step]).Rests 7 := by
  have h₁ : (constantHalt 0).runFor 1 = .ok ⟨1, none⟩ (constantHalt 1) := rfl
  have h₂ : (constantHalt 1).runFor 1 = .ok ⟨1, some 7⟩ (constantHalt 2) := rfl
  have hall := run_controls_agree (constantHalt 0)
  have hsum : (constantHalt 0).runFor 2 = .ok ⟨2, some 7⟩ (constantHalt 2) := by
    rw [(hall.limited 1 _ _ h₁ rfl).2.2 1]
    simp only [Functor.map, EStateM.map, h₂, Progress.after]
  have hleast : IsLeast {k | Run.Ended ((constantHalt 0).runFor k)} 2 := by
    refine ⟨by simp [hsum, Run.Ended], fun k hk => ?_⟩
    by_contra hlt
    have hend : Run.Ended ((constantHalt 0).runFor 1) := by
      rwa [runFor_of_ended hk (by omega)]
    simp [h₁, Run.Ended] at hend
  refine ⟨h₁, h₂, hsum, ?_, ?_⟩
  · rw [(hall.least 2 (by decide) hleast).1 2 (Nat.le_refl 2)]
    simp only [Functor.map, EStateM.map, hsum]
  · refine ((run_controls_agree (constantHalt 2)).halted 7 rfl _ ?_).1
    simp

end Machine

end CoolMachine
