import CoolMachine.Proofs.Outcome

/-! The operations that a machine offers to its host, and the machines that they lead to. -/

namespace CoolMachine

inductive Operation where
  | load (image : List Word)
  | reset
  /-- Lets later output go to another stream. -/
  | attach (out : Sink Char)
  | step
  | advance (limit : Nat)
  | runToHalt

/-- The fault that ended a run, if one did, and the machine that the run left. -/
def Operation.outcome {α : Type} : EStateM.Result Fault Machine α → Option Fault × Machine
  | .ok _ m => (none, m)
  | .error fault m => (some fault, m)

/-- An image that is too large is refused and changes nothing. -/
def Machine.perform (m : Machine) : Operation → Option Fault × Machine
  | .load image =>
    match m.load image with
    | .ok m => (none, m)
    | .error _ => (none, m)
  | .reset => (none, m.reset)
  | .attach out => (none, { m with out })
  | .step => Operation.outcome m.step
  | .advance limit => Operation.outcome (m.runFor limit)
  | .runToHalt => Operation.outcome m.runToHalt

/-! ### What operations keep -/

namespace Operation

/-- An outcome without a fault satisfies the invariant, one with a fault the other condition. -/
def Keeps (I : Machine → Prop) (F : Fault → Machine → Prop) (outcome : Option Fault × Machine) :
    Prop :=
  match outcome.1 with
  | none => I outcome.2
  | some fault => F fault outcome.2

variable {I : Machine → Prop} {F : Fault → Machine → Prop} {result : Option Fault × Machine}

theorem Keeps.of_none (h : Keeps I F result) (hn : result.1 = none) : I result.2 := by
  rwa [Keeps, hn] at h

theorem Keeps.of_some {fault : Fault} (h : Keeps I F result) (hf : result.1 = some fault) :
    F fault result.2 := by
  rwa [Keeps, hf] at h

theorem Keeps.same (h : Keeps I (fun _ => I) result) : I result.2 := by
  unfold Keeps at h
  split at h <;> exact h

theorem keeps_outcome {α : Type} {x : EStateM Fault Machine α} {m : Machine}
    (h : Meets x m (fun _ m' => I m') F) : Keeps I F (outcome (x m)) := by
  cases hx : x m with
  | ok a m' => exact h.of_ok hx
  | error fault m' => exact h.of_error hx

end Operation

/-! ### Reachable machines -/

namespace Machine

/-- The machines that operations lead to from power on, whether they fault or not. -/
inductive Reachable (mode : Mode) : Machine → Prop where
  | powerOn (out : Sink Char) : Reachable mode (powerOn mode out)
  | perform {m : Machine} (op : Operation) : Reachable mode m → Reachable mode (m.perform op).2

/-- The machines on which no step has faulted since power on or the last reset. -/
inductive Undisturbed (mode : Mode) : Machine → Prop where
  | powerOn (out : Sink Char) : Undisturbed mode (powerOn mode out)
  | reset {m : Machine} : Reachable mode m → Undisturbed mode m.reset
  | perform {m : Machine} (op : Operation) : Undisturbed mode m → (m.perform op).1 = none →
      Undisturbed mode (m.perform op).2

theorem Undisturbed.reachable {mode : Mode} {m : Machine} (h : Undisturbed mode m) :
    Reachable mode m := by
  induction h with
  | powerOn out => exact .powerOn out
  | reset hm => exact .perform .reset hm
  | perform op _ _ ih => exact .perform op ih

section Runs

variable {I : Machine → Prop} {F : Fault → Machine → Prop} {m : Machine}

/-- What every step keeps is kept by every run. -/
theorem meets_runFor (h : ∀ m, I m → Meets step m (fun _ m' => I m') F) (limit : Nat)
    (hm : I m) : Meets (runFor limit) m (fun _ m' => I m') F := by
  unfold Meets runFor
  cases m.halted with
  | some result => exact hm
  | none => exact meets_upTo h limit 0 hm

theorem meets_runToHalt (h : ∀ m, I m → Meets step m (fun _ m' => I m') F) (hm : I m) :
    Meets runToHalt m (fun _ m' => I m') F :=
  meets_untilResult h Run.endless hm

/-- What every step keeps is kept by every operation short of a reset, if loading and attaching
keep it. -/
theorem keeps_perform_of_ne_reset (hload : ∀ m m' image, I m → m.load image = .ok m' → I m')
    (hattach : ∀ m out, I m → I { m with out })
    (hstep : ∀ m, I m → Meets step m (fun _ m' => I m') F) (hm : I m) {op : Operation}
    (hop : op ≠ .reset) : Operation.Keeps I F (m.perform op) := by
  cases op with
  | load image =>
      simp only [Machine.perform]
      cases hl : m.load image with
      | ok m' => exact hload m m' image hm hl
      | error e => exact hm
  | reset => exact absurd rfl hop
  | attach out => exact hattach m out hm
  | step => exact Operation.keeps_outcome (hstep m hm)
  | advance limit => exact Operation.keeps_outcome (meets_runFor hstep limit hm)
  | runToHalt => exact Operation.keeps_outcome (meets_runToHalt hstep hm)

/-- What every step keeps is kept by every operation, if the operations without steps keep it. -/
theorem keeps_perform (hload : ∀ m m' image, I m → m.load image = .ok m' → I m')
    (hreset : ∀ m, I m → I m.reset) (hattach : ∀ m out, I m → I { m with out })
    (hstep : ∀ m, I m → Meets step m (fun _ m' => I m') F) (hm : I m) (op : Operation) :
    Operation.Keeps I F (m.perform op) := by
  by_cases hop : op = .reset
  · rw [hop]
    exact hreset m hm
  · exact keeps_perform_of_ne_reset hload hattach hstep hm hop

end Runs

/-- An operation that faults does so in a step of a machine on which none had faulted before. -/
theorem Undisturbed.step_of_fault {mode : Mode} {m : Machine} (h : Undisturbed mode m)
    {op : Operation} {fault : Fault} (hf : (m.perform op).1 = some fault) :
    ∃ before, Undisturbed mode before ∧ before.step = .error fault (m.perform op).2 := by
  refine Operation.Keeps.of_some (keeps_perform (I := Undisturbed mode) (F := fun fault m' =>
    ∃ before, Undisturbed mode before ∧ before.step = .error fault m') ?_ ?_ ?_ ?_ h op) hf
  · intro m m' image hm hl
    have hp := hm.perform (.load image)
    simp only [Machine.perform, hl] at hp
    exact hp trivial
  · exact fun m hm => .reset hm.reachable
  · exact fun m out hm => hm.perform (.attach out) rfl
  · intro m hm
    unfold Meets
    cases hs : m.step with
    | ok a m' =>
        have hp := hm.perform .step
        rw [Machine.perform, hs] at hp
        exact hp rfl
    | error fault m' => exact ⟨m, hm, hs⟩

end Machine

end CoolMachine
