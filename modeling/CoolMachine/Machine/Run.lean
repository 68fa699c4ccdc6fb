import CoolMachine.Machine.Step

/-! Runs: a step repeated until it yields a result, a fault, or a limit is reached. The loops do
not depend on what is stepped, so a machine and an observed machine share them. -/

namespace CoolMachine

/-- The steps taken by a bounded run, and its result if it came to one. -/
structure Progress (α : Type) where
  steps : Nat
  result : Option α
  deriving DecidableEq

namespace Run

variable {ε σ α : Type}

/-- Repeats `step` at most `limit` times, where `done` steps have been taken before. -/
def upTo (step : EStateM ε σ (Option α)) (limit done : Nat) : EStateM ε σ (Progress α) := fun s =>
  match limit with
  | 0 => .ok ⟨done, none⟩ s
  | limit + 1 =>
    match step s with
    | .ok (some result) s => .ok ⟨done + 1, some result⟩ s
    | .ok none s => upTo step limit (done + 1) s
    | .error e s => .error e s

/-- Repeats `step` until it yields a result; there is none if `bound` steps do not suffice. -/
def untilResult (step : EStateM ε σ (Option α)) (bound : Nat) : EStateM ε σ (Option α) := fun s =>
  match bound with
  | 0 => .ok none s
  | bound + 1 =>
    match step s with
    | .ok (some result) s => .ok (some result) s
    | .ok none s => untilResult step bound s
    | .error e s => .error e s

/-- The number of steps after which a run counts as endless. -/
def endless : Nat := UInt64.size

end Run

namespace Machine

/-- Executes at most `limit` instructions; a halted machine takes no step. -/
def runFor (limit : Nat) : EStateM Fault Machine (Progress Word) := fun m =>
  match m.halted with
  | some result => .ok ⟨0, some result⟩ m
  | none => Run.upTo step limit 0 m

/-- Executes instructions until the machine has halted. -/
def runToHalt : EStateM Fault Machine (Option Word) := Run.untilResult step Run.endless

theorem runFor_of_halted {m : Machine} {result : Word} (h : m.halted = some result)
    (limit : Nat) : runFor limit m = .ok ⟨0, some result⟩ m := by
  simp only [runFor, h]

theorem runToHalt_of_halted {m : Machine} {result : Word} (h : m.halted = some result) :
    runToHalt m = .ok (some result) m := by
  obtain ⟨bound, hb⟩ : ∃ bound, Run.endless = bound + 1 :=
    Nat.exists_eq_add_one_of_ne_zero (by decide)
  rw [runToHalt, hb, Run.untilResult, step_of_halted h]

end Machine

end CoolMachine
