import CoolMachine.Proofs.Outcome

/-! Paths: steps in a row that have no result yet. A run that begins with a path ends like the run
from the end of the path. -/

namespace CoolMachine.Run

variable {ε σ α : Type}

/-- At most the given number of steps lead from the first state to the second, none of them with a
result. -/
inductive Path (x : EStateM ε σ (Option α)) : Nat → σ → σ → Prop where
  | refl (n : Nat) (s : σ) : Path x n s s
  | step {n : Nat} {s s' s'' : σ} : x s = .ok none s' → Path x n s' s'' → Path x (n + 1) s s''

variable {x : EStateM ε σ (Option α)} {n k bound : Nat} {s s' s'' : σ}

theorem Path.mono (h : Path x n s s') (hk : n ≤ k) : Path x k s s' := by
  induction h generalizing k with
  | refl n s => exact .refl k s
  | step hx _ ih =>
      cases k with
      | zero => cases hk
      | succ k => exact .step hx (ih (Nat.le_of_succ_le_succ hk))

theorem Path.trans (h : Path x n s s') (h' : Path x k s' s'') : Path x (n + k) s s'' := by
  induction h with
  | refl n s => exact h'.mono (Nat.le_add_left k n)
  | step hx _ ih =>
      rw [Nat.add_right_comm]
      exact .step hx (ih h')

theorem Path.single (h : x s = .ok none s') : Path x 1 s s' := .step h (.refl 0 s')

/-- A run goes along a path to the step behind it, which ends the run. -/
theorem Path.untilResult (h : Path x n s s') (hb : n < bound) (hend : ∀ s'', x s' ≠ .ok none s'') :
    Run.untilResult x bound s = x s' := by
  induction h generalizing bound with
  | refl n s =>
      obtain ⟨bound, rfl⟩ := Nat.exists_eq_add_one_of_ne_zero (Nat.ne_zero_of_lt hb)
      rw [untilResult_succ]
      simp only [bind, EStateM.bind]
      cases hx : x s with
      | ok a s'' =>
          cases a with
          | none => exact absurd hx (hend s'')
          | some result => rfl
      | error e s'' => rfl
  | step hx _ ih =>
      obtain ⟨bound, rfl⟩ := Nat.exists_eq_add_one_of_ne_zero (Nat.ne_zero_of_lt hb)
      rw [untilResult_succ]
      simp only [bind, EStateM.bind, hx]
      exact ih (by omega) hend

end CoolMachine.Run
