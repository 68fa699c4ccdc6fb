import CoolMachine.Proofs.Simulation

/-! What one run of a program comes to. The condition on the result is carried backwards through
the program, so that a sequence of accesses becomes a sequence of conditions on its first state. -/

/-- A sequence succeeds exactly when its first part does and the second one then as well. -/
theorem Except.bind_eq_ok_iff {ε α β : Type} {x : Except ε α} {f : α → Except ε β} {b : β} :
    x >>= f = .ok b ↔ ∃ a, x = .ok a ∧ f a = .ok b := by
  constructor
  · intro h
    cases x with
    | ok a => exact ⟨a, rfl, h⟩
    | error e => cases h
  · rintro ⟨a, rfl, h⟩
    exact h

theorem Except.mapError_eq_ok_iff {ε δ α : Type} {f : ε → δ} {x : Except ε α} {a : α} :
    x.mapError f = .ok a ↔ x = .ok a := by
  constructor
  · intro h
    cases x with
    | ok b => exact congrArg Except.ok (Except.ok.inj h)
    | error e => cases h
  · rintro rfl
    rfl

/-- A guarded program succeeds exactly when it is let through and succeeds then. -/
theorem Except.guard_eq_ok_iff {ε α : Type} {p : Prop} [Decidable p] {e : ε} {x : Except ε α}
    {a : α} : (if p then .error e else x) = .ok a ↔ ¬ p ∧ x = .ok a := by
  split
  · next hp => exact ⟨fun h => (by cases h), fun h => absurd hp h.1⟩
  · next hp => exact ⟨fun h => ⟨hp, h⟩, And.right⟩

theorem Except.toOption_bind {ε α β : Type} (x : Except ε α) (f : α → Except ε β) :
    (x >>= f).toOption = x.toOption.bind fun a => (f a).toOption := by
  cases x <;> rfl

theorem Except.toOption_eq_some_iff {ε α : Type} {x : Except ε α} {a : α} :
    x.toOption = some a ↔ x = .ok a := by
  cases x <;> simp [Except.toOption]

namespace CoolMachine

variable {ε σ α β : Type}

/-- Run from `s`, the program ends in a result and a state that satisfy `after`, or in an error
and a state that satisfy `failed`. -/
def Meets (x : EStateM ε σ α) (s : σ) (after : α → σ → Prop) (failed : ε → σ → Prop) : Prop :=
  match x s with
  | .ok a s' => after a s'
  | .error e s' => failed e s'

variable {s : σ} {after : α → σ → Prop} {failed : ε → σ → Prop}

@[simp] theorem meets_pure {a : α} :
    Meets (pure a : EStateM ε σ α) s after failed ↔ after a s := Iff.rfl

@[simp] theorem meets_throw {e : ε} :
    Meets (throw e : EStateM ε σ α) s after failed ↔ failed e s := Iff.rfl

@[simp] theorem meets_get {after : σ → σ → Prop} :
    Meets (get : EStateM ε σ σ) s after failed ↔ after s s := Iff.rfl

@[simp] theorem meets_modify {f : σ → σ} {after : Unit → σ → Prop} :
    Meets (modify f : EStateM ε σ Unit) s after failed ↔ after () (f s) := Iff.rfl

@[simp] theorem meets_bind {x : EStateM ε σ α} {f : α → EStateM ε σ β} {after : β → σ → Prop} :
    Meets (x >>= f) s after failed ↔
      Meets x s (fun a s' => Meets (f a) s' after failed) failed := by
  simp only [Meets, bind, EStateM.bind]
  cases x s <;> rfl

theorem meets_ite {p : Prop} [Decidable p] {x y : EStateM ε σ α} :
    Meets (if p then x else y) s after failed ↔
      if p then Meets x s after failed else Meets y s after failed := by
  split <;> rfl

theorem Meets.mono {x : EStateM ε σ α} {after' : α → σ → Prop} {failed' : ε → σ → Prop}
    (h : Meets x s after failed) (ha : ∀ a s, after a s → after' a s)
    (hf : ∀ e s, failed e s → failed' e s) : Meets x s after' failed' := by
  unfold Meets at h ⊢
  cases hx : x s with
  | ok a s' =>
      rw [hx] at h
      exact ha a s' h
  | error e s' =>
      rw [hx] at h
      exact hf e s' h

theorem Meets.of_ok {x : EStateM ε σ α} {a : α} {s' : σ} (h : Meets x s after failed)
    (hx : x s = .ok a s') : after a s' := by
  simpa only [Meets, hx] using h

theorem Meets.of_error {x : EStateM ε σ α} {e : ε} {s' : σ} (h : Meets x s after failed)
    (hx : x s = .error e s') : failed e s' := by
  simpa only [Meets, hx] using h

theorem meets_of_ok {x : EStateM ε σ α} {a : α} {s' : σ} (hx : x s = .ok a s') :
    Meets x s after failed ↔ after a s' := by
  simp only [Meets, hx]

theorem meets_of_error {x : EStateM ε σ α} {e : ε} {s' : σ} (hx : x s = .error e s') :
    Meets x s after failed ↔ failed e s' := by
  simp only [Meets, hx]

theorem Meets.exists_ok {x : EStateM ε σ α} (h : Meets x s after fun _ _ => False) :
    ∃ a s', x s = .ok a s' ∧ after a s' := by
  unfold Meets at h
  cases hx : x s with
  | ok a s' =>
      rw [hx] at h
      exact ⟨a, s', rfl, h⟩
  | error e s' =>
      rw [hx] at h
      exact h.elim

theorem Meets.exists_error {x : EStateM ε σ α} (h : Meets x s (fun _ _ => False) failed) :
    ∃ e s', x s = .error e s' ∧ failed e s' := by
  unfold Meets at h
  cases hx : x s with
  | ok a s' =>
      rw [hx] at h
      exact h.elim
  | error e s' =>
      rw [hx] at h
      exact ⟨e, s', rfl, h⟩

/-- A condition on the last state alone, whether there is a result or an error. -/
theorem meets_state {x : EStateM ε σ α} {I : σ → Prop} :
    Meets x s (fun _ => I) (fun _ => I) ↔ I (x s).state := by
  unfold Meets
  cases x s <;> rfl

/-! ### Loops -/

section Loops

variable {x : EStateM ε σ (Option α)} {I : σ → Prop}

/-- What every step keeps holds after a bounded run as well, and a fault of the run is the fault
of one of its steps. -/
theorem meets_upTo (h : ∀ s, I s → Meets x s (fun _ s' => I s') failed) (limit done : Nat)
    (hs : I s) : Meets (Run.upTo x limit done) s (fun _ s' => I s') failed := by
  induction limit generalizing s done with
  | zero => exact hs
  | succ limit ih =>
      rw [Run.upTo_succ, meets_bind]
      refine (h s hs).mono (fun a s' hs' => ?_) fun _ _ hf => hf
      cases a with
      | none => exact ih (done + 1) hs'
      | some result => exact hs'

theorem meets_untilResult (h : ∀ s, I s → Meets x s (fun _ s' => I s') failed) (bound : Nat)
    (hs : I s) : Meets (Run.untilResult x bound) s (fun _ s' => I s') failed := by
  induction bound generalizing s with
  | zero => exact hs
  | succ bound ih =>
      rw [Run.untilResult_succ, meets_bind]
      refine (h s hs).mono (fun a s' hs' => ?_) fun _ _ hf => hf
      cases a with
      | none => exact ih hs'
      | some result => exact hs'

end Loops

end CoolMachine
