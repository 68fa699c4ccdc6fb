import CoolMachine.Machine.Run

/-! Two programs side by side. The second simulates the first when, from related states, it ends
in the same way and in related states again; an excused error of the first leaves the second
free. Sequences and loops inherit simulations from their parts. -/

/-- A result with its state seen through a function. -/
def EStateM.Result.mapState {ε σ τ α : Type} (view : σ → τ) :
    EStateM.Result ε σ α → EStateM.Result ε τ α
  | .ok a s => .ok a (view s)
  | .error e s => .error e (view s)

/-- What a program answers, whichever state it leaves. -/
def EStateM.Result.answer {ε σ α : Type} : EStateM.Result ε σ α → Except ε α
  | .ok a _ => .ok a
  | .error e _ => .error e

/-- The state that a program leaves, whatever it answers. -/
def EStateM.Result.state {ε σ α : Type} : EStateM.Result ε σ α → σ
  | .ok _ s => s
  | .error _ s => s

namespace CoolMachine

variable {ε δ σ τ α β α' β' : Type}

/-- Runs of `x` from a state related by `before` are matched by runs of `y`: results and states
by `after`, errors and states by `failed`, except for errors that are excused. -/
def Simulates (before : σ → τ → Prop) (x : EStateM ε σ α) (y : EStateM δ τ β)
    (after : α → β → σ → τ → Prop) (failed : ε → δ → σ → τ → Prop) (excused : ε → Prop) : Prop :=
  ∀ s t, before s t →
    match x s with
    | .ok a s' => ∃ b t', y t = .ok b t' ∧ after a b s' t'
    | .error e s' => excused e ∨ ∃ d t', y t = .error d t' ∧ failed e d s' t'

variable {before : σ → τ → Prop} {after middle : α → β → σ → τ → Prop}
  {failed : ε → δ → σ → τ → Prop} {excused : ε → Prop}

/-! ### Sequences -/

theorem simulates_pure {a : α} {b : β} (h : ∀ s t, before s t → after a b s t) :
    Simulates before (pure a : EStateM ε σ α) (pure b) after failed excused :=
  fun s t hb => ⟨b, t, rfl, h s t hb⟩

theorem simulates_get : Simulates before (get : EStateM ε σ σ) get
    (fun a b s t => a = s ∧ b = t ∧ before s t) failed excused :=
  fun _ t hb => ⟨t, t, rfl, rfl, rfl, hb⟩

theorem simulates_modify {f : σ → σ} {g : τ → τ} {after : Unit → Unit → σ → τ → Prop}
    (h : ∀ s t, before s t → after () () (f s) (g t)) :
    Simulates before (modify f : EStateM ε σ Unit) (modify g) after failed excused :=
  fun s t hb => ⟨(), g t, rfl, h s t hb⟩

theorem simulates_bind {x : EStateM ε σ α} {y : EStateM δ τ β} {f : α → EStateM ε σ α'}
    {g : β → EStateM δ τ β'} {final : α' → β' → σ → τ → Prop}
    (hx : Simulates before x y middle failed excused)
    (hf : ∀ a b, Simulates (middle a b) (f a) (g b) final failed excused) :
    Simulates before (x >>= f) (y >>= g) final failed excused := by
  intro s t hb
  have h := hx s t hb
  simp only [bind, EStateM.bind]
  cases hs : x s with
  | ok a s' =>
      simp only [hs] at h ⊢
      obtain ⟨b, t', ht, hm⟩ := h
      simpa only [ht] using hf a b s' t' hm
  | error e s' =>
      simp only [hs] at h ⊢
      refine h.imp_right ?_
      rintro ⟨d, t', ht, hd⟩
      exact ⟨d, t', by rw [ht], hd⟩

theorem simulates_map {x : EStateM ε σ α} {y : EStateM δ τ α} {R : σ → τ → Prop} {f : α → β}
    (h : Simulates before x y (fun a b s t => a = b ∧ R s t) failed excused) :
    Simulates before (f <$> x) (f <$> y) (fun a b s t => a = b ∧ R s t) failed excused := by
  refine simulates_bind h fun a b => ?_
  intro s t h
  rcases h with ⟨rfl, hR⟩
  exact ⟨f a, t, rfl, rfl, hR⟩

theorem Simulates.mono {before' : σ → τ → Prop} {final : α → β → σ → τ → Prop}
    {x : EStateM ε σ α} {y : EStateM δ τ β}
    (h : Simulates before x y after failed excused) (hb : ∀ s t, before' s t → before s t)
    (ha : ∀ a b s t, after a b s t → final a b s t) :
    Simulates before' x y final failed excused := by
  intro s t hs
  have h := h s t (hb s t hs)
  split at h
  · obtain ⟨b, t', ht, h⟩ := h
    exact ⟨b, t', ht, ha _ b _ t' h⟩
  · exact h

/-- A simulation whose relation is a function determines the second result from the first. -/
theorem Simulates.eq_mapState {view : σ → τ} {R S : σ → τ → Prop} {x : EStateM ε σ α}
    {y : EStateM ε τ α} (h : Simulates R x y (fun a b s t => a = b ∧ S s t)
      (fun e d s t => e = d ∧ S s t) excused) (hview : ∀ s t, S s t → t = view s)
    {s : σ} {t : τ} (hR : R s t) (hx : ∀ e s', x s = .error e s' → ¬ excused e) :
    y t = (x s).mapState view := by
  have h := h s t hR
  cases hs : x s with
  | ok a s' =>
      simp only [hs] at h
      obtain ⟨b, t', ht, rfl, hS⟩ := h
      rw [ht, hview s' t' hS, EStateM.Result.mapState]
  | error e s' =>
      simp only [hs] at h
      obtain ⟨d, t', ht, rfl, hS⟩ := h.resolve_left (hx e s' hs)
      rw [ht, hview s' t' hS, EStateM.Result.mapState]

/-! ### Loops -/

/-- A bounded run takes one step and goes on unless that step had a result. -/
theorem Run.upTo_succ (x : EStateM ε σ (Option α)) (limit done : Nat) :
    Run.upTo x (limit + 1) done = x >>= fun
      | some result => pure ⟨done + 1, some result⟩
      | none => Run.upTo x limit (done + 1) := by
  funext s
  rw [Run.upTo]
  simp only [bind, EStateM.bind]
  cases x s with
  | ok a s' => cases a <;> rfl
  | error e s' => rfl

theorem Run.untilResult_succ (x : EStateM ε σ (Option α)) (bound : Nat) :
    Run.untilResult x (bound + 1) = x >>= fun
      | some result => pure (some result)
      | none => Run.untilResult x bound := by
  funext s
  rw [Run.untilResult]
  simp only [bind, EStateM.bind]
  cases x s with
  | ok a s' => cases a <;> rfl
  | error e s' => rfl

section Loops

variable {R : σ → τ → Prop} {x : EStateM ε σ (Option α)} {y : EStateM δ τ (Option α)}

theorem simulates_upTo (h : Simulates R x y (fun a b s t => a = b ∧ R s t) failed excused)
    (limit done : Nat) : Simulates R (Run.upTo x limit done) (Run.upTo y limit done)
      (fun a b s t => a = b ∧ R s t) failed excused := by
  induction limit generalizing done with
  | zero => exact fun s t hR => ⟨_, t, rfl, rfl, hR⟩
  | succ limit ih =>
      rw [Run.upTo_succ, Run.upTo_succ]
      refine simulates_bind h fun a b => ?_
      intro s t h
      rcases h with ⟨rfl, hR⟩
      cases a with
      | none => exact ih (done + 1) s t hR
      | some result => exact ⟨_, t, rfl, rfl, hR⟩

theorem simulates_untilResult (h : Simulates R x y (fun a b s t => a = b ∧ R s t) failed excused)
    (bound : Nat) : Simulates R (Run.untilResult x bound) (Run.untilResult y bound)
      (fun a b s t => a = b ∧ R s t) failed excused := by
  induction bound with
  | zero => exact fun s t hR => ⟨none, t, rfl, rfl, hR⟩
  | succ bound ih =>
      rw [Run.untilResult_succ, Run.untilResult_succ]
      refine simulates_bind h fun a b => ?_
      intro s t h
      rcases h with ⟨rfl, hR⟩
      cases a with
      | none => exact ih s t hR
      | some result => exact ⟨some result, t, rfl, rfl, hR⟩

end Loops

end CoolMachine
