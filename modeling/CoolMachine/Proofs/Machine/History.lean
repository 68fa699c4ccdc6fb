import Mathlib.Data.List.Forall2
import CoolMachine.Proofs.Simulation

/-! The history of a program that goes on after its errors: what each of a number of steps
answered, in order, and the state they lead to. -/

namespace CoolMachine

variable {ε δ σ τ α β : Type}

namespace Run

/-- Takes the given number of steps, each from the state that the one before it left. -/
def history (step : EStateM ε σ α) : Nat → σ → List (Except ε α) × σ
  | 0, s => ([], s)
  | n + 1, s =>
    match step s with
    | .ok a s' => Prod.map (.ok a :: ·) id (history step n s')
    | .error e s' => Prod.map (.error e :: ·) id (history step n s')

theorem history_succ_of_ok {step : EStateM ε σ α} {s s' : σ} {a : α} (h : step s = .ok a s')
    (n : Nat) :
    history step (n + 1) s = (.ok a :: (history step n s').1, (history step n s').2) := by
  simp only [history, h]
  rfl

theorem history_succ_of_error {step : EStateM ε σ α} {s s' : σ} {e : ε}
    (h : step s = .error e s') (n : Nat) :
    history step (n + 1) s = (.error e :: (history step n s').1, (history step n s').2) := by
  simp only [history, h]
  rfl

/-- Runs the programs one after another, each from the state that the one before it left, and keeps
what each of them answered beside the state that it left. -/
def series : List (EStateM ε σ α) → σ → List (Except ε α × σ)
  | [], _ => []
  | x :: xs, s =>
    match x s with
    | .ok a s' => (.ok a, s') :: series xs s'
    | .error e s' => (.error e, s') :: series xs s'

end Run

/-- What programs one after another answer and leave is related one by one if each of them
simulates its counterpart without excuse. -/
theorem forall₂_series {ι : Type} {R : σ → τ → Prop} {agree : Except ε α → Except δ β → Prop}
    {x : ι → EStateM ε σ α} {y : ι → EStateM δ τ β}
    (h : ∀ i, Simulates R (x i) (y i) (fun a b s t => agree (.ok a) (.ok b) ∧ R s t)
      (fun e d s t => agree (.error e) (.error d) ∧ R s t) fun _ => False)
    (is : List ι) {s : σ} {t : τ} (hR : R s t) :
    List.Forall₂ (fun a b => agree a.1 b.1 ∧ R a.2 b.2) (Run.series (is.map x) s)
      (Run.series (is.map y) t) := by
  induction is generalizing s t with
  | nil => exact .nil
  | cons i is ih =>
      have hi := h i s t hR
      simp only [List.map_cons, Run.series]
      cases hs : x i s with
      | ok a s' =>
          simp only [hs] at hi
          obtain ⟨b, t', ht, hab, hR'⟩ := hi
          rw [ht]
          exact .cons ⟨hab, hR'⟩ (ih hR')
      | error e s' =>
          simp only [hs] at hi
          obtain ⟨d, t', ht, hed, hR'⟩ := hi.resolve_left id
          rw [ht]
          exact .cons ⟨hed, hR'⟩ (ih hR')

/-- Simulated steps have the same history, as long as no excused error occurs. -/
theorem history_of_simulates {R : σ → τ → Prop} {x : EStateM ε σ α} {y : EStateM ε τ α}
    {excused : ε → Prop} (h : Simulates R x y (fun a b s t => a = b ∧ R s t)
      (fun e d s t => e = d ∧ R s t) excused) (n : Nat) {s : σ} {t : τ} (hR : R s t)
    (hx : ∀ e, .error e ∈ (Run.history x n s).1 → ¬ excused e) :
    (Run.history y n t).1 = (Run.history x n s).1 ∧
      R (Run.history x n s).2 (Run.history y n t).2 := by
  induction n generalizing s t with
  | zero => exact ⟨rfl, hR⟩
  | succ n ih =>
      have hst := h s t hR
      cases hs : x s with
      | ok a s' =>
          simp only [hs] at hst
          obtain ⟨_, t', ht, rfl, hR'⟩ := hst
          rw [Run.history_succ_of_ok hs] at hx ⊢
          rw [Run.history_succ_of_ok ht]
          obtain ⟨ha, hr⟩ := ih hR' fun e he => hx e (List.mem_cons_of_mem _ he)
          exact ⟨by rw [ha], hr⟩
      | error e s' =>
          simp only [hs] at hst
          rw [Run.history_succ_of_error hs] at hx ⊢
          obtain ⟨_, t', ht, rfl, hR'⟩ := hst.resolve_left (hx e List.mem_cons_self)
          rw [Run.history_succ_of_error ht]
          obtain ⟨ha, hr⟩ := ih hR' fun e he => hx e (List.mem_cons_of_mem _ he)
          exact ⟨by rw [ha], hr⟩

end CoolMachine
