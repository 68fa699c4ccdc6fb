import CoolMachine.Proofs.Machine.Control
import CoolMachine.Session

/-! Watching a machine does not disturb it. Seen without its journal, a session does what its
machine does, step by step and over whole runs. -/

namespace CoolMachine

namespace Session

/-- The session and its machine. -/
def Watches (s : Session) (m : Machine) : Prop := m = s.machine

/-- A program of sessions does what the program of machines does. -/
def Transparent {α : Type} (x : EStateM Fault Session α) (y : EStateM Fault Machine α) : Prop :=
  Simulates Watches x y (fun a b s m => a = b ∧ s.Watches m) (fun e d s m => e = d ∧ s.Watches m)
    fun _ => False

variable {α : Type} {x : EStateM Fault Session α} {y : EStateM Fault Machine α}

theorem Transparent.mapState (h : Transparent x y) (s : Session) :
    (x s).mapState machine = y s.machine :=
  (Simulates.eq_mapState h (fun _ _ hw => hw) rfl fun _ _ _ => id).symm

theorem transparent_step : Transparent step Machine.step := by
  intro s m hw
  obtain rfl : m = s.machine := hw
  simp only [step]
  cases s.machine.step with
  | ok result m' => exact ⟨result, m', rfl, rfl, rfl⟩
  | error fault m' => exact .inr ⟨fault, m', rfl, rfl, rfl⟩

theorem transparent_runFor (limit : Nat) : Transparent (runFor limit) (Machine.runFor limit) := by
  intro s m hw
  obtain rfl : m = s.machine := hw
  simp only [runFor, Machine.runFor]
  cases s.machine.halted with
  | some result => exact ⟨_, _, rfl, rfl, rfl⟩
  | none => exact simulates_upTo transparent_step limit 0 s _ rfl

theorem transparent_runToHalt : Transparent runToHalt Machine.runToHalt :=
  simulates_untilResult transparent_step Run.endless

end Session

end CoolMachine
