import CoolMachine.Proofs.Observation
import CoolMachine.Proofs.Machine.Begun

/-! What a session answers to its host. An operation gets the answer that the machine alone would
give, and leaves the machine that it would leave, whichever records are kept. -/

namespace CoolMachine

/-- What an operation answers. -/
inductive Reply where
  | done
  | loaded (answer : Except ImageTooLarge Unit)
  | stepped (answer : Except Fault (Option Word))
  | advanced (answer : Except Fault (Progress Word))
  | ran (answer : Except Fault (Option Word))

/-- What a machine answers on its way to the machine that it becomes. -/
def Machine.reply (m : Machine) : Operation → Reply
  | .load image => .loaded ((m.load image).map fun _ => ())
  | .reset | .attach _ => .done
  | .step => .stepped m.step.answer
  | .advance limit => .advanced (m.runFor limit).answer
  | .runToHalt => .ran m.runToHalt.answer

/-- The answers of a machine to operations one after another, each beside the machine behind it. -/
def Machine.replies : Machine → List Operation → List (Reply × Machine)
  | _, [] => []
  | m, op :: ops => (m.reply op, (m.perform op).2) :: (m.perform op).2.replies ops

/-- What is asked of a session: operations, each under the verbosity that is in force for it. -/
abbrev Requests := List (Option Level × Operation)

/-- The same operations with no records kept. -/
def Requests.silenced (requests : Requests) : Requests :=
  requests.map fun request => (none, request.2)

namespace Session

/-- The session with another verbosity from here on. -/
def under (s : Session) (verbosity : Option Level) : Session :=
  { s with journal := { s.journal with verbosity } }

/-- Performs an operation, under the records that the journal keeps. -/
def respond (s : Session) : Operation → Reply × Session
  | .load image =>
    match s.machine.load image with
    | .ok machine => (.loaded (.ok ()), { s with machine })
    | .error e => (.loaded (.error e), s)
  | .reset => (.done, { s with machine := s.machine.reset })
  | .attach out => (.done, { s with machine := { s.machine with out } })
  | .step => (.stepped (step s).answer, (step s).state)
  | .advance limit => (.advanced (runFor limit s).answer, (runFor limit s).state)
  | .runToHalt => (.ran (runToHalt s).answer, (runToHalt s).state)

/-- The answers of a session to its requests, each beside the session behind it. -/
def responses : Session → Requests → List (Reply × Session)
  | _, [] => []
  | s, (verbosity, op) :: requests =>
    (s.under verbosity).respond op :: ((s.under verbosity).respond op).2.responses requests

/-- The session behind its requests. -/
def after (s : Session) (requests : Requests) : Session :=
  requests.foldl (fun s request => ((s.under request.1).respond request.2).2) s

section

variable {α : Type} {x : EStateM Fault Session α} {y : EStateM Fault Machine α}

theorem Transparent.answer (h : Transparent x y) (s : Session) :
    (x s).answer = (y s.machine).answer := by
  rw [← h.mapState]
  cases x s <;> rfl

theorem Transparent.machine_state (h : Transparent x y) (s : Session) :
    (x s).state.machine = (y s.machine).state := by
  rw [← h.mapState]
  cases x s <;> rfl

end

theorem respond_seen (s : Session) (op : Operation) :
    Prod.map id machine (s.respond op) = (s.machine.reply op, (s.machine.perform op).2) := by
  cases op with
  | load image =>
      simp only [respond, Machine.reply, Machine.perform]
      cases s.machine.load image <;> rfl
  | reset => rfl
  | attach out => rfl
  | step =>
      simp only [respond, Machine.reply, Machine.perform, Machine.outcome_snd, Prod.map,
        transparent_step.answer, transparent_step.machine_state, id]
  | advance limit =>
      have h := transparent_runFor limit
      simp only [respond, Machine.reply, Machine.perform, Machine.outcome_snd, Prod.map, h.answer,
        h.machine_state, id]
  | runToHalt =>
      simp only [respond, Machine.reply, Machine.perform, Machine.outcome_snd, Prod.map,
        transparent_runToHalt.answer, transparent_runToHalt.machine_state, id]

theorem machine_respond (s : Session) (op : Operation) :
    (s.respond op).2.machine = (s.machine.perform op).2 :=
  congrArg Prod.snd (s.respond_seen op)

/-- Seen without its journal, a session is the machine that performs the same operations. -/
theorem responses_seen (s : Session) (requests : Requests) :
    (s.responses requests).map (Prod.map id machine) =
      s.machine.replies (requests.map Prod.snd) := by
  induction requests generalizing s with
  | nil => rfl
  | cons request requests ih =>
      obtain ⟨verbosity, op⟩ := request
      have hseen := (s.under verbosity).respond_seen op
      rw [responses, List.map_cons, ih, hseen, machine_respond]
      rfl

theorem machine_after (s : Session) (requests : Requests) :
    (s.after requests).machine = s.machine.performAll (requests.map Prod.snd) := by
  induction requests generalizing s with
  | nil => rfl
  | cons request requests ih =>
      rw [after, List.foldl_cons, ← after, ih, machine_respond]
      rfl

theorem responses_silenced (s : Session) (requests : Requests) :
    (s.responses requests).map (Prod.map id machine) =
      (s.responses requests.silenced).map (Prod.map id machine) := by
  have hops : requests.silenced.map Prod.snd = requests.map Prod.snd := by
    simp [Requests.silenced]
  rw [responses_seen, responses_seen, hops]

end Session

end CoolMachine
