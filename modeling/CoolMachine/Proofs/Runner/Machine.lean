import CoolMachine.Proofs.Observation
import CoolMachine.Runner.Execution

/-! The runner without its journal. What a run of an image answers, prints and leaves is told by
the machine alone: a write of the dump, a bounded run, and a write of the report. -/

namespace CoolMachine

namespace Runner

/-- How a run of the machine ends for the runner. -/
def verdict : EStateM.Result Fault Machine (Progress Word) → EStateM.Result Error Machine Word
  | .ok ⟨_, some result⟩ m => .ok result m
  | .ok ⟨steps, none⟩ m => .error (.gaveUp steps m.pc) m
  | .error fault m => .error (.fault fault) m

/-- The number of steps after which the runner gives up. -/
def Options.stepLimit (options : Options) : Nat := options.maxSteps.getD Run.endless

/-- What is written before anything is executed. -/
def Options.dump (options : Options) (m : Machine) : List Char :=
  if options.dumpMemory then dumpText m else []

/-- Writes the report behind a run; only a run that has a result can fail by it. -/
def reported : EStateM.Result Error Machine Word → EStateM.Result Error Machine Word
  | .ok result m =>
    match Sink.write (reportText m) m.out with
    | .ok _ out => .ok result (m.attach out)
    | .error e out => .error (.output e) (m.attach out)
  | .error error m => .error error (m.attach (Sink.write (reportText m) m.out).state)

/-- A run of a loaded machine on the given stream. -/
def runOn (options : Options) (m : Machine) (out : Sink Char) :
    EStateM.Result Error Machine Word :=
  match Sink.write (options.dump m) out with
  | .ok _ out => reported (verdict ((m.attach out).runFor options.stepLimit))
  | .error e out => .error (.output e) (m.attach out)

theorem runWithin_machine (maxSteps : Option Nat) (s : Session) :
    (runWithin maxSteps s).mapState Session.machine =
      verdict (s.machine.runFor (maxSteps.getD Run.endless)) := by
  cases maxSteps with
  | some limit =>
      rw [Option.getD_some, ← (Session.transparent_runFor limit).mapState s]
      simp only [runWithin]
      cases Session.runFor limit s with
      | error fault s' => rfl
      | ok progress s' =>
          rcases progress with ⟨steps, result⟩
          cases result <;> rfl
  | none =>
      have hrun := Session.transparent_runToHalt.mapState s
      rw [Machine.runToHalt_eq_runFor] at hrun
      simp only [Functor.map, EStateM.map] at hrun
      rw [Option.getD_none]
      simp only [runWithin]
      cases hs : Session.runToHalt s with
      | error fault s' =>
          rw [hs] at hrun
          cases hr : s.machine.runFor Run.endless with
          | ok progress m' => simp [hr, EStateM.Result.mapState] at hrun
          | error fault m' =>
              simp only [hr, EStateM.Result.mapState, EStateM.Result.error.injEq] at hrun
              obtain ⟨rfl, rfl⟩ := hrun
              rfl
      | ok result s' =>
          rw [hs] at hrun
          cases hr : s.machine.runFor Run.endless with
          | error fault m' => simp [hr, EStateM.Result.mapState] at hrun
          | ok progress m' =>
              simp only [hr, EStateM.Result.mapState, EStateM.Result.ok.injEq] at hrun
              obtain ⟨rfl, rfl⟩ := hrun
              rcases progress with ⟨steps, result⟩
              cases result with
              | some result => rfl
              | none =>
                  obtain ⟨-, hsteps, -⟩ := Machine.of_runFor_limited hr rfl
                  simp only at hsteps
                  rw [hsteps]
                  rfl

theorem runAndReport_machine (maxSteps : Option Nat) (s : Session) :
    (runAndReport maxSteps s).mapState Session.machine =
      reported (verdict (s.machine.runFor (maxSteps.getD Run.endless))) := by
  rw [← runWithin_machine]
  simp only [runAndReport, print]
  cases runWithin maxSteps s with
  | ok result s' =>
      simp only [EStateM.Result.mapState, reported]
      cases Sink.write (reportText s'.machine) s'.machine.out <;> rfl
  | error e s' =>
      simp only [EStateM.Result.mapState, reported]
      cases Sink.write (reportText s'.machine) s'.machine.out <;> rfl

theorem load_attach (mode : Mode) (out : Sink Char) (image : List Word) :
    (Machine.powerOn mode out).load image =
      ((Machine.powerOn mode {}).load image).map (·.attach out) := by
  simp only [Machine.load, Machine.powerOn]
  cases (Memory.powerOn mode).load image <;> rfl

theorem run_machine {options : Options} {image : List Word} {m : Machine}
    (h : (Machine.powerOn options.mode {}).load image = .ok m) (out : Sink Char)
    (journal : Journal) :
    (run options image out journal).mapState Session.machine = runOn options m out := by
  have hdump : (if options.dumpMemory = true then dumpText (m.attach out) else []) =
    options.dump m := rfl
  simp only [run, load_attach options.mode out, h, Except.map, hdump, print, runOn]
  have hout : (m.attach out).out = out := rfl
  rw [hout]
  cases Sink.write (options.dump m) out with
  | error e out => rfl
  | ok u out => exact runAndReport_machine options.maxSteps ⟨m.attach out, journal⟩

end Runner

end CoolMachine
