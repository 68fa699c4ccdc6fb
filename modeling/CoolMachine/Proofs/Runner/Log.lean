import CoolMachine.Proofs.Image.RoundTrip
import CoolMachine.Proofs.Runner.Machine
import CoolMachine.Runner.Command

/-! The log of a run stands beside its outcome. What a run prints and answers does not depend on
what is logged of it, and running an image that was written whole gives no cause for a warning: its
log is for debugging, and empty unless it is asked for. -/

namespace CoolMachine

/-! ### Logs for debugging -/

namespace Journal

/-- Every record is for debugging, and the verbosity lets it through. -/
structure Routine (journal : Journal) (verbosity : Option Level) : Prop where
  verbosity_eq : journal.verbosity = verbosity
  debugging : ∀ record ∈ journal.records, record.level = .debug ∨ record.level = .trace
  kept : ∀ record ∈ journal.records, journal.keeps record.level = true

variable {journal : Journal} {verbosity : Option Level}

theorem routine_fresh (verbosity : Option Level) : Routine { verbosity := verbosity } verbosity :=
  ⟨rfl, fun _ hr => (by cases hr), fun _ hr => (by cases hr)⟩

theorem keeps_note (journal : Journal) (level other : Level) (origin : Origin)
    (text : Unit → String) :
    (journal.note level origin text).keeps other = journal.keeps other := by
  rw [keeps, keeps, verbosity_note]

theorem Routine.note (h : journal.Routine verbosity) {level : Level}
    (hl : level = .debug ∨ level = .trace) (origin : Origin) (text : Unit → String) :
    (journal.note level origin text).Routine verbosity := by
  have hrecords : ∀ record ∈ (journal.note level origin text).records,
      record ∈ journal.records ∨ record.level = level ∧ journal.keeps level = true := by
    intro record hr
    rw [records_note] at hr
    rcases List.mem_append.mp hr with hr | hr
    · exact .inl hr
    · split at hr
      · next hk => exact .inr ⟨by rw [List.mem_singleton.mp hr], hk⟩
      · cases hr
  refine ⟨(verbosity_note ..).trans h.verbosity_eq, fun record hr => ?_, fun record hr => ?_⟩
  · rcases hrecords record hr with hr | ⟨hr, -⟩
    · exact h.debugging record hr
    · rwa [hr]
  · rw [keeps_note]
    rcases hrecords record hr with hr | ⟨hr, hk⟩
    · exact h.kept record hr
    · rwa [hr]

theorem Routine.level_ne_warn (h : journal.Routine verbosity) :
    ∀ record ∈ journal.records, record.level ≠ .warn := by
  intro record hr hwarn
  rcases h.debugging record hr with hd | hd <;> rw [hwarn] at hd <;> cases hd

/-- Nothing is kept where no more than warnings is asked for. -/
theorem Routine.records_eq_nil (h : journal.Routine (some .warn)) : journal.records = [] := by
  refine List.eq_nil_iff_forall_not_mem.mpr fun record hr => ?_
  have hk := h.kept record hr
  rw [keeps, h.verbosity_eq] at hk
  rcases h.debugging record hr with hd | hd <;> rw [hd] at hk <;> cases hk

end Journal

namespace Session

variable {s : Session} {journal : Journal} {verbosity : Option Level}

theorem routine_noteFetch (h : journal.Routine verbosity) (m : Machine) :
    (noteFetch journal m).Routine verbosity := by
  unfold noteFetch
  split
  · split
    · exact h.note (.inr rfl) _ _
    · exact h
  · exact h

theorem routine_noteHalt (h : journal.Routine verbosity) (before after : Machine) :
    (noteHalt journal before after).Routine verbosity := by
  unfold noteHalt
  split
  · exact h.note (.inl rfl) _ _
  · exact h

/-- All that the session has logged is for debugging. -/
def Routine (verbosity : Option Level) (s : Session) : Prop := s.journal.Routine verbosity

/-- A step logs its trace and its halt, and nothing else. -/
theorem Routine.step (h : s.Routine verbosity) :
    Meets step s (fun _ => Routine verbosity) fun _ => Routine verbosity := by
  have hfetch := routine_noteFetch h s.machine
  simp only [Meets, Session.step]
  cases s.machine.step with
  | ok result after => exact routine_noteHalt hfetch s.machine after
  | error fault after => exact hfetch

theorem Routine.runFor (h : s.Routine verbosity) (limit : Nat) :
    Meets (runFor limit) s (fun _ => Routine verbosity) fun _ => Routine verbosity := by
  unfold Meets Session.runFor
  cases s.machine.halted with
  | some result => exact h
  | none => exact meets_upTo (fun _ => Routine.step) limit 0 h

theorem Routine.runToHalt (h : s.Routine verbosity) :
    Meets runToHalt s (fun _ => Routine verbosity) fun _ => Routine verbosity :=
  meets_untilResult (fun _ => Routine.step) Run.endless h

end Session

namespace Runner

open CommandLine

/-! ### Runs -/

theorem journal_print (text : List Char) (s : Session) :
    (print text s).state.journal = s.journal := by
  simp only [print]
  cases Sink.write text s.machine.out <;> rfl

theorem journal_runAndReport (maxSteps : Option Nat) (s : Session) :
    (runAndReport maxSteps s).state.journal = (runWithin maxSteps s).state.journal := by
  simp only [runAndReport]
  cases runWithin maxSteps s with
  | ok result s' =>
      refine Eq.trans ?_ (journal_print (reportText s'.machine) s')
      simp only
      cases print (reportText s'.machine) s' <;> rfl
  | error e s' =>
      refine Eq.trans ?_ (journal_print (reportText s'.machine) s')
      simp only
      cases print (reportText s'.machine) s' <;> rfl

theorem routine_runWithin {s : Session} {verbosity : Option Level} (h : s.Routine verbosity)
    (maxSteps : Option Nat) : (runWithin maxSteps s).state.Routine verbosity := by
  cases maxSteps with
  | none =>
      have hrun := meets_state.mp h.runToHalt
      simp only [runWithin]
      cases hs : Session.runToHalt s with
      | error fault s' => rwa [hs] at hrun
      | ok result s' =>
          rw [hs] at hrun
          cases result <;> exact hrun
  | some limit =>
      have hrun := meets_state.mp (h.runFor limit)
      simp only [runWithin]
      cases hs : Session.runFor limit s with
      | error fault s' => rwa [hs] at hrun
      | ok progress s' =>
          rw [hs] at hrun
          obtain ⟨steps, result⟩ := progress
          cases result <;> exact hrun

theorem routine_run {journal : Journal} {verbosity : Option Level} (h : journal.Routine verbosity)
    (options : Options) (image : List Word) (out : Sink Char) :
    (run options image out journal).state.Routine verbosity := by
  simp only [run]
  cases (Machine.powerOn options.mode out).load image with
  | error e => exact h
  | ok m =>
      have hprint : (print (if options.dumpMemory then dumpText m else [])
          ⟨m, journal⟩).state.Routine verbosity := by
        rw [Session.Routine, journal_print]
        exact h
      simp only
      cases hs : print (if options.dumpMemory then dumpText m else []) ⟨m, journal⟩ with
      | error e s => rwa [hs] at hprint
      | ok _ s =>
          rw [hs] at hprint
          simp only [Session.Routine, journal_runAndReport]
          exact routine_runWithin hprint options.maxSteps

/-- What a run answers and leaves, its log apart, does not depend on the log that it goes to. -/
theorem run_machine_eq (options : Options) (image : List Word) (out : Sink Char)
    (journal other : Journal) :
    (run options image out journal).mapState Session.machine =
      (run options image out other).mapState Session.machine := by
  cases h : (Machine.powerOn options.mode {}).load image with
  | ok m => rw [run_machine h, run_machine h]
  | error e =>
      simp only [run, load_attach options.mode out, h]
      rfl

/-! ### The command -/

/-- What the command shows of a run that has ended, behind the records that it has logged. -/
structure Shows (ended : EStateM.Result Error Machine Word) (log : List Record)
    (outcome : Outcome) : Prop where
  stdout_eq : outcome.stdout = String.ofList ended.state.out.contents
  /-- A result is told by its low byte alone. -/
  succeeds : ∀ result, ended.answer = .ok result →
    outcome.status.toNat = result.toNat % 256 ∧
      outcome.stderr = String.ofList (log.flatMap logEntry)
  fails : ∀ e, ended.answer = .error e →
    outcome.status = 1 ∧
      outcome.stderr = String.ofList (log.flatMap logEntry) ++ "runcool: " ++ e.message ++ "\n"

section Shows

variable {ended : EStateM.Result Error Machine Word} {log : List Record} {outcome : Outcome}

theorem Shows.eq_of_ok (h : Shows ended log outcome) {r : Word}
    (hr : ended.answer = .ok r) : outcome =
      ⟨r.lowByte, String.ofList ended.state.out.contents,
        String.ofList (log.flatMap logEntry)⟩ := by
  obtain ⟨status, stdout, stderr⟩ := outcome
  obtain ⟨hstatus, herr⟩ := h.succeeds r hr
  have hbyte : status = r.lowByte := UInt8.toNat_inj.mp (by
    rw [hstatus, Word.lowByte, UInt16.toNat_toUInt8])
  rw [Outcome.mk.injEq]
  exact ⟨hbyte, h.stdout_eq, herr⟩

theorem Shows.eq_of_error (h : Shows ended log outcome) {e : Error}
    (he : ended.answer = .error e) : outcome =
      ⟨1, String.ofList ended.state.out.contents,
        String.ofList (log.flatMap logEntry) ++ "runcool: " ++ e.message ++ "\n"⟩ := by
  obtain ⟨status, stdout, stderr⟩ := outcome
  obtain ⟨hstatus, herr⟩ := h.fails e he
  rw [Outcome.mk.injEq]
  exact ⟨hstatus, h.stdout_eq, herr⟩

end Shows

variable {image : List Word}

/-- Without a trace, and with nothing set in the environment, warnings are asked for. -/
theorem Arguments.verbosity_of_not_trace {arguments : Arguments} (h : arguments.trace = false) :
    arguments.verbosity none = some .warn := by
  simp only [verbosity, defaultVerbosity, h, Bool.false_eq_true, if_false]

/-- A file that holds a written image is run like the image itself, and what is logged of the run
is for debugging. -/
theorem Arguments.run_written (arguments : Arguments) (environment : Option String)
    (h : image.length ≤ memoryWords) :
    ∃ log : Journal, log.Routine (arguments.verbosity environment) ∧
      Shows ((Runner.run arguments.options image {} {}).mapState Session.machine) log.records
        (arguments.run environment (.ok { bytes := Image.encode image })) := by
  simp only [Arguments.run, Image.load, Image.read_encode h]
  generalize hlog : Journal.note (Journal.note _ _ _ _) _ _ _ = journal
  have hroutine : journal.Routine (arguments.verbosity environment) := by
    rw [← hlog]
    exact ((Journal.routine_fresh _).note (.inl rfl) _ _).note (.inl rfl) _ _
  refine ⟨_, routine_run hroutine arguments.options image {}, ?_⟩
  rw [run_machine_eq arguments.options image {} {} journal]
  cases Runner.run arguments.options image {} journal with
  | ok result s =>
      refine ⟨rfl, fun other hr => ?_, fun e he => by cases he⟩
      cases hr
      exact ⟨UInt16.toNat_toUInt8 result, rfl⟩
  | error error s =>
      refine ⟨rfl, fun result hr => (by cases hr), fun e he => ?_⟩
      cases he
      have herror : errorText [error.message] = "runcool: " ++ error.message ++ "\n" := rfl
      have hstderr : logText s.journal ++ errorText [error.message] =
          String.ofList (s.journal.records.flatMap logEntry) ++ "runcool: " ++ error.message ++
            "\n" := by
        rw [herror, logText, ← String.append_assoc, ← String.append_assoc]
      exact ⟨rfl, hstderr⟩

theorem Arguments.run_oversized (arguments : Arguments) (environment : Option String)
    (h : memoryWords < image.length) :
    (arguments.run environment (.ok { bytes := Image.encode image })).stdout = "" ∧
      (arguments.run environment (.ok { bytes := Image.encode image })).status = 1 := by
  simp only [Arguments.run, Image.load, Image.read_encode_oversized h, and_self]

end Runner

end CoolMachine
