import CoolMachine.Proofs.Machine.Equations
import CoolMachine.Proofs.Machine.History
import CoolMachine.Runner.Execution

/-! Hardened mode restricts compatible mode: it only adds checks. Whatever a hardened machine does
without failing one of them, the compatible machine in the same state does as well. -/

namespace CoolMachine

/-- The causes that only the checks of hardened mode raise. -/
def FaultCause.FromCheck : FaultCause → Prop
  | .address _ | .stackOverflow _ | .stackUnderflow _ | .illegalInstruction _ => True
  | .arithmetic | .output _ => False

instance : DecidablePred FaultCause.FromCheck := fun cause => by
  cases cause <;> unfold FaultCause.FromCheck <;> infer_instance

/-- The same machine in the given mode. -/
def Machine.inMode (m : Machine) (mode : Mode) : Machine :=
  { m with memory := { m.memory with mode } }

/-- A hardened machine beside its compatible twin. -/
def Machine.Twin (m n : Machine) : Prop :=
  m.memory.mode = .hardened ∧ n = m.inMode .compatible

/-! ### Actions -/

namespace Action

variable {α β : Type}

/-- On a hardened machine and its twin the action does the same, unless a check fails. -/
def Restricts (x : Action α) : Prop :=
  Simulates Machine.Twin x x (fun a b m n => a = b ∧ m.Twin n) (fun c d m n => c = d ∧ m.Twin n)
    FaultCause.FromCheck

theorem restricts_pure (a : α) : Restricts (pure a) :=
  simulates_pure fun _ _ h => ⟨rfl, h⟩

theorem restricts_bind {x : Action α} {f : α → Action β} (hx : Restricts x)
    (hf : ∀ a, Restricts (f a)) : Restricts (x >>= f) := by
  refine simulates_bind hx fun a b => ?_
  intro m n h
  rcases h with ⟨rfl, h⟩
  exact hf a m n h

/-- Reading the state is harmless as long as what is read does not show the mode. -/
theorem restricts_get_bind {k : Machine → Action α} (hk : ∀ m, Restricts (k m))
    (hmode : ∀ m : Machine, k (m.inMode .compatible) = k m) : Restricts (get >>= k) := by
  refine simulates_bind simulates_get fun a b => ?_
  intro m n h
  rcases h with ⟨rfl, rfl, h⟩
  rw [h.2, hmode, ← h.2]
  exact hk a a b h

theorem restricts_modify {f : Machine → Machine}
    (hf : ∀ m, (f m).memory.mode = m.memory.mode)
    (hmode : ∀ m : Machine, f (m.inMode .compatible) = (f m).inMode .compatible) :
    Restricts (modify f) := by
  refine simulates_modify ?_
  intro m n h
  rcases h with ⟨hm, rfl⟩
  exact ⟨rfl, (hf m).trans hm, hmode m⟩

/-- An address that the check accepts selects the same cell in both modes. -/
theorem resolve_compatible {address : Register} {cell : Word}
    (h : Mode.hardened.resolve address = some cell) :
    Mode.compatible.resolve address = some cell := by
  simp only [Mode.resolve] at h ⊢
  split at h
  · exact h
  · cases h

theorem restricts_readCell (address : Register) : Restricts (readCell address) := by
  intro m n h
  rcases h with ⟨hm, rfl⟩
  simp only [readCell_apply, hm]
  cases hr : Mode.hardened.resolve address with
  | none => exact .inl trivial
  | some cell =>
      have hc : (m.inMode .compatible).memory.mode.resolve address = some cell :=
        resolve_compatible hr
      exact ⟨_, _, readCell_of_resolve hc, rfl, hm, rfl⟩

theorem restricts_writeCell (address : Register) (value : Word) :
    Restricts (writeCell address value) := by
  intro m n h
  rcases h with ⟨hm, rfl⟩
  simp only [writeCell_apply, hm]
  cases hr : Mode.hardened.resolve address with
  | none => exact .inl trivial
  | some cell =>
      have hc : (m.inMode .compatible).memory.mode.resolve address = some cell :=
        resolve_compatible hr
      exact ⟨(), _, writeCell_of_resolve value hc, trivial, hm, rfl⟩

theorem restricts_print (text : List Char) : Restricts (print text) := by
  intro m n h
  rcases h with ⟨hm, rfl⟩
  simp only [print, Machine.inMode]
  cases Sink.write text m.out with
  | ok u out => exact ⟨(), _, rfl, trivial, hm, rfl⟩
  | error e out => exact .inr ⟨_, _, rfl, rfl, hm, rfl⟩

theorem restricts_push (value : Word) : Restricts (push value) := by
  intro m n h
  rcases h with ⟨hm, rfl⟩
  rw [push_apply, push_apply]
  by_cases h : m.memory.mode = .hardened ∧ m.sp ≤ 0
  · rw [if_pos h]
    exact .inl trivial
  · have hc : ¬ ((m.inMode .compatible).memory.mode = .hardened ∧ (m.inMode .compatible).sp ≤ 0) :=
      fun hh => nomatch hh.1
    rw [if_neg h, if_neg hc]
    exact restricts_writeCell _ _ _ _ ⟨hm, rfl⟩

theorem restricts_top : Restricts top := by
  intro m n h
  rcases h with ⟨hm, rfl⟩
  rw [top_apply, top_apply]
  by_cases h : m.memory.mode = .hardened ∧ 65536 ≤ m.sp
  · rw [if_pos h]
    exact .inl trivial
  · have hc : ¬ ((m.inMode .compatible).memory.mode = .hardened ∧
        65536 ≤ (m.inMode .compatible).sp) := fun hh => nomatch hh.1
    rw [if_neg h, if_neg hc]
    exact restricts_readCell _ _ _ ⟨hm, rfl⟩

theorem restricts_fetch : Restricts fetch := by
  refine restricts_get_bind (fun m => ?_) fun _ => rfl
  refine restricts_bind (restricts_readCell m.pc) fun word => ?_
  exact restricts_bind (restricts_modify (fun _ => rfl) fun _ => rfl) fun _ => restricts_pure word

theorem restricts_pop : Restricts pop := by
  refine restricts_bind restricts_top fun word => ?_
  exact restricts_bind (restricts_modify (fun _ => rfl) fun _ => rfl) fun _ => restricts_pure word

theorem restricts_frameAddress : Restricts frameAddress := by
  refine restricts_bind restricts_fetch fun offset => ?_
  exact restricts_get_bind (fun _ => restricts_pure _) fun _ => rfl

theorem restricts_combine (operation : Int16 → Int16 → Except FaultCause Int16) :
    Restricts (combine operation) := by
  refine restricts_bind restricts_pop fun right => restricts_bind restricts_pop fun left => ?_
  cases ho : operation left.signed right.signed with
  | ok value => exact restricts_push _
  | error cause =>
      intro m n ht
      exact .inr ⟨cause, n, rfl, rfl, ht⟩

theorem restricts_call : Restricts call := by
  refine restricts_bind restricts_fetch fun target => ?_
  refine restricts_get_bind (fun _ => ?_) fun _ => rfl
  refine restricts_bind (restricts_push _) fun _ => ?_
  refine restricts_get_bind (fun _ => ?_) fun _ => rfl
  refine restricts_bind (restricts_push _) fun _ => ?_
  exact restricts_modify (fun _ => rfl) fun _ => rfl

theorem restricts_ret : Restricts ret := by
  refine restricts_bind restricts_frameAddress fun slot => ?_
  refine restricts_bind restricts_pop fun value => ?_
  refine restricts_bind (restricts_modify (fun _ => rfl) fun _ => rfl) fun _ => ?_
  refine restricts_bind restricts_pop fun fp => ?_
  refine restricts_bind (restricts_modify (fun _ => rfl) fun _ => rfl) fun _ => ?_
  refine restricts_bind restricts_pop fun pc => ?_
  refine restricts_bind (restricts_modify (fun _ => rfl) fun _ => rfl) fun _ => ?_
  exact restricts_writeCell slot value

theorem restricts_jumpIfZero : Restricts jumpIfZero := by
  refine restricts_bind restricts_pop fun word => ?_
  by_cases h : word = 0
  · rw [if_pos h]
    refine restricts_bind restricts_fetch fun target => ?_
    exact restricts_modify (fun _ => rfl) fun _ => rfl
  · rw [if_neg h]
    exact restricts_modify (fun _ => rfl) fun _ => rfl

theorem restricts_ofOpcode (op : Opcode) : Restricts (ofOpcode op) := by
  cases op with
  | halt =>
      exact restricts_bind restricts_top fun _ => restricts_modify (fun _ => rfl) fun _ => rfl
  | nop => exact restricts_pure ()
  | prints => exact restricts_pure ()
  | add => exact restricts_combine fun left right => .ok (left + right)
  | sub => exact restricts_combine fun left right => .ok (left - right)
  | mult => exact restricts_combine fun left right => .ok (left * right)
  | div => exact restricts_combine divide
  | call => exact restricts_call
  | ret => exact restricts_ret
  | jmp =>
      exact restricts_bind restricts_fetch fun _ => restricts_modify (fun _ => rfl) fun _ => rfl
  | jeq => exact restricts_jumpIfZero
  | printi => exact restricts_bind restricts_pop fun _ => restricts_print _
  | pushc => exact restricts_bind restricts_fetch restricts_push
  | pusha =>
      refine restricts_bind restricts_fetch fun address => ?_
      exact restricts_bind (restricts_readCell _) restricts_push
  | pushr =>
      refine restricts_bind restricts_frameAddress fun address => ?_
      exact restricts_bind (restricts_readCell _) restricts_push
  | popa =>
      refine restricts_bind restricts_fetch fun address => ?_
      exact restricts_bind restricts_pop fun value => restricts_writeCell _ value
  | popr =>
      refine restricts_bind restricts_frameAddress fun address => ?_
      exact restricts_bind restricts_pop fun value => restricts_writeCell _ value

theorem restricts_ofWord (word : Word) : Restricts (ofWord word) := by
  rw [ofWord]
  cases Opcode.ofWord? word with
  | some op => exact restricts_ofOpcode op
  | none =>
      intro m n h
      rcases h with ⟨hm, rfl⟩
      simp only [bind, EStateM.bind, get_apply, if_pos hm]
      exact .inl trivial

end Action

/-! ### Steps -/

namespace Machine

theorem load_compatible (out : Sink Char) (image : List Word) :
    (powerOn .compatible out).load image =
      ((powerOn .hardened out).load image).map (inMode · .compatible) := by
  simp only [load, Memory.load, powerOn, Memory.powerOn]
  split <;> rfl

theorem simulates_step : Simulates Twin step step (fun a b m n => a = b ∧ m.Twin n)
    (fun f g m n => f = g ∧ m.Twin n) fun fault => fault.cause.FromCheck := by
  intro m n ht
  obtain ⟨hm, rfl⟩ := id ht
  have hh : (m.inMode .compatible).halted = m.halted := rfl
  cases hhalt : m.halted with
  | some result =>
      rw [step_of_halted hhalt, step_of_halted (hh.trans hhalt)]
      exact ⟨_, _, rfl, rfl, ht⟩
  | none =>
      have hf := Action.restricts_fetch m _ ht
      simp only [step, hh, hhalt]
      cases hs : Action.fetch m with
      | error cause m₁ =>
          simp only [hs] at hf ⊢
          refine hf.imp_right ?_
          rintro ⟨_, n₁, hn, rfl, ht₁⟩
          exact ⟨_, n₁, by rw [hn]; rfl, rfl, ht₁⟩
      | ok word m₁ =>
          simp only [hs] at hf ⊢
          obtain ⟨_, n₁, hn, rfl, hm₁, rfl⟩ := hf
          rw [hn]
          have hw := Action.restricts_ofWord word { m₁ with executed := m₁.executed + 1 } _
            ⟨hm₁, rfl⟩
          simp only [Machine.inMode] at hw ⊢
          cases hx : Action.ofWord word { m₁ with executed := m₁.executed + 1 } with
          | ok u m₂ =>
              simp only [hx] at hw ⊢
              obtain ⟨_, n₂, hn₂, -, hm₂, rfl⟩ := hw
              exact ⟨_, _, by rw [hn₂]; rfl, rfl, hm₂, rfl⟩
          | error cause m₂ =>
              simp only [hx] at hw ⊢
              refine hw.imp_right ?_
              rintro ⟨_, n₂, hn₂, rfl, hm₂, rfl⟩
              exact ⟨_, _, by rw [hn₂]; rfl, rfl, hm₂, rfl⟩

end Machine

/-! ### Sessions and complete runs -/

namespace Session

def inMode (s : Session) (mode : Mode) : Session := { s with machine := s.machine.inMode mode }

/-- A hardened session beside the compatible one with the same records. -/
def Twin (s t : Session) : Prop :=
  s.machine.memory.mode = .hardened ∧ t = s.inMode .compatible

/-- The trace shows the same on both machines; where only the compatible one has an instruction to
show, the hardened one is about to fail. -/
theorem noteFetch_inMode {m : Machine} (hm : m.memory.mode = .hardened) (journal : Journal)
    (hs : ∀ fault m', m.step = .error fault m' → ¬ fault.cause.FromCheck) :
    noteFetch journal (m.inMode .compatible) = noteFetch journal m := by
  have hup : (m.inMode .compatible).upcoming? = m.upcoming? := by
    cases hhalt : m.halted with
    | some result =>
        have hh : (m.inMode .compatible).halted = some result := hhalt
        simp only [Machine.upcoming?, hh, hhalt]
    | none =>
        have hh : (m.inMode .compatible).halted = none := hhalt
        cases hr : Mode.hardened.resolve m.pc with
        | some cell =>
            have hc : (m.inMode .compatible).memory.mode.resolve (m.inMode .compatible).pc =
                some cell := Action.resolve_compatible hr
            simp only [Machine.upcoming?, hh, hhalt, hc, hm, hr]
            rfl
        | none =>
            have hf : m.step = .error ⟨m.pc, none, .address m.pc⟩
                { m with memory := m.memory.countRead } := by
              simp only [Machine.step, hhalt, Action.fetch_apply, hm, hr]
            exact absurd trivial (hs _ _ hf)
  unfold noteFetch
  rw [hup]
  cases m.upcoming? <;> rfl

theorem simulates_step : Simulates Twin step step (fun a b s t => a = b ∧ s.Twin t)
    (fun f g s t => f = g ∧ s.Twin t) fun fault => fault.cause.FromCheck := by
  rintro ⟨m, journal⟩ _ ⟨hm, rfl⟩
  by_cases hf : ∃ fault m', m.step = .error fault m' ∧ fault.cause.FromCheck
  · obtain ⟨fault, m', hs, hc⟩ := hf
    simp only [step, hs]
    exact .inl hc
  · have hc : ∀ fault m', m.step = .error fault m' → ¬ fault.cause.FromCheck :=
      fun fault m' hs hc => hf ⟨fault, m', hs, hc⟩
    have hn := noteFetch_inMode hm journal hc
    have h := Machine.simulates_step m _ ⟨hm, rfl⟩
    simp only [step, inMode, hn]
    cases hs : m.step with
    | ok a m' =>
        simp only [hs] at h ⊢
        obtain ⟨_, _, ht, rfl, hm', rfl⟩ := h
        exact ⟨_, _, by rw [ht]; rfl, rfl, hm', rfl⟩
    | error fault m' =>
        simp only [hs] at h ⊢
        obtain ⟨_, _, ht, rfl, hm', rfl⟩ := h.resolve_left (hc fault m' hs)
        exact .inr ⟨_, _, by rw [ht]; rfl, rfl, hm', rfl⟩

theorem simulates_runFor (limit : Nat) : Simulates Twin (runFor limit) (runFor limit)
    (fun a b s t => a = b ∧ s.Twin t) (fun f g s t => f = g ∧ s.Twin t)
    fun fault => fault.cause.FromCheck := by
  intro s _ h
  rcases h with ⟨hm, rfl⟩
  have hh : (s.inMode .compatible).machine.halted = s.machine.halted := rfl
  simp only [runFor, hh]
  cases s.machine.halted with
  | some result => exact ⟨_, _, rfl, rfl, hm, rfl⟩
  | none => exact simulates_upTo simulates_step limit 0 s _ ⟨hm, rfl⟩

end Session

namespace Runner

/-- Errors of a run that stem from a check of hardened mode. -/
def Error.FromCheck : Error → Prop
  | fault f => f.cause.FromCheck
  | imageTooLarge _ | output _ | gaveUp _ _ => False

theorem simulates_runWithin (maxSteps : Option Nat) :
    Simulates Session.Twin (runWithin maxSteps) (runWithin maxSteps)
      (fun a b s t => a = b ∧ s.Twin t) (fun d e s t => d = e ∧ s.Twin t) Error.FromCheck := by
  intro s t ht
  cases maxSteps with
  | none =>
      have h := simulates_untilResult Session.simulates_step Run.endless s t ht
      simp only [runWithin, Session.runToHalt]
      cases hs : Run.untilResult Session.step Run.endless s with
      | ok result s' =>
          simp only [hs] at h
          obtain ⟨_, _, ht', rfl, hm, rfl⟩ := h
          rw [ht']
          cases result with
          | some result => exact ⟨_, _, rfl, rfl, hm, rfl⟩
          | none => exact .inr ⟨_, _, rfl, rfl, hm, rfl⟩
      | error fault s' =>
          simp only [hs] at h
          refine h.imp_right ?_
          rintro ⟨_, _, ht', rfl, hm, rfl⟩
          exact ⟨_, _, by rw [ht'], rfl, hm, rfl⟩
  | some limit =>
      have h := Session.simulates_runFor limit s t ht
      simp only [runWithin]
      cases hs : Session.runFor limit s with
      | ok progress s' =>
          simp only [hs] at h
          obtain ⟨_, _, ht', rfl, hm, rfl⟩ := h
          rw [ht']
          obtain ⟨steps, result⟩ := progress
          cases result with
          | some result => exact ⟨_, _, rfl, rfl, hm, rfl⟩
          | none => exact .inr ⟨_, _, rfl, rfl, hm, rfl⟩
      | error fault s' =>
          simp only [hs] at h
          refine h.imp_right ?_
          rintro ⟨_, _, ht', rfl, hm, rfl⟩
          exact ⟨_, _, by rw [ht'], rfl, hm, rfl⟩

theorem print_inMode (text : List Char) (s : Session) (mode : Mode) :
    print text (s.inMode mode) = (print text s).mapState (Session.inMode · mode) := by
  simp only [print, Session.inMode, Machine.inMode]
  cases Sink.write text s.machine.out <;> rfl

theorem runAndReport_inMode {maxSteps : Option Nat} {s : Session}
    (hm : s.machine.memory.mode = .hardened)
    (hc : ∀ e s', runWithin maxSteps s = .error e s' → ¬ e.FromCheck) :
    runAndReport maxSteps (s.inMode .compatible) =
      (runAndReport maxSteps s).mapState (Session.inMode · .compatible) := by
  have h := (simulates_runWithin maxSteps).eq_mapState (fun _ _ ht => ht.2)
    (s := s) ⟨hm, rfl⟩ hc
  have hr : ∀ s : Session, reportText (s.inMode .compatible).machine = reportText s.machine :=
    fun _ => rfl
  simp only [runAndReport, h]
  cases runWithin maxSteps s with
  | ok result s' =>
      simp only [EStateM.Result.mapState, hr, print_inMode]
      cases print (reportText s'.machine) s' <;> rfl
  | error e s' =>
      simp only [EStateM.Result.mapState, hr, print_inMode]
      cases print (reportText s'.machine) s' <;> rfl

/-- An error of the run itself is the error of the run with its report. -/
theorem runAndReport_eq_error {maxSteps : Option Nat} {s s' : Session} {e : Error}
    (h : runWithin maxSteps s = .error e s') :
    ∃ s'', runAndReport maxSteps s = .error e s'' := by
  simp only [runAndReport, h]
  cases print (reportText s'.machine) s' with
  | ok _ s'' => exact ⟨s'', rfl⟩
  | error _ s'' => exact ⟨s'', rfl⟩

theorem mode_print {text : List Char} {s s' : Session} {u : Unit}
    (h : print text s = .ok u s') : s'.machine.memory.mode = s.machine.memory.mode := by
  simp only [print] at h
  cases hs : Sink.write text s.machine.out with
  | ok u out =>
      simp only [hs, EStateM.Result.ok.injEq] at h
      rw [← h.2]
  | error e out => simp [hs] at h

/-- Running an image in compatible mode does what running it in hardened mode does, unless a check
of hardened mode fails. -/
theorem run_compatible {options : Options} {image : List Word} {out : Sink Char}
    {journal : Journal}
    (hc : ∀ e s, run { options with compatible := false } image out journal = .error e s →
      ¬ e.FromCheck) :
    run { options with compatible := true } image out journal =
      (run { options with compatible := false } image out journal).mapState
        (Session.inMode · .compatible) := by
  simp only [run, Options.mode, if_true, Bool.false_eq_true, if_false,
    Machine.load_compatible] at hc ⊢
  cases hl : (Machine.powerOn .hardened out).load image with
  | error e => rfl
  | ok m =>
      have hm : m.memory.mode = .hardened := by
        obtain ⟨memory, hload, rfl⟩ := Machine.load_eq_ok hl
        exact Memory.mode_load hload
      simp only [hl, Except.map] at hc ⊢
      have hd : dumpText (m.inMode .compatible) = dumpText m := rfl
      have hs : (⟨m.inMode .compatible, journal⟩ : Session) =
        Session.inMode ⟨m, journal⟩ .compatible := rfl
      rw [hd, hs, print_inMode]
      cases hp : print (if options.dumpMemory then dumpText m else []) ⟨m, journal⟩ with
      | error e s => rfl
      | ok u s =>
          simp only [hp, EStateM.Result.mapState] at hc ⊢
          refine runAndReport_inMode ((mode_print hp).trans hm) fun e s' he => ?_
          obtain ⟨s'', hr⟩ := runAndReport_eq_error he
          exact hc e s'' hr

end Runner

/-- Hardened mode is a conservative restriction of compatible mode. A hardened step, a history of
steps from any image, or a complete run in which no check of hardened mode fails is the step, the
history or the run in compatible mode: the answers, the registers, memory, the counters and the
output are the same. -/
theorem hardened_restricts_compatible :
    (∀ m : Machine, m.memory.mode = .hardened →
      (∀ fault m', m.step = .error fault m' → ¬ fault.cause.FromCheck) →
      (m.inMode .compatible).step = m.step.mapState (Machine.inMode · .compatible)) ∧
    (∀ (image : List Word) (out : Sink Char) (m : Machine) (n : Nat),
      (Machine.powerOn .hardened out).load image = .ok m →
      (∀ fault, .error fault ∈ (Run.history Machine.step n m).1 → ¬ fault.cause.FromCheck) →
      (Machine.powerOn .compatible out).load image = .ok (m.inMode .compatible) ∧
      Run.history Machine.step n (m.inMode .compatible) =
        ((Run.history Machine.step n m).1, (Run.history Machine.step n m).2.inMode .compatible)) ∧
    (∀ (options : Runner.Options) (image : List Word) (out : Sink Char) (journal : Journal),
      (∀ e s, Runner.run { options with compatible := false } image out journal = .error e s →
        ¬ e.FromCheck) →
      Runner.run { options with compatible := true } image out journal =
        (Runner.run { options with compatible := false } image out journal).mapState
          (Session.inMode · .compatible)) := by
  refine ⟨fun m hm hc => ?_, fun image out m n hl hc => ?_, fun options image out journal hc => ?_⟩
  · exact Machine.simulates_step.eq_mapState (fun _ _ ht => ht.2) (R := Machine.Twin) ⟨hm, rfl⟩ hc
  · have hm : m.memory.mode = .hardened := by
      obtain ⟨memory, hload, rfl⟩ := Machine.load_eq_ok hl
      exact Memory.mode_load hload
    refine ⟨by rw [Machine.load_compatible, hl]; rfl, ?_⟩
    obtain ⟨ha, hr⟩ := history_of_simulates Machine.simulates_step n ⟨hm, rfl⟩ hc
    exact Prod.ext ha hr.2
  · exact Runner.run_compatible hc

/-- A division by zero is the same fault in both modes, after the same steps and with the same
traffic report. -/
theorem hardened_restricts_compatible_division :
    ∃ m, (Machine.powerOn .hardened {}).load [12, 1, 12, 0, 5] = .ok m ∧
      m.memory.mode = .hardened ∧
      (m.inMode .compatible).step = m.step.mapState (Machine.inMode · .compatible) ∧
      (Run.history Machine.step 3 m).1 =
        [.ok none, .ok none, .error ⟨4, some (5, none), .arithmetic⟩] ∧
      Run.history Machine.step 3 (m.inMode .compatible) =
        ((Run.history Machine.step 3 m).1, (Run.history Machine.step 3 m).2.inMode .compatible) ∧
      Runner.run { compatible := true } [12, 1, 12, 0, 5] {} {} =
        (Runner.run {} [12, 1, 12, 0, 5] {} {}).mapState (Session.inMode · .compatible) := by
  obtain ⟨hstep, hhistory, hrun⟩ := hardened_restricts_compatible
  obtain ⟨m, hl, hs, hh⟩ : ∃ m, (Machine.powerOn .hardened {}).load [12, 1, 12, 0, 5] = .ok m ∧
      (∃ m', m.step = .ok none m') ∧ (Run.history Machine.step 3 m).1 =
        [.ok none, .ok none, .error ⟨4, some (5, none), .arithmetic⟩] :=
    ⟨_, rfl, ⟨_, rfl⟩, rfl⟩
  obtain ⟨memory, hload, rfl⟩ := Machine.load_eq_ok hl
  have hm : memory.mode = .hardened := Memory.mode_load hload
  refine ⟨_, hl, hm, ?_, hh, ?_, ?_⟩
  · apply hstep _ hm
    intro fault m' hf
    obtain ⟨m'', hs⟩ := hs
    rw [hs] at hf
    cases hf
  · refine (hhistory _ _ _ 3 hl ?_).2
    intro fault hf
    rw [hh] at hf
    simp only [List.mem_cons, List.not_mem_nil, or_false, reduceCtorEq, false_or,
      Except.error.injEq] at hf
    rw [hf]
    exact id
  · refine hrun {} _ _ _ ?_
    intro e s he
    have hd : ∃ s, Runner.run {} [12, 1, 12, 0, 5] {} {} =
        .error (.fault ⟨4, some (5, none), .arithmetic⟩) s := ⟨_, rfl⟩
    obtain ⟨s', hd⟩ := hd
    rw [hd] at he
    cases he
    exact id

end CoolMachine
