import Mathlib.Data.List.Basic
import CoolMachine.Proofs.Machine.Operand
import CoolMachine.Proofs.Session.Replies

/-! The records that a session keeps. At the highest verbosity each instruction that counts leaves a
record of the machine before it, each successful halt leaves one more, and nothing else leaves any;
so the records tell which instructions have run, in order. -/

namespace CoolMachine

/-! ### Journals -/

namespace Journal

theorem keeps_trace_iff (journal : Journal) :
    journal.keeps .trace ↔ journal.verbosity = some .trace := by
  unfold keeps
  cases journal.verbosity with
  | none => simp
  | some level => cases level <;> decide

theorem keeps_debug_iff (journal : Journal) : journal.keeps .debug ↔
    journal.verbosity = some .debug ∨ journal.verbosity = some .trace := by
  unfold keeps
  cases journal.verbosity with
  | none => simp
  | some level => cases level <;> decide

/-- The second journal is the first one with more records behind. -/
structure Adds (before : Journal) (records : List Record) (after : Journal) : Prop where
  verbosity_eq : after.verbosity = before.verbosity
  records_eq : after.records = before.records ++ records

theorem Adds.nil (journal : Journal) : Adds journal [] journal :=
  ⟨rfl, (List.append_nil _).symm⟩

theorem Adds.append {first second third : Journal} {records records' : List Record}
    (h : Adds first records second) (h' : Adds second records' third) :
    Adds first (records ++ records') third where
  verbosity_eq := h'.verbosity_eq.trans h.verbosity_eq
  records_eq := by rw [h'.records_eq, h.records_eq, List.append_assoc]

theorem adds_note (journal : Journal) (level : Level) (origin : Origin) (text : Unit → String) :
    Adds journal (if journal.keeps level then [⟨level, origin, text ()⟩] else [])
      (journal.note level origin text) :=
  ⟨journal.verbosity_note level origin text, journal.records_note level origin text⟩

end Journal

/-! ### The records of one step -/

namespace Machine

/-- The record of the instruction at the program counter. -/
def traceRecord (m : Machine) : Record := ⟨.trace, .machine, m.traceText m.opcodeWord⟩

/-- The record of a halt at the program counter, which is counted itself. -/
def haltRecord (m : Machine) : Record :=
  ⟨.debug, .machine, "Core executed " ++ toString (m.executed + 1) ++ " instructions"⟩

/-- The records that the instruction at the program counter leaves under a verbosity. -/
def noted (m : Machine) (verbosity : Option Level) : List Record :=
  (if verbosity = some .trace then [m.traceRecord] else []) ++
    if (verbosity = some .debug ∨ verbosity = some .trace) ∧ m.Stops then [m.haltRecord] else []

theorem upcoming?_of_begins {m : Machine} (h : m.Begins) : m.upcoming? = some m.opcodeWord := by
  obtain ⟨cell, hr⟩ := Option.ne_none_iff_exists'.mp h.2
  simp only [upcoming?, h.1, hr, Option.map_some, opcodeWord, Mode.eq_of_resolve hr]

theorem upcoming?_of_not_begins {m : Machine} (h : ¬ m.Begins) : m.upcoming? = none := by
  unfold upcoming?
  split
  · rfl
  · next hh =>
      have hr : m.memory.mode.resolve m.pc = none := Decidable.of_not_not fun hr => h ⟨hh, hr⟩
      rw [hr, Option.map_none]

end Machine

namespace Session

theorem adds_noteFetch (journal : Journal) (m : Machine) :
    journal.Adds (if journal.verbosity = some .trace ∧ m.Begins then [m.traceRecord] else [])
      (noteFetch journal m) := by
  by_cases hb : m.Begins
  · have hnote := journal.adds_note .trace .machine fun _ => m.traceText m.opcodeWord
    rw [noteFetch, Machine.upcoming?_of_begins hb]
    simp only [hb, and_true, ← Journal.keeps_trace_iff]
    by_cases hk : journal.keeps .trace
    · rw [if_pos hk] at hnote ⊢
      rwa [if_pos hk]
    · rw [if_neg hk, if_neg hk]
      exact .nil journal
  · rw [noteFetch, Machine.upcoming?_of_not_begins hb, if_neg fun h => hb h.2]
    split <;> exact .nil journal

theorem adds_noteHalt (journal : Journal) (before after : Machine) :
    journal.Adds
      (if (journal.verbosity = some .debug ∨ journal.verbosity = some .trace) ∧
          before.halted = none ∧ after.halted ≠ none then
        [⟨.debug, .machine, after.haltText⟩]
      else [])
      (noteHalt journal before after) := by
  have hnote := journal.adds_note .debug .machine fun _ => after.haltText
  simp only [← journal.keeps_debug_iff, noteHalt]
  by_cases hh : before.halted = none ∧ after.halted ≠ none
  · have hflag : (before.halted.isNone && after.halted.isSome) = true := by
      simp [hh.1, Option.isSome_iff_ne_none.mpr hh.2]
    rw [if_pos hflag]
    simpa [hh.1, hh.2] using hnote
  · have hflag : ¬ (before.halted.isNone && after.halted.isSome) = true := by
      simpa [Option.isSome_iff_ne_none] using hh
    rw [if_neg hflag, if_neg fun h => hh h.2]
    exact .nil journal

/-- A step leaves the records of the instruction that it begins, if it begins one. -/
theorem adds_step (s : Session) :
    s.journal.Adds (if s.machine.Begins then s.machine.noted s.journal.verbosity else [])
      (step s).state.journal := by
  obtain ⟨m, journal⟩ := s
  have hfetch := adds_noteFetch journal m
  simp only [step]
  cases hs : m.step with
  | error fault m' =>
      have hstops := Machine.not_stops_of_error hs
      change journal.Adds _ (noteFetch journal m)
      by_cases hb : m.Begins
      · simpa [hb, Machine.noted, hstops] using hfetch
      · simpa [hb] using hfetch
  | ok result m' =>
      have hhalt := adds_noteHalt (noteFetch journal m) m m'
      simp only [hfetch.verbosity_eq, Machine.stops_iff hs] at hhalt
      have hboth := hfetch.append hhalt
      by_cases hb : m.Begins
      · have htext : m'.haltText = m.haltRecord.text := by
          rw [Machine.haltText, Machine.executed_step hb.1 hs]
          rfl
        simp only [hb, and_true, htext] at hboth
        rw [if_pos hb]
        exact hboth
      · have hstops : ¬ m.Stops := fun h => hb h.begins
        simp only [hb, hstops, and_false, if_false] at hboth
        rw [if_neg hb]
        exact hboth

/-! ### The records of runs -/

theorem step_of_halted {s : Session} {result : Word} (h : s.machine.halted = some result) :
    step s = .ok (some result) s := by
  have hup : s.machine.upcoming? = none := by simp only [Machine.upcoming?, h]
  simp [step, Machine.step_of_halted h, noteFetch, hup, noteHalt, h]

theorem state_runFor (s : Session) (limit : Nat) :
    (runFor limit s).state = (Run.upTo step limit 0 s).state := by
  cases h : s.machine.halted with
  | none => simp only [runFor, h]
  | some result =>
      simp only [runFor, h]
      cases limit with
      | zero => rfl
      | succ limit =>
          rw [Run.state_upTo_succ, step_of_halted h]
          rfl

theorem respond_of_limit {op : Operation} {limit : Nat} (h : op.limit? = some limit)
    (s : Session) : (s.respond op).2 = (Run.upTo step limit 0 s).state := by
  cases op with
  | load | reset | attach => cases h
  | step =>
      cases h
      rw [respond, Run.state_upTo_one]
  | advance limit =>
      cases h
      rw [respond, state_runFor]
  | runToHalt =>
      cases h
      rw [respond, runToHalt, Run.state_untilResult]

theorem adds_upTo (s : Session) (limit done : Nat) :
    s.journal.Adds ((s.machine.begun limit).flatMap fun m => m.noted s.journal.verbosity)
      (Run.upTo step limit done s).state.journal := by
  induction limit generalizing s done with
  | zero => exact .nil s.journal
  | succ limit ih =>
      have hstep := s.adds_step
      -- The machine alone goes on exactly when the session does.
      have hm := transparent_step.mapState s
      rw [Run.state_upTo_succ]
      split
      · next s' hs =>
          rw [hs] at hm hstep
          have hm' : s.machine.step = .ok none s'.machine := hm.symm
          have hrest := ih s' (done + 1)
          rw [if_pos (Machine.begins_of_step hm')] at hstep
          rw [show s'.journal.verbosity = s.journal.verbosity from hstep.verbosity_eq] at hrest
          rw [Machine.begun_succ_of_step hm', List.flatMap_cons]
          exact hstep.append hrest
      · next hs =>
          have hended : ∀ m', s.machine.step ≠ .ok none m' := by
            intro m' hm'
            rw [hm'] at hm
            cases hr : step s with
            | ok result s' =>
                rw [hr] at hm
                cases hm
                exact hs s' hr
            | error fault s' =>
                rw [hr] at hm
                cases hm
          by_cases hb : s.machine.Begins
          · rw [if_pos hb] at hstep
            rwa [Machine.begun_succ_of_ended hb hended, List.flatMap_singleton]
          · rw [if_neg hb] at hstep
            rwa [Machine.begun_of_not_begins hb]

/-- An operation leaves the records of the instructions that it begins. -/
theorem adds_respond (s : Session) (op : Operation) :
    s.journal.Adds ((s.machine.begunBy op).flatMap fun m => m.noted s.journal.verbosity)
      (s.respond op).2.journal := by
  cases hl : op.limit? with
  | some limit =>
      rw [respond_of_limit hl, Machine.begunBy, hl]
      exact s.adds_upTo limit 0
  | none =>
      rw [Machine.begunBy, hl]
      cases op with
      | reset => exact .nil s.journal
      | attach out => exact .nil s.journal
      | step | advance | runToHalt => cases hl
      | load image =>
          rw [respond]
          cases s.machine.load image <;> exact .nil s.journal

end Session

/-! ### Whole sessions -/

/-- The instructions that a machine counts while it serves requests, each as the machine before it
and beside the verbosity in force. -/
def Machine.instructions : Machine → Requests → List (Option Level × Machine)
  | _, [] => []
  | m, (verbosity, op) :: requests =>
    (m.begunBy op).map (Prod.mk verbosity) ++ (m.perform op).2.instructions requests

theorem Machine.counts_instructions (m : Machine) {requests : Requests}
    (h : ∀ request ∈ requests, request.2 ≠ .reset) :
    Counts m ((m.instructions requests).map Prod.snd) (m.performAll (requests.map Prod.snd)) := by
  induction requests generalizing m with
  | nil => exact .nil m
  | cons request requests ih =>
      obtain ⟨verbosity, op⟩ := request
      have hop : op ≠ .reset := h _ List.mem_cons_self
      have hrest := ih (m.perform op).2 fun request hr => h request (List.mem_cons_of_mem _ hr)
      have hinstructions : (m.instructions ((verbosity, op) :: requests)).map Prod.snd =
          m.begunBy op ++ ((m.perform op).2.instructions requests).map Prod.snd := by
        simp [instructions]
      rw [hinstructions]
      exact (counts_perform hop m).append hrest

namespace Session

/-- The records of a session are those of the instructions that it has let run, in order. -/
theorem records_after (s : Session) (requests : Requests) :
    (s.after requests).journal.records = s.journal.records ++
      (s.machine.instructions requests).flatMap fun entry => entry.2.noted entry.1 := by
  induction requests generalizing s with
  | nil => exact (List.append_nil _).symm
  | cons request requests ih =>
      obtain ⟨verbosity, op⟩ := request
      have hfirst := ((s.under verbosity).adds_respond op).records_eq
      have hrest := ih ((s.under verbosity).respond op).2
      rw [machine_respond] at hrest
      calc (s.after ((verbosity, op) :: requests)).journal.records
          = (((s.under verbosity).respond op).2.after requests).journal.records := rfl
        _ = s.journal.records ++
              ((s.machine.begunBy op).flatMap fun m => m.noted verbosity) ++
              ((s.machine.perform op).2.instructions requests).flatMap
                fun entry => entry.2.noted entry.1 := by
            rw [hrest, hfirst]
            rfl
        _ = s.journal.records ++
              (s.machine.instructions ((verbosity, op) :: requests)).flatMap
                fun entry => entry.2.noted entry.1 := by
            rw [Machine.instructions, List.flatMap_append, List.flatMap_map, List.append_assoc]

end Session

/-! ### What the records show -/

namespace Machine

/-- An instruction with its registers, each in its column; the operand is shown if it has one. -/
def instructionText (pc sp fp : Register) (word operand : Word) : String :=
  let shown := if (Opcode.ofWord? word).any Opcode.takesOperand then some operand else none
  String.ofList (List.leftpad 5 ' ' (Decimal.ofInt pc.toInt)) ++ ": " ++
    String.ofList (List.rightpad 14 ' ' (listing word shown)) ++
    " sp=" ++ toString sp.toInt ++ " fp=" ++ toString fp.toInt

/-- The words that a trace record shows, if `cell` is where the program counter stands and `next`
is the cell behind it. -/
theorem traceRecord_text (m : Machine) {cell next : Word}
    (hcell : cell = Word.ofRegister m.pc) (hnext : next = Word.ofRegister (m.pc + 1)) :
    m.traceRecord.text =
      instructionText m.pc m.sp m.fp (m.memory.peek cell) (m.memory.peek next) := by
  rw [traceRecord, traceText, instructionText, operandBehind, hcell, hnext, opcodeWord]
  cases Opcode.ofWord? (m.memory.peek (Word.ofRegister m.pc)) <;> rfl

/-- The trace records among those that an instruction leaves at the highest verbosity. -/
theorem filter_noted_trace (m : Machine) :
    (m.noted (some .trace)).filter (fun record => record.level = .trace) = [m.traceRecord] := by
  unfold noted
  split <;> split <;> simp_all [traceRecord, haltRecord]

theorem verbosity_of_mem_instructions {m : Machine} {requests : Requests}
    {entry : Option Level × Machine} (h : entry ∈ m.instructions requests) :
    ∃ request ∈ requests, request.1 = entry.1 := by
  induction requests generalizing m with
  | nil => cases h
  | cons request requests ih =>
      obtain ⟨verbosity, op⟩ := request
      obtain h | h := List.mem_append.mp h
      · obtain ⟨m', -, rfl⟩ := List.mem_map.mp h
        exact ⟨_, List.mem_cons_self, rfl⟩
      · obtain ⟨request, hmem, heq⟩ := ih h
        exact ⟨request, List.mem_cons_of_mem _ hmem, heq⟩

theorem filter_instructions_trace (m : Machine) {requests : Requests}
    (h : ∀ request ∈ requests, request.1 = some .trace) :
    ((m.instructions requests).flatMap fun entry => entry.2.noted entry.1).filter
        (fun record => record.level = .trace) =
      (m.instructions requests).map fun entry => entry.2.traceRecord := by
  rw [List.filter_flatMap, List.map_eq_flatMap]
  refine List.flatMap_congr fun entry hentry => ?_
  obtain ⟨request, hmem, heq⟩ := verbosity_of_mem_instructions hentry
  rw [← heq, h request hmem, filter_noted_trace]

end Machine

namespace Session

/-- The next step of a session under observation. -/
structure StepWatched (s : Session) : Prop where
  /-- It leaves the records of the instruction that it begins, whatever becomes of that, -/
  begins : s.machine.Begins → (step s).state.journal.records =
    s.journal.records ++ s.machine.noted s.journal.verbosity
  /-- and none if the machine has halted or the fetch fails. -/
  not_begins : ¬ s.machine.Begins → (step s).state.journal.records = s.journal.records
  /-- Where an instruction has an operand, it is a fetch that yields it. -/
  fetching : ∀ op, Action.withOperand Action.fetch op = Action.ofOpcode op
  /-- A trace record shows the registers and the words at the program counter and behind it, and no
  instruction fetches any other operand than the one shown. -/
  shown : ∀ cell next : Word, (cell.toNat : Int) = s.machine.pc.toInt % 65536 →
    (next.toNat : Int) = (s.machine.pc.toInt + 1) % 65536 →
    s.machine.traceRecord.text = Machine.instructionText s.machine.pc s.machine.sp s.machine.fp
        (s.machine.memory.peek cell) (s.machine.memory.peek next) ∧
      ∀ op otherwise,
        Action.withOperand (Action.fetchExpecting (s.machine.memory.peek next) otherwise) op
            s.machine.fetched =
          Action.ofOpcode op s.machine.fetched

theorem stepWatched (s : Session) : s.StepWatched where
  begins := by
    intro hb
    have h := s.adds_step.records_eq
    rwa [if_pos hb] at h
  not_begins := by
    intro hb
    have h := s.adds_step.records_eq
    rwa [if_neg hb, List.append_nil] at h
  fetching := Action.withOperand_fetch
  shown := by
    intro cell next hcell hnext
    have hcell' : cell = Word.ofRegister s.machine.pc := (Word.eq_ofRegister_iff cell _).mpr hcell
    have hnext' : next = Word.ofRegister (s.machine.pc + 1) :=
      (Word.eq_ofRegister_succ_iff next _).mpr hnext
    refine ⟨s.machine.traceRecord_text hcell' hnext', fun op otherwise => ?_⟩
    rw [hnext']
    exact Action.withOperand_expecting s.machine op otherwise

/-- A session that is watched under changing verbosities. -/
structure Watched (s : Session) (requests : Requests) : Prop where
  /-- Whatever is kept, every answer and every machine is the one of the same session unwatched. -/
  undisturbed : (s.responses requests).map (Prod.map id machine) =
    (s.responses requests.silenced).map (Prod.map id machine)
  /-- The records that are kept are those of the instructions counted, and no others. -/
  recorded : (s.after requests).journal.records = s.journal.records ++
    (s.machine.instructions requests).flatMap fun entry => entry.2.noted entry.1
  /-- At the highest verbosity there is one trace record for each instruction counted, in order. -/
  traced : (∀ request ∈ requests, request.1 = some .trace) →
    ((s.machine.instructions requests).flatMap fun entry => entry.2.noted entry.1).filter
        (fun record => record.level = .trace) =
      (s.machine.instructions requests).map fun entry => entry.2.traceRecord
  counted : (∀ request ∈ requests, request.2 ≠ .reset) →
    s.machine.Counts ((s.machine.instructions requests).map Prod.snd) (s.after requests).machine
  next : (s.after requests).StepWatched

/-- Keeping records disturbs nothing, and the records tell what has run. -/
theorem records_tell_what_ran (s : Session) (requests : Requests) : s.Watched requests where
  undisturbed := s.responses_silenced requests
  recorded := s.records_after requests
  traced := s.machine.filter_instructions_trace
  counted := by
    intro h
    rw [machine_after]
    exact s.machine.counts_instructions h
  next := stepWatched _

/-- Of pushc 7; halt, with a word between them that is no opcode, the first instruction goes
unrecorded, and so does the step of the halted machine. -/
example : ((Session.mk ((Machine.powerOn .compatible {}).perform (.load [12, 7, 20, 0])).2 {}).after
      [(none, .step), (some .trace, .advance 5), (some .trace, .step)]).journal.records =
    [⟨.trace, .machine, "    2: illegal 20     sp=65535 fp=0"⟩,
      ⟨.trace, .machine, "    3: halt           sp=65535 fp=0"⟩,
      ⟨.debug, .machine, "Core executed 3 instructions"⟩] := by rfl

end Session

end CoolMachine
