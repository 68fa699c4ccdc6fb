import CoolMachine.Proofs.Output.Run
import CoolMachine.Proofs.Runner.Machine

/-! A full stream cuts a run's output short and spoils nothing. Whatever the capacity, the stream
holds a prefix of what an unbounded one would hold, and how the run ends depends only on which of
its three writes is the first that does not fit: the dump, a printed number, or the report. -/

namespace CoolMachine.Runner

/-! ### One byte for each character -/

/-- The characters take one byte each. -/
def OneByte (text : List Char) : Prop := ∀ c ∈ text, c.toNat < 128

instance (text : List Char) : Decidable (OneByte text) :=
  List.decidableBAll (fun c : Char => c.toNat < 128) text

theorem oneByte_append {first second : List Char} :
    OneByte (first ++ second) ↔ OneByte first ∧ OneByte second :=
  List.forall_mem_append

theorem oneByte_ofNat (n : Nat) : OneByte (Decimal.ofNat n) := by
  intro c hc
  have hd := Decimal.isDigit_of_mem_ofNat hc
  simp only [Char.isDigit, Bool.and_eq_true, decide_eq_true_eq] at hd
  have hle : c.toNat ≤ 57 := hd.2
  omega

theorem oneByte_ofInt (i : Int) : OneByte (Decimal.ofInt i) := by
  cases i with
  | ofNat n => exact oneByte_ofNat n
  | negSucc n =>
      have hsign : OneByte ['-'] := by decide
      exact oneByte_append.mpr ⟨hsign, oneByte_ofNat (n + 1)⟩

theorem oneByte_flatMap {α : Type} {f : α → List Char} (h : ∀ a, OneByte (f a)) (items : List α) :
    OneByte (items.flatMap f) := by
  intro c hc
  obtain ⟨a, -, hc⟩ := List.mem_flatMap.mp hc
  exact h a c hc

theorem oneByte_dump (options : Options) (m : Machine) : OneByte (options.dump m) := by
  have hblank : OneByte [' '] := by decide
  unfold Options.dump
  split
  · exact oneByte_flatMap (fun w : Word => oneByte_append.mpr ⟨oneByte_ofNat w.toNat, hblank⟩) _
  · decide

theorem oneByte_printed (n : Nat) (m : Machine) : OneByte (m.printed n) := by
  refine oneByte_flatMap (fun m => ?_) _
  unfold Machine.printout
  split
  · exact oneByte_ofInt _
  · decide

theorem oneByte_toString (n : Nat) : OneByte (toString n).toList := by
  rw [Decimal.toList_toString_nat]
  exact oneByte_ofNat n

theorem oneByte_report (traffic : Traffic) : OneByte traffic.report.toList := by
  unfold Traffic.report
  simp only [String.toList_append, oneByte_append, oneByte_toString, and_true]
  decide

/-! ### The dump and the report -/

theorem dump_of_load (options : Options) {before m : Machine} {image : List Word}
    (h : before.load image = .ok m) : options.dump m = if options.dumpMemory then
      (List.range 50).flatMap fun address =>
        (toString (image[address]?.getD 0).toNat).toList ++ [' ']
    else [] := by
  obtain ⟨memory, hload, rfl⟩ := Machine.load_eq_ok h
  have hwords : (memory.range? 0 dumpWords).getD [] = (List.range 50).map memory.cells.get := rfl
  have hcell : ∀ address ∈ List.range 50, memory.cells.get address = image[address]?.getD 0 := by
    intro address ha
    have hlt : address < 65536 := Nat.lt_of_lt_of_le (List.mem_range.mp ha) (by decide)
    have hcode : (UInt16.ofNat address).toNat = address := UInt16.toNat_ofNat_of_lt' hlt
    have hpeek := Memory.peek_load hload (UInt16.ofNat address)
    rwa [Memory.peek, hcode] at hpeek
  simp only [Options.dump, dumpText, hwords, List.flatMap_map, Decimal.toList_toString_nat]
  split
  · exact List.flatMap_congr fun address ha => by rw [hcell address ha]
  · rfl

theorem reportText_of_uncached {m : Machine}
    (h : m.memory.traffic.hits = 0 ∧ m.memory.traffic.misses = 0) :
    reportText m =
      ("@number-of-main-memory-reads\t" ++ toString m.memory.traffic.reads ++ "\n" ++
        "@number-of-main-memory-writes\t" ++ toString m.memory.traffic.writes ++ "\n" ++
        "@number-of-cache-memory-hits\t0\n" ++ "@number-of-cache-memory-misses\t0\n").toList := by
  have hhits : "@number-of-cache-memory-hits\t" ++ toString 0 ++ "\n" =
    "@number-of-cache-memory-hits\t0\n" := by decide
  have hmisses : "@number-of-cache-memory-misses\t" ++ toString 0 ++ "\n" =
    "@number-of-cache-memory-misses\t0\n" := by decide
  unfold reportText Traffic.report
  rw [h.1, h.2, ← hhits, ← hmisses]
  simp only [String.append_assoc]

/-! ### Three writes -/

section Writes

variable {options : Options} {m : Machine} {out out₁ out₂ : Sink Char} {e : OutputError}

theorem verdict_attach (ended : EStateM.Result Fault Machine (Progress Word)) (out : Sink Char) :
    verdict (ended.mapState (·.attach out)) = (verdict ended).mapState (·.attach out) := by
  cases ended with
  | error fault m => rfl
  | ok progress m =>
      rcases progress with ⟨steps, result⟩
      cases result <;> rfl

theorem state_verdict (ended : EStateM.Result Fault Machine (Progress Word)) :
    (verdict ended).state = ended.state := by
  cases ended with
  | error fault m => rfl
  | ok progress m =>
      rcases progress with ⟨steps, result⟩
      cases result <;> rfl

/-- The report tells the counters, whatever the stream. -/
theorem reported_attach (result : Word) (m : Machine) (out : Sink Char) :
    reported (.ok result (m.attach out)) =
      match Sink.write (reportText m) out with
      | .ok _ out => .ok result (m.attach out)
      | .error e out => .error (.output e) (m.attach out) := rfl

theorem state_reported (ended : EStateM.Result Error Machine Word) (out : Sink Char) :
    (reported (ended.mapState (·.attach out))).state =
      ended.state.attach (Sink.write (reportText ended.state) out).state := by
  cases ended with
  | error error m => rfl
  | ok result m =>
      rw [EStateM.Result.mapState, reported_attach, EStateM.Result.state]
      cases Sink.write (reportText m) out <;> rfl

theorem answer_reported (ended : EStateM.Result Error Machine Word) (out : Sink Char) :
    (reported (ended.mapState (·.attach out))).answer =
      match Sink.write (reportText ended.state) out, ended.answer with
      | .error e _, .ok _ => .error (.output e)
      | _, answer => answer := by
  cases ended with
  | error error m =>
      simp only [EStateM.Result.mapState, reported, EStateM.Result.answer, EStateM.Result.state]
      cases Sink.write (reportText m) out <;> rfl
  | ok result m =>
      rw [EStateM.Result.mapState, reported_attach, EStateM.Result.state]
      cases Sink.write (reportText m) out <;> rfl

/-- The stream takes the dump and all that the program prints. -/
theorem runOn_of_taken (hroom : m.out.room = none) (hh : m.halted = none)
    (h₁ : Sink.write (options.dump m) out = .ok () out₁)
    (h₂ : Sink.write (m.printed options.stepLimit) out₁ = .ok () out₂) :
    runOn options m out =
      reported ((verdict (m.runFor options.stepLimit)).mapState (·.attach out₂)) := by
  have hrun := Machine.upTo_attach hroom hh options.stepLimit 0 out₁
  rw [h₂] at hrun
  have hh₁ : (m.attach out₁).halted = none := hh
  rw [← verdict_attach, Machine.runFor_of_running hh, ← hrun]
  simp only [runOn, h₁, Machine.runFor_of_running hh₁]

/-- The stream takes the dump, and refuses a text that the program prints. -/
theorem runOn_of_refused (hroom : m.out.room = none) (hh : m.halted = none)
    (h₁ : Sink.write (options.dump m) out = .ok () out₁)
    (h₂ : Sink.write (m.printed options.stepLimit) out₁ = .error e out₂) :
    ∃ before refused m',
      Machine.Refused (m.executing options.stepLimit) out₁ before refused e ∧
      runOn options m out = reported
        (.error (.fault ⟨refused.pc, some (Opcode.printi.code, none), .output e⟩) m') ∧
      m'.out = out₂ ∧ m'.executed = m.executed + before.length + 1 := by
  have hrun := Machine.upTo_attach hroom hh options.stepLimit 0 out₁
  rw [h₂] at hrun
  obtain ⟨before, refused, m', hr, hrun, hout, he⟩ := hrun
  have hh₁ : (m.attach out₁).halted = none := hh
  refine ⟨before, refused, m', hr, ?_, hout, he⟩
  simp only [runOn, h₁, Machine.runFor_of_running hh₁, hrun, verdict]

end Writes

/-! ### Runs that are cut short -/

/-- How a run on a stream of the given capacity follows the run on an unbounded stream, where `m` is
the machine with the image loaded. -/
structure Truncates (options : Options) (image : List Word) (m : Machine) (capacity : Nat)
    (full cut : EStateM.Result Error Machine Word) : Prop where
  /-- A dump shows fifty words of memory, unsigned, with a space after each. -/
  dump_eq : options.dump m = if options.dumpMemory then
      (List.range 50).flatMap fun address =>
        (toString (image[address]?.getD 0).toNat).toList ++ [' ']
    else []
  /-- One instruction prints, and what it prints is the word on top of the stack, signed. -/
  printout_eq : ∀ m' ∈ m.executing options.stepLimit, m'.printout =
    if m'.opcodeWord = 10 then (toString ((m'.topWord.toNat : Int).bmod 65536)).toList else []
  /-- The unbounded stream holds the dump, what the executed instructions print, and the report of
  the counters at the end, however the run ends. -/
  full_eq : full.state.out.contents = options.dump m ++ m.printed options.stepLimit ++
    ("@number-of-main-memory-reads\t" ++ toString full.state.memory.traffic.reads ++ "\n" ++
      "@number-of-main-memory-writes\t" ++ toString full.state.memory.traffic.writes ++ "\n" ++
      "@number-of-cache-memory-hits\t0\n" ++ "@number-of-cache-memory-misses\t0\n").toList
  oneByte : OneByte full.state.out.contents
  cut_eq : cut.state.out.contents = full.state.out.contents.take capacity
  whole : full.state.out.contents.length ≤ capacity → cut.answer = full.answer
  dumping : capacity < (options.dump m).length →
    cut.answer = .error (.output .full) ∧ cut.state.executed = 0
  /-- The run faults at the first instruction whose text does not fit. -/
  printing : (options.dump m).length ≤ capacity →
    capacity < (options.dump m ++ m.printed options.stepLimit).length →
    ∃ before refused after, m.executing options.stepLimit = before ++ refused :: after ∧
      (options.dump m ++ before.flatMap Machine.printout).length ≤ capacity ∧
      capacity < (options.dump m ++ before.flatMap Machine.printout ++ refused.printout).length ∧
      refused.opcodeWord = 10 ∧
      cut.answer = .error (.fault ⟨refused.pc, some (10, none), .output .full⟩) ∧
      cut.state.executed = before.length + 1
  /-- Where only the report does not fit, the error of the run itself comes first. -/
  reporting : (options.dump m ++ m.printed options.stepLimit).length ≤ capacity →
    capacity < full.state.out.contents.length →
    cut.answer = match full.answer with
      | .ok _ => .error (.output .full)
      | .error e => .error e

section Runs

variable (options : Options) {m : Machine} {capacity : Nat}

/-- What an unbounded stream takes, and how the run on it ends. -/
theorem runOn_unbounded (hout : m.out = {}) (hh : m.halted = none) :
    runOn options m {} = reported ((verdict (m.runFor options.stepLimit)).mapState
      (·.attach ⟨none, (options.dump m ++ m.printed options.stepLimit).reverse⟩)) := by
  have hroom : m.out.room = none := by rw [hout]
  refine runOn_of_taken hroom hh (Sink.write_unbounded rfl _) ?_
  rw [Sink.write_unbounded rfl, List.append_nil, List.reverse_append]

/-- Neither the stream nor the report has a part in the memory at the end. -/
theorem memory_unbounded (hout : m.out = {}) (hh : m.halted = none) :
    (runOn options m {}).state.memory = (m.runFor options.stepLimit).state.memory := by
  rw [runOn_unbounded options hout hh, state_reported, ← state_verdict]
  rfl

theorem contents_unbounded (hout : m.out = {}) (hh : m.halted = none) :
    (runOn options m {}).state.out.contents =
      options.dump m ++ m.printed options.stepLimit ++ reportText (runOn options m {}).state := by
  have htext : ∀ (m : Machine) (out : Sink Char), reportText (m.attach out) = reportText m :=
    fun _ _ => rfl
  rw [runOn_unbounded options hout hh, state_reported, htext, Sink.write_unbounded rfl]
  simp only [Sink.contents, Machine.attach, EStateM.Result.state, List.reverse_append,
    List.reverse_reverse]

theorem runOn_dumping (h : capacity < (options.dump m).length) :
    runOn options m { room := some capacity } =
      .error (.output .full) (m.attach ⟨some 0, ((options.dump m).take capacity).reverse⟩) := by
  rw [runOn, Sink.write_fresh, if_neg (Nat.not_le.mpr h)]

theorem runOn_printing (hout : m.out = {}) (hh : m.halted = none)
    (hd : (options.dump m).length ≤ capacity)
    (hp : capacity < (options.dump m ++ m.printed options.stepLimit).length) :
    ∃ before refused after m', m.executing options.stepLimit = before ++ refused :: after ∧
      (options.dump m ++ before.flatMap Machine.printout).length ≤ capacity ∧
      capacity < (options.dump m ++ before.flatMap Machine.printout ++ refused.printout).length ∧
      refused.opcodeWord = Opcode.printi.code ∧
      runOn options m { room := some capacity } =
        .error (.fault ⟨refused.pc, some (Opcode.printi.code, none), .output .full⟩) m' ∧
      m'.out.contents = (options.dump m ++ m.printed options.stepLimit).take capacity ∧
      m'.executed = m.executed + before.length + 1 := by
  have hroom : m.out.room = none := by rw [hout]
  have h₁ : Sink.write (options.dump m) { room := some capacity } =
      .ok () ⟨some (capacity - (options.dump m).length), (options.dump m).reverse⟩ := by
    rw [Sink.write_fresh, if_pos hd]
  have h₂ : Sink.write (m.printed options.stepLimit)
      ⟨some (capacity - (options.dump m).length), (options.dump m).reverse⟩ = .error .full
      ⟨some 0, ((options.dump m ++ m.printed options.stepLimit).take capacity).reverse⟩ := by
    rw [Sink.write_behind hd, Sink.write_fresh, if_neg (Nat.not_le.mpr hp)]
  obtain ⟨before, refused, m', hr, hrun, hm, he⟩ := runOn_of_refused hroom hh h₁ h₂
  obtain ⟨⟨after, hafter⟩, hop, middle, final, htaken, hrefused⟩ := hr
  obtain ⟨hle, hmiddle⟩ := Sink.length_le_of_write rfl htaken
  have hlt := (Sink.lt_length_of_write hmiddle hrefused).1
  -- Nothing of the report fits behind the text that was refused.
  have hreport : reported
      (.error (.fault ⟨refused.pc, some (Opcode.printi.code, none), .output .full⟩) m') =
      .error (.fault ⟨refused.pc, some (Opcode.printi.code, none), .output .full⟩) m' := by
    rw [reported, hm, Sink.state_write_of_full, ← hm]
    rfl
  refine ⟨before, refused, after, m', hafter, ?_, ?_, hop, hrun.trans hreport, ?_, he⟩
  · rw [List.length_append]
    omega
  · rw [List.length_append, List.length_append]
    omega
  · rw [hm]
    exact List.reverse_reverse _

/-- Dump and printed text fit, so that only the report can be cut. -/
theorem runOn_reporting (hout : m.out = {}) (hh : m.halted = none)
    (hp : (options.dump m ++ m.printed options.stepLimit).length ≤ capacity) :
    (runOn options m { room := some capacity }).state.out.contents =
      (runOn options m {}).state.out.contents.take capacity ∧
    (runOn options m { room := some capacity }).answer =
      if (runOn options m {}).state.out.contents.length ≤ capacity then (runOn options m {}).answer
      else match (runOn options m {}).answer with
        | .ok _ => .error (.output .full)
        | .error e => .error e := by
  have hroom : m.out.room = none := by rw [hout]
  have hd : (options.dump m).length ≤ capacity := by
    rw [List.length_append] at hp
    omega
  have hcut : runOn options m { room := some capacity } =
      reported ((verdict (m.runFor options.stepLimit)).mapState (·.attach
        ⟨some (capacity - (options.dump m ++ m.printed options.stepLimit).length),
          (options.dump m ++ m.printed options.stepLimit).reverse⟩)) := by
    refine runOn_of_taken hroom hh (by rw [Sink.write_fresh, if_pos hd]) ?_
    rw [Sink.write_behind hd, Sink.write_fresh, if_pos hp]
  have hfull := contents_unbounded options hout hh
  have hreport : reportText (runOn options m {}).state =
      reportText (verdict (m.runFor options.stepLimit)).state := by
    rw [reportText, memory_unbounded options hout hh, reportText, state_verdict]
  rw [hreport] at hfull
  rw [hfull, hcut, state_reported, answer_reported, runOn_unbounded options hout hh,
    answer_reported, Sink.write_behind hp, Sink.write_unbounded
      (s := ⟨none, (options.dump m ++ m.printed options.stepLimit).reverse⟩) rfl]
  refine ⟨Sink.contents_write_fresh capacity _, ?_⟩
  rw [Sink.write_fresh]
  by_cases hfits : (options.dump m ++ m.printed options.stepLimit ++
      reportText (verdict (m.runFor options.stepLimit)).state).length ≤ capacity
  · rw [if_pos hfits, if_pos hfits]
  · rw [if_neg hfits, if_neg hfits]
    cases (verdict (m.runFor options.stepLimit)).answer <;> rfl

/-- The machine at the end has only run, and no run counts anything for the cache. -/
theorem uncached_unbounded {image : List Word}
    (hload : (Machine.powerOn options.mode {}).load image = .ok m) (hout : m.out = {})
    (hh : m.halted = none) :
    (runOn options m {}).state.memory.traffic.hits = 0 ∧
      (runOn options m {}).state.memory.traffic.misses = 0 := by
  have hpower : Machine.Reachable options.mode (.powerOn options.mode {}) := .powerOn {}
  have hm := hpower.perform (.load image)
  rw [Machine.perform, hload] at hm
  have hrun := (hm.perform (.advance options.stepLimit)).uncached
  have hstate : (m.perform (.advance options.stepLimit)).2 =
      (m.runFor options.stepLimit).state := by
    rw [Machine.perform]
    cases m.runFor options.stepLimit <;> rfl
  rwa [hstate, ← memory_unbounded options hout hh] at hrun

theorem runOn_truncates {image : List Word}
    (hload : (Machine.powerOn options.mode {}).load image = .ok m) (capacity : Nat) :
    Truncates options image m capacity (runOn options m {})
      (runOn options m { room := some capacity }) := by
  obtain ⟨hout, hh, he⟩ : m.out = {} ∧ m.halted = none ∧ m.executed = 0 := by
    obtain ⟨memory, -, rfl⟩ := Machine.load_eq_ok hload
    exact ⟨rfl, rfl, rfl⟩
  have hdump := dump_of_load options hload
  have hfull := contents_unbounded options hout hh
  have hlength : (options.dump m).length ≤
      (options.dump m ++ m.printed options.stepLimit).length := by simp
  have hlength' : (options.dump m ++ m.printed options.stepLimit).length ≤
      (runOn options m {}).state.out.contents.length := by
    rw [hfull]
    simp
  have hone : OneByte (runOn options m {}).state.out.contents := by
    rw [hfull, oneByte_append, oneByte_append]
    exact ⟨⟨oneByte_dump options m, oneByte_printed _ m⟩, oneByte_report _⟩
  have hprint := fun m' (h : m' ∈ m.executing options.stepLimit) =>
    Machine.printout_of_mem_executing h
  have htext := hfull
  rw [reportText_of_uncached (uncached_unbounded options hload hout hh)] at htext
  rcases Nat.lt_or_ge capacity (options.dump m).length with hd | hd
  · have hcut := runOn_dumping options hd
    refine ⟨hdump, hprint, htext, hone, ?_, fun h => by omega, fun _ => ?_, fun h => by omega,
      fun h => by omega⟩
    · rw [hcut, hfull, List.append_assoc, List.take_append_of_le_length (Nat.le_of_lt hd)]
      exact List.reverse_reverse _
    · rw [hcut]
      exact ⟨rfl, he⟩
  rcases Nat.lt_or_ge capacity (options.dump m ++ m.printed options.stepLimit).length with hp | hp
  · obtain ⟨before, refused, after, m', hafter, hle, hlt, hop, hcut, hout', he'⟩ :=
      runOn_printing options hout hh hd hp
    refine ⟨hdump, hprint, htext, hone, ?_, fun h => by omega, fun h => by omega, fun _ _ => ?_,
      fun h => by omega⟩
    · rw [hcut, hfull, List.take_append_of_le_length (Nat.le_of_lt hp)]
      exact hout'
    · rw [hcut]
      refine ⟨before, refused, after, hafter, hle, hlt, hop, rfl, ?_⟩
      rw [EStateM.Result.state, he', he, Nat.zero_add]
  · obtain ⟨hcut, hanswer⟩ := runOn_reporting options hout hh hp
    refine ⟨hdump, hprint, htext, hone, hcut, fun h => ?_, fun h => by omega,
      fun _ h => by omega, fun _ h => ?_⟩
    · rw [hanswer, if_pos h]
    · rw [hanswer, if_neg (Nat.not_le.mpr h)]

end Runs

/-- A stream that runs full truncates a run and never corrupts it. For every image that fits, all
options and every capacity, the stream holds the first characters of what an unbounded one holds;
the run fails before its first instruction if the dump is cut, with a fault at the first text that
does not fit if the printed part is cut, and with an error of the report, which its own error
outranks, if only the report is cut. -/
theorem full_stream_truncates {image : List Word} (h : image.length ≤ memoryWords)
    (options : Options) (journal : Journal) (capacity : Nat) :
    ∃ m, (Machine.powerOn (if options.compatible then .compatible else .hardened) {}).load image =
        .ok m ∧
      Truncates options image m capacity
        ((run options image {} journal).mapState Session.machine)
        ((run options image { room := some capacity } journal).mapState Session.machine) := by
  obtain ⟨m, hload⟩ := Machine.load_of_le (m := .powerOn options.mode {}) h
  refine ⟨m, hload, ?_⟩
  rw [run_machine hload, run_machine hload]
  exact runOn_truncates options hload capacity

/-- `pushc 7; pushc 300; printi; halt` behind its dump, on a stream with room for two of the three
digits: the run faults where it prints, and the stream ends in the digits that it took. -/
theorem full_stream_truncates_printed_number :
    ∃ m full cut, (Machine.powerOn .hardened {}).load [12, 7, 12, 300, 10, 0] = .ok m ∧
      (run { dumpMemory := true } [12, 7, 12, 300, 10, 0] {} {}).mapState Session.machine = full ∧
      (run { dumpMemory := true } [12, 7, 12, 300, 10, 0] { room := some 107 } {}).mapState
        Session.machine = cut ∧
      Truncates { dumpMemory := true } [12, 7, 12, 300, 10, 0] m 107 full cut ∧
      full.answer = .ok 7 ∧
      full.state.out.contents =
        "12 7 12 300 10 0 ".toList ++ (List.replicate 44 "0 ".toList).flatten ++ "300".toList ++
          "@number-of-main-memory-reads\t8\n@number-of-main-memory-writes\t2\n".toList ++
          "@number-of-cache-memory-hits\t0\n@number-of-cache-memory-misses\t0\n".toList ∧
      cut.answer = .error (.fault ⟨4, some (10, none), .output .full⟩) ∧
      cut.state.out.contents =
        "12 7 12 300 10 0 ".toList ++ (List.replicate 44 "0 ".toList).flatten ++ "30".toList ∧
      cut.state.executed = 3 := by
  have hfits : ([12, 7, 12, 300, 10, 0] : List Word).length ≤ memoryWords := by decide
  obtain ⟨m, hload, ht⟩ := full_stream_truncates hfits { dumpMemory := true } {} 107
  refine ⟨m, _, _, hload, rfl, rfl, ht, ?_⟩
  decide +kernel

end CoolMachine.Runner
