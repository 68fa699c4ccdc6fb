import CoolMachine.Files.Commands
import CoolMachine.Proofs.Files.Tree
import CoolMachine.Proofs.Runner.Log

/-! From a source file to a run. What the assembling command writes is what the running command
reads, so that the two of them come to a run of the assembled image, and a source that cannot be
assembled leaves every file as it was. -/

namespace CoolMachine.Files.Tree

open CommandLine

/-- The path leads to a file with this text. -/
def Holds (tree : Tree) (path : String) (text : List Char) : Prop :=
  tree.contents? path = some (Utf8.encode text)

/-- The running command, with any flags, makes of the file at the path a run of the image. -/
structure Executes (tree : Tree) (path : String) (image : List Word) : Prop where
  /-- Output, error and status are those of the run. No warning is logged, and nothing at all
  unless it is asked for. -/
  fits : image.length ≤ memoryWords → ∀ flags environment arguments,
    Runner.Arguments.parse flags = .ok arguments → arguments.program = path →
    ∃ log : List Record, (∀ record ∈ log, record.level ≠ .warn) ∧
      (arguments.trace = false → environment = none → log = []) ∧
      Runner.Shows ((Runner.run arguments.options image {} {}).mapState Session.machine) log
        (tree.runImage flags environment)
  oversized : memoryWords < image.length → ∀ flags environment arguments,
    Runner.Arguments.parse flags = .ok arguments → arguments.program = path →
    (tree.runImage flags environment).stdout = "" ∧ (tree.runImage flags environment).status = 1

/-- What the assembling command comes to, and what the running command makes of it. -/
structure Delivery (tree : Tree) (arguments : Assembler.Arguments) (outcome : Outcome)
    (after : Tree) : Prop where
  /-- Without a text that assembles nothing happens to any file. -/
  refused : (∀ text, tree.Holds arguments.source text → ∀ image, assemble text ≠ .ok image) →
    outcome.status = 1 ∧ after = tree
  succeeds_iff : ∀ text, tree.Holds arguments.source text → tree.Creatable arguments.target →
    (outcome.status = 0 ↔ ∃ image, assemble text = .ok image)
  /-- The target holds the words of the image, the low byte of each first, and is run as the image
  by any path that leads to what it holds. -/
  delivered : ∀ text, tree.Holds arguments.source text → tree.Creatable arguments.target →
    ∀ image, assemble text = .ok image →
    after.contents? arguments.target =
      some (image.flatMap fun w => [UInt8.ofNat (w.toNat % 256), UInt8.ofNat (w.toNat / 256)]) ∧
    ∀ path, after.contents? path = after.contents? arguments.target → after.Executes path image

variable {tree : Tree} {path : String} {text : List Char} {image : List Word} {bytes : List UInt8}
  {arguments : Assembler.Arguments}

theorem contents?_eq_some_iff :
    tree.contents? path = some bytes ↔ tree.openPath path = .ok { bytes } := by
  unfold contents?
  split
  · next other hopen => rw [hopen, Option.some.injEq, Except.ok.injEq, ByteStream.mk.injEq,
      and_iff_left rfl]
  · next hopen =>
      exact ⟨fun h => (by cases h), fun h => absurd h (hopen bytes)⟩

theorem opened_eq_ok_iff {stream : ByteStream} :
    tree.opened path = .ok stream ↔ tree.openPath path = .ok stream :=
  Except.mapError_eq_ok_iff

theorem sourceText_eq_ok_iff :
    Assembler.sourceText (tree.opened path) = .ok text ↔ tree.Holds path text := by
  rw [Holds, contents?_eq_some_iff, ← opened_eq_ok_iff, Assembler.sourceText,
    Except.bind_eq_ok_iff]
  constructor
  · rintro ⟨⟨bytes, failure⟩, hopened, htext⟩
    cases failure with
    | some reason => cases htext
    | none =>
        cases hd : Utf8.decode? bytes with
        | none =>
            simp only [hd] at htext
            cases htext
        | some other =>
            simp only [hd] at htext
            cases htext
            rw [hopened, Utf8.decode?_eq_some_iff.mp hd]
  · intro hopened
    refine ⟨_, hopened, ?_⟩
    simp only [Utf8.decode?_eq_some_iff.mpr rfl]

/-- The assembler comes to an image exactly if there is a text that assembles. -/
theorem compile_eq_ok_iff :
    arguments.compile (tree.opened arguments.source) = .ok bytes ↔
      ∃ text image, tree.Holds arguments.source text ∧ assemble text = .ok image ∧
        bytes = Image.encode image := by
  simp only [Assembler.Arguments.compile, Except.bind_eq_ok_iff, Except.mapError_eq_ok_iff,
    sourceText_eq_ok_iff, pure, Except.pure, Except.ok.injEq, eq_comm (a := bytes)]
  constructor
  · rintro ⟨text, htext, image, himage, hbytes⟩
    exact ⟨text, image, htext, himage, hbytes⟩
  · rintro ⟨text, image, htext, himage, hbytes⟩
    exact ⟨text, htext, image, himage, hbytes⟩

/-- A text that assembles is delivered to every target that a file can be created at. -/
theorem assembleSource_of_ok {commandLine : List String}
    (h : Assembler.Arguments.parse commandLine = .ok arguments)
    (htext : tree.Holds arguments.source text) (himage : assemble text = .ok image)
    (htarget : tree.Creatable arguments.target) :
    ∃ after, tree.assembleSource commandLine = (Assembler.success, after) ∧
      after.openPath arguments.target = .ok { bytes := Image.encode image } := by
  obtain ⟨after, hcreate, hopen⟩ := htarget.create (Image.encode image)
  have hcompile : arguments.compile (tree.opened arguments.source) = .ok (Image.encode image) :=
    compile_eq_ok_iff.mpr ⟨text, image, htext, himage, rfl⟩
  refine ⟨after, ?_, hopen⟩
  simp only [assembleSource, h, hcompile, hcreate]

theorem assembleSource_of_error {commandLine : List String}
    (h : Assembler.Arguments.parse commandLine = .ok arguments)
    (hnone : ∀ text, tree.Holds arguments.source text → ∀ image, assemble text ≠ .ok image) :
    ∃ e : Assembler.Error, tree.assembleSource commandLine = (e.outcome, tree) := by
  cases hcompile : arguments.compile (tree.opened arguments.source) with
  | error e => exact ⟨e, by simp only [assembleSource, h, hcompile]⟩
  | ok bytes =>
      obtain ⟨text, image, htext, himage, -⟩ := compile_eq_ok_iff.mp hcompile
      exact absurd himage (hnone text htext image)

theorem encode_eq_flatMap (image : List Word) : Image.encode image =
    image.flatMap fun w => [UInt8.ofNat (w.toNat % 256), UInt8.ofNat (w.toNat / 256)] := by
  have hlow : ∀ w : Word, w.lowByte = UInt8.ofNat (w.toNat % 256) := fun w =>
    UInt8.toNat_inj.mp (by simp [Word.lowByte])
  simp only [Image.encode, hlow, Word.highByte]

theorem executes_of_openPath (h : tree.openPath path = .ok { bytes := Image.encode image }) :
    tree.Executes path image := by
  have hrun : ∀ flags environment arguments, Runner.Arguments.parse flags = .ok arguments →
      arguments.program = path → tree.runImage flags environment =
        arguments.run environment (.ok { bytes := Image.encode image }) := by
    rintro flags environment arguments hflags rfl
    simp only [runImage, hflags, opened_eq_ok_iff.mpr h]
  refine ⟨fun hfits flags environment arguments hflags hpath => ?_,
    fun hlarge flags environment arguments hflags hpath => ?_⟩
  · obtain ⟨log, hlog, hshows⟩ := arguments.run_written environment hfits
    rw [hrun flags environment arguments hflags hpath]
    refine ⟨log.records, hlog.level_ne_warn, fun htrace henvironment => ?_, hshows⟩
    rw [henvironment, Runner.Arguments.verbosity_of_not_trace htrace] at hlog
    exact hlog.records_eq_nil
  · rw [hrun flags environment arguments hflags hpath]
    exact arguments.run_oversized environment hlarge

theorem Holds.unique {other : List Char} (h : tree.Holds path text) (ho : tree.Holds path other) :
    text = other := by
  have hbytes : Utf8.encode text = Utf8.encode other := Option.some.inj (h.symm.trans ho)
  have hdecode := Utf8.decode?_eq_some_iff.mpr hbytes
  rw [Utf8.decode?_eq_some_iff.mpr rfl] at hdecode
  exact Option.some.inj hdecode

/-- The two commands, one after the other, on every tree and for all their arguments. -/
theorem assembled_programs_run (tree : Tree) {commandLine : List String}
    {arguments : Assembler.Arguments} (h : Assembler.Arguments.parse commandLine = .ok arguments) :
    Delivery tree arguments (tree.assembleSource commandLine).1
      (tree.assembleSource commandLine).2 where
  refused := by
    intro hnone
    obtain ⟨e, he⟩ := assembleSource_of_error h hnone
    rw [he]
    exact ⟨rfl, rfl⟩
  succeeds_iff := by
    intro text htext htarget
    constructor
    · intro hstatus
      by_contra hnone
      obtain ⟨e, he⟩ := assembleSource_of_error h fun other hother image himage =>
        hnone ⟨image, htext.unique hother ▸ himage⟩
      rw [he] at hstatus
      cases hstatus
    · rintro ⟨image, himage⟩
      obtain ⟨after, hafter, -⟩ := assembleSource_of_ok h htext himage htarget
      rw [hafter]
      rfl
  delivered := by
    intro text htext htarget image himage
    obtain ⟨after, hafter, hopen⟩ := assembleSource_of_ok h htext himage htarget
    rw [hafter]
    have hcontents := contents?_eq_some_iff.mpr hopen
    refine ⟨encode_eq_flatMap image ▸ hcontents, fun path hpath => executes_of_openPath ?_⟩
    exact contents?_eq_some_iff.mp (hpath.trans hcontents)

/-- A source that prints once too often, beside an older image of it. -/
def staleImage : Tree where
  files := [(["p.cool".toList], Utf8.encode "pushc 300\nprinti\nprinti\nhalt".toList),
    (["p.coolexe".toList], [9])]

/-- A source that is missing leaves the older image. Of the new one, the run faults where the stack
is empty, goes on there on the compatible machine, and is given up before it with a step limit. -/
theorem assembled_programs_run_stale_image :
    (staleImage.assembleSource ["q.cool", "--output=p.coolexe"]).1.status = 1 ∧
    (staleImage.assembleSource ["q.cool", "--output=p.coolexe"]).2 = staleImage ∧
    Assembler.Arguments.parse ["p.cool"] = .ok ⟨"p.cool", none⟩ ∧
    staleImage.Holds "p.cool" "pushc 300\nprinti\nprinti\nhalt".toList ∧
    staleImage.Creatable "p.coolexe" ∧
    assemble "pushc 300\nprinti\nprinti\nhalt".toList = .ok [12, 300, 10, 10, 0] ∧
    ∃ after, staleImage.assembleSource ["p.cool"] = (⟨0, "", ""⟩, after) ∧
      after.contents? "p.coolexe" = some [12, 0, 44, 1, 10, 0, 10, 0, 0, 0] ∧
      after.runImage ["p.coolexe"] none =
        ⟨1, "300@number-of-main-memory-reads\t5\n@number-of-main-memory-writes\t1\n" ++
          "@number-of-cache-memory-hits\t0\n@number-of-cache-memory-misses\t0\n",
          "runcool: fault at pc 3 (printi): stack fault: pop with sp at 65536\n"⟩ ∧
      after.runImage ["--compat", "p.coolexe"] none =
        ⟨44, "30012@number-of-main-memory-reads\t8\n@number-of-main-memory-writes\t1\n" ++
          "@number-of-cache-memory-hits\t0\n@number-of-cache-memory-misses\t0\n", ""⟩ ∧
      after.runImage ["--max-steps=2", "--dump-memory", "p.coolexe"] none =
        ⟨1, "12 300 10 10 " ++ String.join (List.replicate 46 "0 ") ++
          "300@number-of-main-memory-reads\t4\n@number-of-main-memory-writes\t1\n" ++
          "@number-of-cache-memory-hits\t0\n@number-of-cache-memory-misses\t0\n",
          "runcool: gave up after 2 instructions at pc 3\n"⟩ := by
  have hmissing : Assembler.Arguments.parse ["q.cool", "--output=p.coolexe"] =
    .ok ⟨"q.cool", some "p.coolexe"⟩ := rfl
  have hrefused := (assembled_programs_run staleImage hmissing).refused fun _ h => nomatch h
  have hparse : Assembler.Arguments.parse ["p.cool"] = .ok ⟨"p.cool", none⟩ := rfl
  have htext : staleImage.Holds "p.cool" "pushc 300\nprinti\nprinti\nhalt".toList := rfl
  have htarget : staleImage.Creatable "p.coolexe" := ⟨_, rfl⟩
  have himage : assemble "pushc 300\nprinti\nprinti\nhalt".toList = .ok [12, 300, 10, 10, 0] := rfl
  have hdelivery := assembled_programs_run staleImage hparse
  obtain ⟨hcontents, hexecutes⟩ := hdelivery.delivered _ htext htarget _ himage
  have hruns := (hexecutes _ rfl).fits (by decide)
  refine ⟨hrefused.1, hrefused.2, hparse, htext, htarget, himage,
    (staleImage.assembleSource ["p.cool"]).2, rfl, hcontents, ?_, ?_, ?_⟩
  · obtain ⟨log, -, hquiet, hshows⟩ := hruns ["p.coolexe"] none ⟨"p.coolexe", {}, false⟩ rfl rfl
    rw [hquiet rfl rfl] at hshows
    rw [hshows.eq_of_error (e := .fault ⟨3, some (10, none), .stackUnderflow 65536⟩) rfl]
    decide +kernel
  · obtain ⟨log, -, hquiet, hshows⟩ := hruns ["--compat", "p.coolexe"] none
      ⟨"p.coolexe", { compatible := true }, false⟩ rfl rfl
    rw [hquiet rfl rfl] at hshows
    rw [hshows.eq_of_ok (r := 300) rfl]
    decide +kernel
  · obtain ⟨log, -, hquiet, hshows⟩ := hruns ["--max-steps=2", "--dump-memory", "p.coolexe"]
      none ⟨"p.coolexe", { dumpMemory := true, maxSteps := some 2 }, false⟩ rfl rfl
    rw [hquiet rfl rfl] at hshows
    rw [hshows.eq_of_error (e := .gaveUp 2 3) rfl]
    decide +kernel

end CoolMachine.Files.Tree
