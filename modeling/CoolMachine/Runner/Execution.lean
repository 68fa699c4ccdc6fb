import CoolMachine.Session

/-! Running a program image from start to end: an optional dump of the first words of memory, the
run itself, and the report of the memory traffic, all on one output stream. -/

namespace CoolMachine.Runner

structure Options where
  dumpMemory : Bool := false
  compatible : Bool := false
  maxSteps : Option Nat := none
  deriving DecidableEq

def Options.mode (options : Options) : Mode :=
  if options.compatible then .compatible else .hardened

inductive Error where
  | imageTooLarge (error : ImageTooLarge)
  /-- A dump or a report that the output stream refused. -/
  | output (error : OutputError)
  | fault (fault : Fault)
  | gaveUp (steps : Nat) (pc : Register)
  deriving DecidableEq

/-- The message followed by its causes. -/
def Error.message : Error → String
  | imageTooLarge e => e.message
  | output e => e.reason
  | fault e => e.fullMessage
  | gaveUp steps pc =>
    "gave up after " ++ toString steps ++ " instructions at pc " ++ toString pc.toInt

def print (text : List Char) : EStateM OutputError Session Unit := fun ⟨machine, journal⟩ =>
  match Sink.write text machine.out with
  | .ok _ out => .ok () ⟨{ machine with out }, journal⟩
  | .error e out => .error e ⟨{ machine with out }, journal⟩

/-- The number of words that a dump shows. -/
def dumpWords : Word := 50

/-- The first words of memory, unsigned, with a space after each. -/
def dumpText (m : Machine) : List Char :=
  ((m.memory.range? 0 dumpWords).getD []).flatMap fun w => Decimal.ofNat w.toNat ++ [' ']

def reportText (m : Machine) : List Char := m.memory.traffic.report.toList

/-- Runs until the machine halts or the step limit is reached. -/
def runWithin (maxSteps : Option Nat) : EStateM Error Session Word := fun s =>
  match maxSteps with
  | none =>
    match Session.runToHalt s with
    | .ok (some result) s => .ok result s
    | .ok none s => .error (.gaveUp Run.endless s.machine.pc) s
    | .error e s => .error (.fault e) s
  | some limit =>
    match Session.runFor limit s with
    | .ok ⟨_, some result⟩ s => .ok result s
    | .ok ⟨steps, none⟩ s => .error (.gaveUp steps s.machine.pc) s
    | .error e s => .error (.fault e) s

/-- Runs and reports; the report is written also when the run failed, and that failure
outranks one of the report. -/
def runAndReport (maxSteps : Option Nat) : EStateM Error Session Word := fun s =>
  match runWithin maxSteps s with
  | .ok result s =>
    match print (reportText s.machine) s with
    | .ok _ s => .ok result s
    | .error e s => .error (.output e) s
  | .error error s =>
    match print (reportText s.machine) s with
    | .ok _ s | .error _ s => .error error s

/-- Runs an image on a machine at power on. Nothing is executed if the dump fails. -/
def run (options : Options) (image : List Word) (out : Sink Char) (journal : Journal) :
    EStateM.Result Error Session Word :=
  let machine := Machine.powerOn options.mode out
  match machine.load image with
  | .error e => .error (.imageTooLarge e) ⟨machine, journal⟩
  | .ok machine =>
    match print (if options.dumpMemory then dumpText machine else []) ⟨machine, journal⟩ with
    | .error e s => .error (.output e) s
    | .ok _ s => runAndReport options.maxSteps s

end CoolMachine.Runner
