import CoolMachine.Journal
import CoolMachine.Machine.Run

/-! A machine under observation. Each step leaves a trace record of the instruction that it is
about to execute, and a halt leaves a record of the number of instructions executed; the machine
itself does not know that it is watched. -/

namespace CoolMachine

structure Session where
  machine : Machine
  journal : Journal

namespace Machine

/-- The instruction word that the next step will fetch, if there is a next step and it can. -/
def upcoming? (m : Machine) : Option Word :=
  match m.halted with
  | some _ => none
  | none => (m.memory.mode.resolve m.pc).map m.memory.peek

/-- Address and listing of the instruction `word` at the program counter, with the stack and frame
pointers, each in its column. -/
def traceText (m : Machine) (word : Word) : String :=
  String.ofList (List.leftpad 5 ' ' (Decimal.ofInt m.pc.toInt)) ++ ": " ++
    String.ofList (List.rightpad 14 ' ' (listing word (m.operandBehind m.pc word))) ++
    " sp=" ++ toString m.sp.toInt ++ " fp=" ++ toString m.fp.toInt

def haltText (m : Machine) : String :=
  "Core executed " ++ toString m.executed ++ " instructions"

end Machine

namespace Session

/-- The journal as it stands when a step of `m` begins. -/
def noteFetch (journal : Journal) (m : Machine) : Journal :=
  if journal.keeps .trace then
    match m.upcoming? with
    | some word => journal.note .trace .machine fun _ => m.traceText word
    | none => journal
  else journal

/-- The journal after a step has led from `before` to `after`. -/
def noteHalt (journal : Journal) (before after : Machine) : Journal :=
  if before.halted.isNone && after.halted.isSome then
    journal.note .debug .machine fun _ => after.haltText
  else journal

/-- A step of the machine together with its records. -/
def step : EStateM Fault Session (Option Word) := fun ⟨machine, journal⟩ =>
  let journal := noteFetch journal machine
  match machine.step with
  | .ok result after => .ok result ⟨after, noteHalt journal machine after⟩
  | .error fault after => .error fault ⟨after, journal⟩

def runFor (limit : Nat) : EStateM Fault Session (Progress Word) := fun s =>
  match s.machine.halted with
  | some result => .ok ⟨0, some result⟩ s
  | none => Run.upTo step limit 0 s

def runToHalt : EStateM Fault Session (Option Word) := Run.untilResult step Run.endless

end Session

end CoolMachine
