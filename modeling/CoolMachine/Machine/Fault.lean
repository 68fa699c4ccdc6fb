import CoolMachine.Instruction.Listing
import CoolMachine.Sink

/-! Faults: the conditions that end a step without a result. A fault names the address and, once
fetched, the instruction at which it arose; its cause says what went wrong. -/

namespace CoolMachine

inductive FaultCause where
  /-- An access outside main memory. -/
  | address (address : Register)
  /-- A push without a free cell below the stack pointer. -/
  | stackOverflow (sp : Register)
  /-- A pop from the empty stack. -/
  | stackUnderflow (sp : Register)
  /-- A division by zero. -/
  | arithmetic
  /-- A word that is no opcode. -/
  | illegalInstruction (word : Word)
  /-- A write that the output stream refused. -/
  | output (error : OutputError)
  deriving DecidableEq

namespace FaultCause

def message : FaultCause → String
  | address a => "address fault: " ++ toString a.toInt ++ " is outside main memory"
  | stackOverflow sp => "stack fault: push with sp at " ++ toString sp.toInt
  | stackUnderflow sp => "stack fault: pop with sp at " ++ toString sp.toInt
  | arithmetic => "arithmetic fault: division by zero"
  | illegalInstruction word => "illegal instruction " ++ toString word.toNat
  | output _ => "failed to write program output"

/-- The message and what in turn lies behind it, outermost first. -/
def chain : FaultCause → List String
  | output error => [(output error).message, error.reason]
  | cause => [cause.message]

end FaultCause

structure Fault where
  pc : Register
  /-- The instruction word and its operand; absent if the fetch itself failed. -/
  instruction : Option (Word × Option Word)
  cause : FaultCause
  deriving DecidableEq

namespace Fault

def message (fault : Fault) : String :=
  "fault at pc " ++ toString fault.pc.toInt ++
    match fault.instruction with
    | some (word, operand) => " (" ++ String.ofList (listing word operand) ++ ")"
    | none => ""

/-- The message followed by its causes. -/
def fullMessage (fault : Fault) : String :=
  ": ".intercalate (fault.message :: fault.cause.chain)

end Fault

end CoolMachine
