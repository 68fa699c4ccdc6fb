import CoolMachine.Machine.Fault
import CoolMachine.Memory.Basic

/-! The state of a machine: three control registers, main memory, the result once it has halted,
the number of instructions executed, and the stream that receives its output. -/

namespace CoolMachine

structure Machine where
  pc : Register
  sp : Register
  fp : Register
  memory : Memory
  halted : Option Word
  executed : Nat
  out : Sink Char

namespace Machine

/-- At power on the stack is empty, its pointer just above the last cell. -/
def powerOn (mode : Mode) (out : Sink Char) : Machine :=
  { pc := 0, sp := 65536, fp := 0, memory := .powerOn mode, halted := none, executed := 0, out }

/-- Back to power on, in the same mode and with the same output stream. -/
def reset (m : Machine) : Machine := powerOn m.memory.mode m.out

/-- Loading replaces the contents of memory and nothing else. -/
def load (m : Machine) (image : List Word) : Except ImageTooLarge Machine :=
  (m.memory.load image).map fun memory => { m with memory }

/-- The operand of the instruction `word` at `pc`, seen from the host. -/
def operandBehind (m : Machine) (pc : Register) (word : Word) : Option Word :=
  match Opcode.ofWord? word with
  | some op => if op.takesOperand then some (m.memory.peek (Word.ofRegister (pc + 1))) else none
  | none => none

end Machine

end CoolMachine
