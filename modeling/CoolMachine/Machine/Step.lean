import CoolMachine.Machine.Basic

/-! Execution of one instruction. The stack grows down from the end of memory, and a frame is
addressed relative to the frame pointer. An action that faults keeps the changes made before the
fault. -/

namespace CoolMachine

/-- A change of the machine that may end in a fault. -/
abbrev Action := EStateM FaultCause Machine

namespace Action

def readCell (address : Register) : Action Word := fun m =>
  match Memory.read address m.memory with
  | .ok word memory => .ok word { m with memory }
  | .error e memory => .error (.address e.address) { m with memory }

def writeCell (address : Register) (value : Word) : Action Unit := fun m =>
  match Memory.write address value m.memory with
  | .ok _ memory => .ok () { m with memory }
  | .error e memory => .error (.address e.address) { m with memory }

def print (text : List Char) : Action Unit := fun m =>
  match Sink.write text m.out with
  | .ok _ out => .ok () { m with out }
  | .error e out => .error (.output e) { m with out }

/-- The word at the program counter, which moves past it. -/
def fetch : Action Word := do
  let word ← readCell (← get).pc
  modify fun m => { m with pc := m.pc + 1 }
  return word

/-- The address in the current frame that the operand names. -/
def frameAddress : Action Register := do
  let offset ← fetch
  return (← get).fp + offset.offset

def push (value : Word) : Action Unit := do
  let m ← get
  if m.memory.mode = .hardened ∧ m.sp ≤ 0 then
    throw (.stackOverflow m.sp)
  set { m with sp := m.sp - 1 }
  writeCell (m.sp - 1) value

/-- The word on top of the stack, which stays there. -/
def top : Action Word := do
  let m ← get
  if m.memory.mode = .hardened ∧ 65536 ≤ m.sp then
    throw (.stackUnderflow m.sp)
  readCell m.sp

def pop : Action Word := do
  let word ← top
  modify fun m => { m with sp := m.sp + 1 }
  return word

/-- Pops the right operand, then the left one, and pushes what the operation makes of them. -/
def combine (operation : Int16 → Int16 → Except FaultCause Int16) : Action Unit := do
  let right ← pop
  let left ← pop
  match operation left.signed right.signed with
  | .ok value => push (Word.ofSigned value)
  | .error cause => throw cause

/-- Division truncates toward zero. -/
def divide (left right : Int16) : Except FaultCause Int16 :=
  if right = 0 then .error .arithmetic else .ok (left / right)

/-- A call saves the return address and the caller's frame pointer, and opens a frame at the
second of them. -/
def call : Action Unit := do
  let target ← fetch
  push (Word.ofRegister (← get).pc)
  push (Word.ofRegister (← get).fp)
  modify fun m => { m with fp := m.sp, pc := target.address }

/-- A return takes the top of the stack as its value, closes the frame, and leaves the value in
the cell that the operand names relative to the closed frame. -/
def ret : Action Unit := do
  let slot ← frameAddress
  let value ← pop
  modify fun m => { m with sp := m.fp }
  let fp ← pop
  modify fun m => { m with fp := fp.address }
  let pc ← pop
  modify fun m => { m with pc := pc.address, sp := slot }
  writeCell slot value

/-- The jump is taken when the popped word is zero; otherwise the operand is skipped unread. -/
def jumpIfZero : Action Unit := do
  if (← pop) = 0 then
    let target ← fetch
    modify fun m => { m with pc := target.address }
  else
    modify fun m => { m with pc := m.pc + 1 }

/-- The word on top of the stack becomes the result. -/
def halt : Action Unit := do
  let result ← top
  modify fun m => { m with halted := some result }

/-- What an instruction does once its first word has been fetched. -/
def ofOpcode : Opcode → Action Unit
  | .halt => halt
  | .nop | .prints => pure ()
  | .add => combine fun left right => .ok (left + right)
  | .sub => combine fun left right => .ok (left - right)
  | .mult => combine fun left right => .ok (left * right)
  | .div => combine divide
  | .call => call
  | .ret => ret
  | .jmp => do
    let target ← fetch
    modify fun m => { m with pc := target.address }
  | .jeq => jumpIfZero
  | .printi => do
    let value ← pop
    print (Decimal.ofInt value.signed.toInt)
  | .pushc => do
    let value ← fetch
    push value
  | .pusha => do
    let address ← fetch
    let value ← readCell address.address
    push value
  | .pushr => do
    let address ← frameAddress
    let value ← readCell address
    push value
  | .popa => do
    let address ← fetch
    let value ← pop
    writeCell address.address value
  | .popr => do
    let address ← frameAddress
    let value ← pop
    writeCell address value

/-- A word that is no opcode is illegal in hardened mode and does nothing in compatible mode. -/
def ofWord (word : Word) : Action Unit := do
  match Opcode.ofWord? word with
  | some op => ofOpcode op
  | none =>
    if (← get).memory.mode = .hardened then
      throw (.illegalInstruction word)

end Action

namespace Machine

/-- Fetches and executes one instruction. A machine that has halted, before or by this
instruction, answers its result; one that has halted before does nothing. -/
def step : EStateM Fault Machine (Option Word) := fun m =>
  match m.halted with
  | some result => .ok (some result) m
  | none =>
    let pc := m.pc
    match Action.fetch m with
    | .error cause m => .error ⟨pc, none, cause⟩ m
    | .ok word m =>
      match Action.ofWord word { m with executed := m.executed + 1 } with
      | .ok _ m => .ok m.halted m
      | .error cause m => .error ⟨pc, some (word, m.operandBehind pc word), cause⟩ m

theorem step_of_halted {m : Machine} {result : Word} (h : m.halted = some result) :
    step m = .ok (some result) m := by
  simp only [step, h]

end Machine

end CoolMachine
