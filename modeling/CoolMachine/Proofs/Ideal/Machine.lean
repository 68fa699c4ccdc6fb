import CoolMachine.Proofs.Machine.Equations

/-! The hardened machine over the integers. Its registers have no width, an access is checked
against the exact bounds of main memory, and one that fails says what it was for. Nothing here can
wrap except a number that is put into a cell. -/

namespace CoolMachine

/-- What an access to main memory is for. -/
inductive Purpose where
  | instruction
  | operand
  /-- A cell named relative to the frame pointer. -/
  | frame
  /-- A cell named by its address. -/
  | absolute
  /-- The cell of a push or a pop. -/
  | stack
  deriving DecidableEq

structure Ideal where
  pc : Int
  sp : Int
  fp : Int
  memory : Memory
  halted : Option Word
  executed : Nat
  out : Sink Char

/-- The registers of the machine as the integers that they stand for. -/
def Machine.ideal (m : Machine) : Ideal :=
  { pc := m.pc.toInt, sp := m.sp.toInt, fp := m.fp.toInt, memory := m.memory, halted := m.halted,
    executed := m.executed, out := m.out }

namespace Ideal

inductive Cause where
  | address (purpose : Purpose) (address : Int)
  | stackOverflow (sp : Int)
  | stackUnderflow (sp : Int)
  | arithmetic
  | illegalInstruction (word : Word)
  | output (error : OutputError)
  deriving DecidableEq

structure Fault where
  pc : Int
  instruction : Option (Word × Option Word)
  cause : Cause
  deriving DecidableEq

abbrev Action := EStateM Cause Ideal

/-- The low sixteen bits of an integer. -/
def word (i : Int) : Word := UInt16.ofNat (i % 65536).toNat

def InMemory (address : Int) : Prop := 0 ≤ address ∧ address < 65536

instance (address : Int) : Decidable (InMemory address) :=
  inferInstanceAs (Decidable (0 ≤ address ∧ address < 65536))

/-- The word at an address of main memory. -/
def look (e : Ideal) (address : Int) : Word := e.memory.peek (word address)

def read (purpose : Purpose) (address : Int) : Action Word := fun e =>
  let counted := { e with memory := e.memory.countRead }
  if InMemory address then .ok (e.look address) counted
  else .error (.address purpose address) counted

def write (purpose : Purpose) (address : Int) (value : Word) : Action Unit := fun e =>
  let counted := { e with memory := e.memory.countWrite }
  if InMemory address then
    .ok () { counted with memory := counted.memory.store (word address) value }
  else .error (.address purpose address) counted

def print (text : List Char) : Action Unit := fun e =>
  match Sink.write text e.out with
  | .ok _ out => .ok () { e with out }
  | .error error out => .error (.output error) { e with out }

/-- The word at the program counter, which moves past it. -/
def fetch (purpose : Purpose) : Action Word := do
  let word ← read purpose (← get).pc
  modify fun e => { e with pc := e.pc + 1 }
  return word

/-- The address in the current frame that the operand names. -/
def frameAddress : Action Int := do
  let offset ← fetch .operand
  return (← get).fp + offset.signed.toInt

def push (value : Word) : Action Unit := do
  let e ← get
  if e.sp ≤ 0 then throw (.stackOverflow e.sp)
  set { e with sp := e.sp - 1 }
  write .stack (e.sp - 1) value

def top : Action Word := do
  let e ← get
  if 65536 ≤ e.sp then throw (.stackUnderflow e.sp)
  read .stack e.sp

def pop : Action Word := do
  let word ← top
  modify fun e => { e with sp := e.sp + 1 }
  return word

/-- Pops two operands; an operation without a value is a division by zero. -/
def combine (operation : Int16 → Int16 → Option Int16) : Action Unit := do
  let right ← pop
  let left ← pop
  match operation left.signed right.signed with
  | some value => push (Word.ofSigned value)
  | none => throw .arithmetic

def divide? (left right : Int16) : Option Int16 :=
  if right = 0 then none else some (left / right)

def call : Action Unit := do
  let target ← fetch .operand
  push (word (← get).pc)
  push (word (← get).fp)
  modify fun e => { e with fp := e.sp, pc := target.toNat }

def ret : Action Unit := do
  let slot ← frameAddress
  let value ← pop
  modify fun e => { e with sp := e.fp }
  let fp ← pop
  modify fun e => { e with fp := fp.toNat }
  let pc ← pop
  modify fun e => { e with pc := pc.toNat, sp := slot }
  write .frame slot value

def jumpIfZero : Action Unit := do
  if (← pop) = 0 then
    let target ← fetch .operand
    modify fun e => { e with pc := target.toNat }
  else
    modify fun e => { e with pc := e.pc + 1 }

def halt : Action Unit := do
  let result ← top
  modify fun e => { e with halted := some result }

def ofOpcode : Opcode → Action Unit
  | .halt => halt
  | .nop | .prints => pure ()
  | .add => combine fun left right => some (left + right)
  | .sub => combine fun left right => some (left - right)
  | .mult => combine fun left right => some (left * right)
  | .div => combine divide?
  | .call => call
  | .ret => ret
  | .jmp => do
    let target ← fetch .operand
    modify fun e => { e with pc := target.toNat }
  | .jeq => jumpIfZero
  | .printi => do
    let value ← pop
    print (Decimal.ofInt value.signed.toInt)
  | .pushc => do
    let value ← fetch .operand
    push value
  | .pusha => do
    let address ← fetch .operand
    let value ← read .absolute address.toNat
    push value
  | .pushr => do
    let address ← frameAddress
    let value ← read .frame address
    push value
  | .popa => do
    let address ← fetch .operand
    let value ← pop
    write .absolute address.toNat value
  | .popr => do
    let address ← frameAddress
    let value ← pop
    write .frame address value

def ofWord (word : Word) : Action Unit :=
  match Opcode.ofWord? word with
  | some op => ofOpcode op
  | none => throw (.illegalInstruction word)

/-- The operand of the instruction `word` at `pc`, seen from the host. -/
def operandBehind (e : Ideal) (pc : Int) (word : Word) : Option Word :=
  match Opcode.ofWord? word with
  | some op => if op.takesOperand then some (e.look (pc + 1)) else none
  | none => none

def step : EStateM Fault Ideal (Option Word) := fun e =>
  match e.halted with
  | some result => .ok (some result) e
  | none =>
    let pc := e.pc
    match fetch .instruction e with
    | .error cause e => .error ⟨pc, none, cause⟩ e
    | .ok word e =>
      match ofWord word { e with executed := e.executed + 1 } with
      | .ok _ e => .ok e.halted e
      | .error cause e => .error ⟨pc, some (word, e.operandBehind pc word), cause⟩ e

/-! ### Equations -/

theorem fetch_apply (purpose : Purpose) (e : Ideal) : fetch purpose e =
    if InMemory e.pc then
      .ok (e.look e.pc) { e with pc := e.pc + 1, memory := e.memory.countRead }
    else .error (.address purpose e.pc) { e with memory := e.memory.countRead } := by
  simp only [fetch, bind, EStateM.bind, get_apply, read]
  by_cases h : InMemory e.pc
  · rw [if_pos h, if_pos h]
    rfl
  · rw [if_neg h, if_neg h]

theorem push_apply (value : Word) (e : Ideal) : push value e =
    if e.sp ≤ 0 then .error (.stackOverflow e.sp) e
    else write .stack (e.sp - 1) value { e with sp := e.sp - 1 } := by
  simp only [push, bind, EStateM.bind, get_apply]
  by_cases h : e.sp ≤ 0
  · rw [if_pos h, if_pos h]
    rfl
  · rw [if_neg h, if_neg h]
    rfl

theorem top_apply (e : Ideal) : top e =
    if 65536 ≤ e.sp then .error (.stackUnderflow e.sp) e else read .stack e.sp e := by
  simp only [top, bind, EStateM.bind, get_apply]
  by_cases h : 65536 ≤ e.sp
  · rw [if_pos h, if_pos h]
    rfl
  · rw [if_neg h, if_neg h]

end Ideal

end CoolMachine
