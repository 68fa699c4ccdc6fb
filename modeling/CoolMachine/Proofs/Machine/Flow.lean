import CoolMachine.Proofs.Machine.Accesses
import CoolMachine.Proofs.Register.Arithmetic

/-! Where control goes, in either mode. How many words an instruction takes is told by its opcode
alone, and it is by as many that the program counter moves on, operands fetched or skipped. -/

namespace CoolMachine.Machine

/-- The word behind the one at the program counter. -/
def operandWord (m : Machine) : Word := m.memory.peek (Word.ofRegister (m.pc + 1))

/-- The word in the current frame that a return restores as the program counter. -/
def resumeWord (m : Machine) : Word := m.memory.peek (Word.ofRegister (m.fp + 1))

/-- The opcode that the next step executes, if it executes one. -/
def opcode? (m : Machine) : Option Opcode :=
  match m.halted with
  | some _ => none
  | none => Opcode.ofWord? m.opcodeWord

theorem opcode?_eq {m : Machine} {op : Opcode} (hh : m.halted = none)
    (hop : m.opcodeWord = op.code) : m.opcode? = some op := by
  simp only [opcode?, hh, hop, Opcode.ofWord?_code]

/-- The place behind the instruction. -/
def behind (m : Machine) (op : Opcode) : Register := if op.takesOperand then m.pc + 2 else m.pc + 1

/-- Where the instruction leads. -/
def next (m : Machine) : Opcode → Register
  | .jmp | .call => m.operandWord.address
  | .jeq => if m.topWord = 0 then m.operandWord.address else m.behind .jeq
  | .ret => m.resumeWord.address
  | op => m.behind op

/-- The instruction leads somewhere else than behind itself, or may do so. -/
def Jumps (m : Machine) (op : Opcode) : Prop :=
  op = .jmp ∨ op = .call ∨ op = .ret ∨ op = .jeq ∧ m.topWord = 0

theorem next_of_not_jumps {m : Machine} {op : Opcode} (h : ¬ m.Jumps op) :
    m.next op = m.behind op := by
  unfold Jumps at h
  cases op <;> simp_all [next]

/-- The words of the instruction at the program counter. -/
def fetches (m : Machine) (op : Opcode) : List Word :=
  if op.takesOperand then [m.opcodeWord, m.operandWord] else [m.opcodeWord]

theorem toInt_behind {m : Machine} (h : m.pc.toInt ≤ 65536) (op : Opcode) :
    (m.behind op).toInt = m.pc.toInt + (m.fetches op).length := by
  have hl := m.pc.le_toInt
  have h₁ : (m.pc + 1).toInt = m.pc.toInt + 1 := Register.toInt_succ (by omega)
  have h₂ : (m.pc + 1 + 1).toInt = m.pc.toInt + 1 + 1 := by
    rw [Register.toInt_succ (by omega), h₁]
  rw [Register.succ_succ] at h₂
  unfold behind fetches
  split
  · rw [h₂, List.length_cons, List.length_singleton]
    omega
  · rw [h₁, List.length_singleton]
    rfl

/-- The word that a call has pushed as its return address, seen right behind the call. -/
def returnWord (m : Machine) : Word := m.memory.peek (Word.ofRegister (m.sp + 1))

section Instructions

variable (m : Machine)

/-- An operation on the stack has no operand to fetch. -/
theorem meets_combine_pc (operation : Int16 → Int16 → Except FaultCause Int16) :
    Meets (Action.combine operation) m.fetched (fun _ m' => m'.pc = m.pc + 1)
      fun _ _ => True := by
  simp only [Action.combine, meets_bind, Action.meets_pop, Action.meets_top, Action.meets_readCell,
    implies_true, and_true, true_and]
  intro _ _ _ _
  cases operation _ _ with
  | error cause => trivial
  | ok value =>
      simp only [Action.meets_push, Action.meets_writeCell, implies_true, and_true, true_and]
      exact fun _ _ => rfl

theorem meets_jumpIfZero_pc :
    Meets Action.jumpIfZero m.fetched (fun _ m' => m'.pc = m.next .jeq) fun _ _ => True := by
  simp only [Action.jumpIfZero, meets_bind, Action.meets_pop, Action.meets_top,
    Action.meets_readCell, implies_true, and_true, true_and]
  intro _ _
  change Meets (if m.topWord = 0 then _ else _) _ _ _
  rw [meets_ite, next]
  by_cases htop : m.topWord = 0
  · rw [if_pos htop, if_pos htop]
    simp only [meets_bind, Action.meets_fetch, Action.meets_readCell, meets_modify, implies_true,
      and_true]
    exact fun _ => rfl
  · rw [if_neg htop, if_neg htop, meets_modify]
    exact Register.succ_succ m.pc

/-- A return takes its program counter from the frame as it stands before the return. -/
theorem meets_ret_pc :
    Meets Action.ret m.fetched (fun _ m' => m'.pc = m.next .ret) fun _ _ => True := by
  simp only [Action.ret, meets_bind, Action.meets_frameAddress, Action.meets_fetch,
    Action.meets_pop, Action.meets_top, Action.meets_readCell, Action.meets_writeCell,
    meets_modify, implies_true, and_true, true_and]
  exact fun _ _ _ _ _ _ _ _ => rfl

theorem meets_ofOpcode_pc (op : Opcode) :
    Meets (Action.ofOpcode op) m.fetched (fun _ m' => m'.pc = m.next op) fun _ _ => True := by
  have hbehind : m.pc + 1 + 1 = m.pc + 2 := Register.succ_succ m.pc
  cases op with
  | halt =>
      simp only [Action.ofOpcode, Action.halt, meets_bind, Action.meets_top, Action.meets_readCell,
        meets_modify, implies_true, and_true, true_and]
      exact fun _ _ => rfl
  | nop => rfl
  | prints => rfl
  | add => exact meets_combine_pc m fun left right => .ok (left + right)
  | sub => exact meets_combine_pc m fun left right => .ok (left - right)
  | mult => exact meets_combine_pc m fun left right => .ok (left * right)
  | div => exact meets_combine_pc m Action.divide
  | call =>
      simp only [Action.ofOpcode, Action.call, meets_bind, Action.meets_fetch, meets_get,
        Action.meets_push, Action.meets_readCell, Action.meets_writeCell, meets_modify,
        implies_true, and_true, true_and]
      exact fun _ _ _ _ _ => rfl
  | ret => exact meets_ret_pc m
  | jmp =>
      simp only [Action.ofOpcode, meets_bind, Action.meets_fetch, Action.meets_readCell,
        meets_modify, implies_true, and_true]
      exact fun _ => rfl
  | jeq => exact meets_jumpIfZero_pc m
  | printi =>
      simp only [Action.ofOpcode, meets_bind, Action.meets_pop, Action.meets_top,
        Action.meets_readCell, Action.meets_print, implies_true, and_true, true_and]
      intro _ _
      unfold Meets
      split
      · rfl
      · trivial
  | pushc =>
      simp only [Action.ofOpcode, meets_bind, Action.meets_fetch, Action.meets_push,
        Action.meets_readCell, Action.meets_writeCell, implies_true, and_true, true_and]
      exact fun _ _ _ => hbehind
  | pusha =>
      simp only [Action.ofOpcode, meets_bind, Action.meets_fetch, Action.meets_push,
        Action.meets_readCell, Action.meets_writeCell, implies_true, and_true, true_and]
      exact fun _ _ _ _ => hbehind
  | pushr =>
      simp only [Action.ofOpcode, meets_bind, Action.meets_frameAddress, Action.meets_fetch,
        Action.meets_push, Action.meets_readCell, Action.meets_writeCell, implies_true, and_true,
        true_and]
      exact fun _ _ _ _ => hbehind
  | popa =>
      simp only [Action.ofOpcode, meets_bind, Action.meets_fetch, Action.meets_pop,
        Action.meets_top, Action.meets_readCell, Action.meets_writeCell, implies_true, and_true,
        true_and]
      exact fun _ _ _ _ => hbehind
  | popr =>
      simp only [Action.ofOpcode, meets_bind, Action.meets_frameAddress, Action.meets_fetch,
        Action.meets_pop, Action.meets_top, Action.meets_readCell, Action.meets_writeCell,
        implies_true, and_true, true_and]
      exact fun _ _ _ _ => hbehind

/-- A call leaves the place behind it, kept to sixteen bits, above the frame that it opens. -/
theorem meets_call_returnWord :
    Meets Action.call m.fetched (fun _ m' => m'.returnWord = Word.ofRegister (m.behind .call))
      fun _ _ => True := by
  simp only [Action.call, meets_bind, Action.meets_fetch, meets_get, Action.meets_push,
    Action.meets_readCell, Action.meets_writeCell, meets_modify, implies_true, and_true, true_and,
    returnWord]
  intro _ _ _ _ _
  have hsp : m.fetched.sp - 1 - 1 + 1 = m.fetched.sp - 1 := Int32.sub_add_cancel _ _
  have hpred : ∀ w : Word, w - 1 ≠ w := by grind
  have hne : Word.ofRegister (m.fetched.sp - 1 - 1) ≠ Word.ofRegister (m.fetched.sp - 1) := by
    rw [Word.ofRegister_sub _ 1]
    exact hpred _
  rw [hsp, Memory.peek_store, if_neg hne, Memory.peek_countWrite, Memory.peek_store, if_pos rfl]
  exact congrArg Word.ofRegister (Register.succ_succ m.pc)

end Instructions

/-! ### Steps -/

section Steps

variable {m m' : Machine} {op : Opcode} {result : Option Word}

/-- What the next step does is what its opcode does, once it has been fetched. -/
theorem of_step_of_opcode (h : m.opcode? = some op) {after : Machine → Prop}
    (hop : Meets (Action.ofOpcode op) m.fetched (fun _ m' => after m') fun _ _ => True)
    (hstep : m.step = .ok result m') : after m' := by
  unfold opcode? at h
  cases hh : m.halted with
  | some result => simp [hh] at h
  | none =>
      rw [hh] at h
      have hword : Meets (Action.ofWord m.opcodeWord) m.fetched (fun _ m' => after m')
          fun _ _ => True := by
        rw [Action.ofWord]
        simp only [h]
        exact hop
      have hmeets : Meets step m (fun _ m' => after m') fun _ _ => True :=
        (meets_step hh).mpr ⟨fun _ => hword, fun _ => trivial⟩
      exact hmeets.of_ok hstep

theorem pc_step (h : m.opcode? = some op) (hstep : m.step = .ok result m') : m'.pc = m.next op :=
  of_step_of_opcode h (meets_ofOpcode_pc m op) hstep

theorem returnWord_step (h : m.opcode? = some .call) (hstep : m.step = .ok result m') :
    m'.returnWord = Word.ofRegister (m.behind .call) :=
  of_step_of_opcode h (meets_call_returnWord m) hstep

end Steps

end CoolMachine.Machine
