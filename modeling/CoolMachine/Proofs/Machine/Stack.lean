import CoolMachine.Proofs.Expression.Basic
import CoolMachine.Proofs.Ideal.Footprint
import CoolMachine.Proofs.Machine.Flow
import CoolMachine.Proofs.Machine.Operation

/-! The memory of a hardened machine from its stack pointer up, taken as a list. What a step makes
of that list is told by its opcode, and every other cell keeps its word, popped words included. -/

namespace CoolMachine

open CoolMachine.Ideal (InMemory word)

/-! ### The words from an address on -/

/-- The words from the address `first` on, once `value` has been put at `address`. -/
def putAt (first address : Int) (value : Word) (words : List Word) : List Word :=
  if first ≤ address then words.set (address - first).toNat value else words

namespace Memory

/-- The two memories are the same but for what has been counted. -/
structure SameWords (memory memory' : Memory) : Prop where
  mode : memory.mode = memory'.mode
  cells : memory.cells = memory'.cells

/-- The words from an address to the end of memory. -/
def wordsFrom (memory : Memory) (first : Int) : List Word :=
  (List.range' first.toNat (memoryWords - first.toNat)).map memory.cells.get

section Words

variable {memory memory' : Memory} {first address : Int}

theorem SameWords.wordsFrom_eq (h : SameWords memory memory') (first : Int) :
    memory.wordsFrom first = memory'.wordsFrom first := by
  rw [wordsFrom, h.cells, wordsFrom]

theorem SameWords.peek_eq (h : SameWords memory memory') (cell : Word) :
    memory.peek cell = memory'.peek cell := by
  rw [peek, h.cells, peek]

theorem get_toNat (h : InMemory address) :
    memory.cells.get address.toNat = memory.peek (word address) := by
  have hword := Ideal.toNat_word address
  obtain ⟨h₀, h₁⟩ := h
  rw [peek]
  congr 1
  omega

theorem wordsFrom_eq_cons (h : InMemory first) :
    memory.wordsFrom first = memory.peek (word first) :: memory.wordsFrom (first + 1) := by
  obtain ⟨h₀, h₁⟩ := h
  have hnext : (first + 1).toNat = first.toNat + 1 := by omega
  have hlength : memoryWords - first.toNat = memoryWords - (first.toNat + 1) + 1 := by
    unfold memoryWords
    omega
  rw [wordsFrom, hlength, List.range'_succ, List.map_cons, get_toNat ⟨h₀, h₁⟩, wordsFrom, hnext]

theorem length_wordsFrom (memory : Memory) (first : Int) :
    (memory.wordsFrom first).length = memoryWords - first.toNat := by
  rw [wordsFrom, List.length_map, List.length_range']

theorem getElem_wordsFrom {i : Nat} (hi : i < (memory.wordsFrom first).length) :
    (memory.wordsFrom first)[i] = memory.cells.get (first.toNat + i) := by
  simp only [wordsFrom, List.getElem_map, List.getElem_range', Nat.one_mul]

theorem wordsFrom_store (ha : InMemory address) (hf : 0 ≤ first) (value : Word) :
    (memory.store (word address) value).wordsFrom first =
      putAt first address value (memory.wordsFrom first) := by
  have hword := Ideal.toNat_word address
  obtain ⟨h₀, h₁⟩ := ha
  have hcell : (word address).toNat = address.toNat := by omega
  have hwords : memoryWords = 65536 := rfl
  have hsize : Bank.size 16 = 65536 := rfl
  have hlength : (putAt first address value (memory.wordsFrom first)).length =
      memoryWords - first.toNat := by
    rw [← length_wordsFrom memory, putAt]
    split
    · exact List.length_set
    · rfl
  refine List.ext_getElem ((length_wordsFrom _ first).trans hlength.symm) fun i hi hi' => ?_
  rw [hlength] at hi'
  rw [getElem_wordsFrom, store, hcell, Bank.get_set memory.cells value (by omega) (by omega)]
  by_cases hfirst : first ≤ address
  · have hindex : (address - first).toNat = i ↔ address.toNat = first.toNat + i := by omega
    simp only [putAt, if_pos hfirst, List.getElem_set, hindex, getElem_wordsFrom]
  · have hbelow : address.toNat ≠ first.toNat + i := by omega
    simp only [putAt, if_neg hfirst, if_neg hbelow, getElem_wordsFrom]

/-- A word put where the list begins replaces its head. -/
theorem wordsFrom_store_self (h : InMemory first) (value : Word) :
    (memory.store (word first) value).wordsFrom first = value :: memory.wordsFrom (first + 1) := by
  have h₀ := h.1
  have hbelow : ¬ first + 1 ≤ first := by omega
  rw [wordsFrom_eq_cons h, Ideal.peek_store_word h h, if_pos rfl, wordsFrom_store h (by omega),
    putAt, if_neg hbelow]

end Words

end Memory

/-! ### What instructions make of the stack -/

/-- The operator on the two words on top, the right operand above the left one; a result that does
not fit wraps. -/
def Operator.restack (o : Operator) : List Word → Option (List Word)
  | right :: left :: rest => (o.result? left.signed.toInt right.signed.toInt).map fun exact =>
      UInt16.ofInt exact :: rest
  | _ => none

namespace Machine

def stack (m : Machine) : List Word := m.memory.wordsFrom m.sp.toInt

/-- The address in the current frame that the operand names. -/
def frameCell (m : Machine) : Int := m.fp.toInt + m.operandWord.signed.toInt

/-- The top word leaves the stack for an address, which may lie in the rest of the stack. -/
def moveTop (m : Machine) (address : Int) : List Word → Option (List Word)
  | top :: rest => some (putAt (m.sp.toInt + 1) address top rest)
  | [] => none

/-- What the instruction makes of the stack, if the stack has the words that it takes. -/
def restack (m : Machine) (stack : List Word) : Opcode → Option (List Word)
  | .halt | .nop | .prints | .jmp => some stack
  | .add => Operator.add.restack stack
  | .sub => Operator.sub.restack stack
  | .mult => Operator.mult.restack stack
  | .div => Operator.div.restack stack
  | .call => some (Word.ofRegister m.fp :: Word.ofRegister (m.pc + 2) :: stack)
  | .ret => stack.head?.map fun value => value :: m.memory.wordsFrom (m.frameCell + 1)
  | .jeq | .printi => stack.tail?
  | .pushc => some (m.operandWord :: stack)
  | .pusha => some (m.memory.peek m.operandWord :: stack)
  | .pushr => some (m.memory.peek (word m.frameCell) :: stack)
  | .popa => m.moveTop m.operandWord.toNat stack
  | .popr => m.moveTop m.frameCell stack

/-- The stack pointer is an address of memory or the end of it. -/
def StackBounds (m : Machine) : Prop := 0 ≤ m.sp.toInt ∧ m.sp.toInt ≤ 65536

/-- The second machine is the first one after the instruction, as far as memory is concerned. -/
structure StackStep (m : Machine) (op : Opcode) (m' : Machine) : Prop where
  mode : m'.memory.mode = m.memory.mode
  bounds : m'.StackBounds
  stack_eq : m.restack m.stack op = some m'.stack
  /-- Whatever the instruction does not store to keeps its word, below the stack pointer too. -/
  others : ∀ address, InMemory address →
    address ∉ op.stores m.sp.toInt m.fp.toInt m.operandWord →
      m'.memory.peek (word address) = m.memory.peek (word address)

section Shapes

variable {m m' : Machine} {op : Opcode}

theorem inMemory_of_resolve (hm : m.memory.mode = .hardened) {address : Register}
    (h : m.memory.mode.resolve address ≠ none) : InMemory address.toInt :=
  Ideal.inMemory_of_resolve (hm ▸ h)

theorem peek_of_store {cell address : Int} {value : Word} (hcell : InMemory cell)
    (hwords : m'.memory.SameWords (m.memory.store (word cell) value))
    (haddress : InMemory address) (hne : address ≠ cell) :
    m'.memory.peek (word address) = m.memory.peek (word address) := by
  rw [hwords.peek_eq, Ideal.peek_store_word hcell haddress, if_neg hne]

theorem stack_eq_cons (h : InMemory m.sp.toInt) :
    m.stack = m.topWord :: m.memory.wordsFrom (m.sp.toInt + 1) := by
  rw [stack, Memory.wordsFrom_eq_cons h, Ideal.word_toInt, topWord]

theorem restack_opcode (o : Operator) (stack : List Word) :
    m.restack stack o.opcode = o.restack stack := by
  cases o <;> rfl

/-- A frame address that lies in memory has not wrapped. -/
theorem frameCell_eq_toInt (h : InMemory (m.fp + m.operandWord.offset).toInt) :
    (m.fp + m.operandWord.offset).toInt = m.frameCell := by
  have hl : -32768 ≤ m.operandWord.offset.toInt :=
    m.operandWord.toInt_offset ▸ m.operandWord.signed.le_toInt
  have hu : m.operandWord.offset.toInt < 32768 :=
    m.operandWord.toInt_offset ▸ m.operandWord.signed.toInt_lt
  rw [frameCell, ← Word.toInt_offset, Ideal.toInt_add_of_inMemory hl hu h]

/-- The stack pointer is back where it was, and nothing has been stored. -/
theorem stackStep_of_rest (hbounds : m.StackBounds) (hsp : m'.sp = m.sp)
    (hwords : m'.memory.SameWords m.memory) (hop : m.restack m.stack op = some m.stack) :
    m.StackStep op m' where
  mode := hwords.mode
  bounds := by rwa [StackBounds, hsp]
  stack_eq := by rw [hop, stack, stack, hsp, hwords.wordsFrom_eq]
  others := fun _ _ _ => hwords.peek_eq _

theorem toInt_of_pop (htop : InMemory m.sp.toInt) (hsp : m'.sp = m.sp + 1) :
    m'.sp.toInt = m.sp.toInt + 1 := by
  have h₁ := htop.2
  rw [hsp]
  exact Register.toInt_succ (by omega)

theorem bounds_of_pop (htop : InMemory m.sp.toInt) (hsp : m'.sp = m.sp + 1) : m'.StackBounds := by
  obtain ⟨h₀, h₁⟩ := htop
  rw [StackBounds, toInt_of_pop ⟨h₀, h₁⟩ hsp]
  omega

/-- The top word has been popped, and nothing has been stored. -/
theorem stackStep_of_drop (htop : InMemory m.sp.toInt) (hsp : m'.sp = m.sp + 1)
    (hwords : m'.memory.SameWords m.memory) (hop : m.restack m.stack op = m.stack.tail?) :
    m.StackStep op m' where
  mode := hwords.mode
  bounds := bounds_of_pop htop hsp
  stack_eq := by
    rw [hop, stack_eq_cons htop, stack, toInt_of_pop htop hsp, hwords.wordsFrom_eq]
    rfl
  others := fun _ _ _ => hwords.peek_eq _

/-- A word has been stored to a cell, which is the top of the stack now. -/
theorem stackStep_of_top {cell : Register} {w : Word} (hcell : InMemory cell.toInt)
    (hsp : m'.sp = cell)
    (hwords : m'.memory.SameWords (m.memory.store (Word.ofRegister cell) w))
    (hstores : op.stores m.sp.toInt m.fp.toInt m.operandWord = [cell.toInt])
    (hop : m.restack m.stack op = some (w :: m.memory.wordsFrom (cell.toInt + 1))) :
    m.StackStep op m' := by
  rw [← Ideal.word_toInt] at hwords
  refine ⟨hwords.mode, ?_, ?_, fun address haddress hne => ?_⟩
  · obtain ⟨h₀, h₁⟩ := hcell
    rw [StackBounds, hsp]
    omega
  · rw [hop, stack, hsp, hwords.wordsFrom_eq, Memory.wordsFrom_store_self hcell]
  · rw [hstores, List.mem_singleton] at hne
    exact peek_of_store hcell hwords haddress hne

theorem stackStep_of_push {w : Word} (hbounds : m.StackBounds)
    (hcell : InMemory (m.sp - 1).toInt) (hsp : m'.sp = m.sp - 1)
    (hwords : m'.memory.SameWords (m.memory.store (Word.ofRegister (m.sp - 1)) w))
    (hstores : op.stores m.sp.toInt m.fp.toInt m.operandWord = [m.sp.toInt - 1])
    (hop : m.restack m.stack op = some (w :: m.stack)) : m.StackStep op m' := by
  have hs : (m.sp - 1).toInt = m.sp.toInt - 1 := Register.toInt_pred (by have := hbounds.1; omega)
  refine stackStep_of_top hcell hsp hwords (hs ▸ hstores) ?_
  rw [hop, stack, hs, Int.sub_add_cancel]

/-- The top word has been popped and stored to a cell. -/
theorem stackStep_of_move {cell : Register} (htop : InMemory m.sp.toInt)
    (hcell : InMemory cell.toInt) (hsp : m'.sp = m.sp + 1)
    (hwords : m'.memory.SameWords (m.memory.store (Word.ofRegister cell) m.topWord))
    (hstores : op.stores m.sp.toInt m.fp.toInt m.operandWord = [cell.toInt])
    (hop : m.restack m.stack op = m.moveTop cell.toInt m.stack) : m.StackStep op m' := by
  rw [← Ideal.word_toInt] at hwords
  have hs : m'.sp.toInt = m.sp.toInt + 1 := toInt_of_pop htop hsp
  have h₀ : 0 ≤ m.sp.toInt + 1 := by have := htop.1; omega
  refine ⟨hwords.mode, bounds_of_pop htop hsp, ?_, fun address haddress hne => ?_⟩
  · rw [hop, stack_eq_cons htop, moveTop, stack, hs, hwords.wordsFrom_eq,
      Memory.wordsFrom_store hcell h₀]
  · rw [hstores, List.mem_singleton] at hne
    exact peek_of_store hcell hwords haddress hne

/-- Two words have been stored, one below the other, and the lower one is the top now. -/
theorem stackStep_of_call (hbounds : m.StackBounds) (hcell : InMemory (m.sp - 1).toInt)
    (hcell₁ : InMemory (m.sp - 1 - 1).toInt) (hsp : m'.sp = m.sp - 1 - 1)
    (hwords : m'.memory.SameWords ((m.memory.store (Word.ofRegister (m.sp - 1))
      (Word.ofRegister (m.pc + 2))).store (Word.ofRegister (m.sp - 1 - 1))
      (Word.ofRegister m.fp))) : m.StackStep .call m' := by
  have hs : (m.sp - 1).toInt = m.sp.toInt - 1 := Register.toInt_pred (by have := hbounds.1; omega)
  have hs₁ : (m.sp - 1 - 1).toInt = (m.sp - 1).toInt - 1 :=
    Register.toInt_pred (by have := hcell.1; omega)
  rw [← Ideal.word_toInt, ← Ideal.word_toInt (m.sp - 1 - 1)] at hwords
  refine ⟨hwords.mode, ?_, ?_, fun address haddress hne => ?_⟩
  · obtain ⟨h₀, h₁⟩ := hcell₁
    rw [StackBounds, hsp]
    omega
  · rw [stack, stack, hsp, hwords.wordsFrom_eq, Memory.wordsFrom_store_self hcell₁, hs₁,
      Int.sub_add_cancel, Memory.wordsFrom_store_self hcell, hs, Int.sub_add_cancel]
    rfl
  · simp only [Opcode.stores, List.mem_cons, List.not_mem_nil, or_false, not_or] at hne
    have hne₀ : address ≠ (m.sp - 1).toInt := by omega
    have hne₁ : address ≠ (m.sp - 1 - 1).toInt := by omega
    rw [hwords.peek_eq, Ideal.peek_store_word hcell₁ haddress, if_neg hne₁,
      Ideal.peek_store_word hcell haddress, if_neg hne₀]

end Shapes

/-! ### Instructions -/

section Instructions

variable {m : Machine} (hm : m.memory.mode = .hardened)

include hm

theorem stackStep_combine {o : Operator} {operation : Int16 → Int16 → Except FaultCause Int16}
    (h : ∀ left right value, operation left right = .ok value →
      o.onWords left right = some value) :
    Meets (Action.combine operation) m.fetched (fun _ m' => m.StackStep o.opcode m')
      fun _ _ => True := by
  simp only [Action.combine, meets_bind, Action.meets_pop, Action.meets_top, Action.meets_readCell,
    implies_true, and_true, true_and]
  intro _ hright _ hleft
  have hin : InMemory m.sp.toInt := inMemory_of_resolve hm hright
  have hin₁ : InMemory (m.sp + 1).toInt := inMemory_of_resolve hm hleft
  have hs : (m.sp + 1).toInt = m.sp.toInt + 1 := Register.toInt_succ (by have := hin.2; omega)
  have hstack : m.stack = m.topWord :: m.memory.peek (Word.ofRegister (m.sp + 1)) ::
      m.memory.wordsFrom ((m.sp + 1).toInt + 1) := by
    rw [stack_eq_cons hin, ← hs, Memory.wordsFrom_eq_cons hin₁, Ideal.word_toInt]
  cases hv : operation _ _ with
  | error cause => trivial
  | ok value =>
      have hv : operation (m.memory.peek (Word.ofRegister (m.sp + 1))).signed m.topWord.signed =
          .ok value := hv
      simp only [Action.meets_push, Action.meets_writeCell, implies_true, and_true, true_and]
      intro _ _
      -- The result goes to the cell that the left operand came from.
      have hback : m.sp + 1 + 1 - 1 = m.sp + 1 := Int32.add_sub_cancel _ _
      refine stackStep_of_top hin₁ hback (w := Word.ofSigned value) ?_ ?_ ?_
      · exact ⟨rfl, congrArg (fun cell => (m.memory.store (Word.ofRegister cell) _).cells) hback⟩
      · rw [hs]
        cases o <;> rfl
      · obtain ⟨exact, hexact, hvalue⟩ := Operator.exists_result?_of_onWords (h _ _ _ hv)
        rw [restack_opcode, hstack, Operator.restack, hexact, Word.ofSigned_eq_ofInt hvalue]
        rfl

/-- The value and the frame are read before the value goes to the cell that the operand names. -/
theorem stackStep_ret :
    Meets Action.ret m.fetched (fun _ m' => m.StackStep .ret m') fun _ _ => True := by
  simp only [Action.ret, meets_bind, Action.meets_frameAddress, Action.meets_fetch,
    Action.meets_pop, Action.meets_top, Action.meets_readCell, Action.meets_writeCell,
    meets_modify, implies_true, and_true, true_and]
  intro _ _ htop _ _ _ _ hslot
  have hin : InMemory (m.fp + m.operandWord.offset).toInt := inMemory_of_resolve hm hslot
  have hframe := frameCell_eq_toInt hin
  refine stackStep_of_top hin rfl (w := m.topWord) ⟨rfl, rfl⟩ (by rw [hframe]; rfl) ?_
  have htop : InMemory m.sp.toInt := inMemory_of_resolve hm htop
  rw [restack, stack_eq_cons htop, hframe]
  rfl

theorem stackStep_jumpIfZero :
    Meets Action.jumpIfZero m.fetched (fun _ m' => m.StackStep .jeq m') fun _ _ => True := by
  simp only [Action.jumpIfZero, meets_bind, Action.meets_pop, Action.meets_top,
    Action.meets_readCell, implies_true, and_true, true_and]
  intro _ htop
  have hin := inMemory_of_resolve hm htop
  rw [meets_ite]
  split
  · simp only [meets_bind, Action.meets_fetch, Action.meets_readCell, meets_modify, implies_true,
      and_true]
    exact fun _ => stackStep_of_drop hin rfl ⟨rfl, rfl⟩ rfl
  · exact stackStep_of_drop hin rfl ⟨rfl, rfl⟩ rfl

theorem stackStep_ofOpcode (hbounds : m.StackBounds) (op : Opcode) :
    Meets (Action.ofOpcode op) m.fetched (fun _ m' => m.StackStep op m') fun _ _ => True := by
  cases op with
  | halt =>
      simp only [Action.ofOpcode, Action.halt, meets_bind, Action.meets_top, Action.meets_readCell,
        meets_modify, implies_true, and_true, true_and]
      exact fun _ _ => stackStep_of_rest hbounds rfl ⟨rfl, rfl⟩ rfl
  | nop => exact stackStep_of_rest hbounds rfl ⟨rfl, rfl⟩ rfl
  | prints => exact stackStep_of_rest hbounds rfl ⟨rfl, rfl⟩ rfl
  | add => exact stackStep_combine hm (o := .add) fun _ _ _ h => congrArg some (Except.ok.inj h)
  | sub => exact stackStep_combine hm (o := .sub) fun _ _ _ h => congrArg some (Except.ok.inj h)
  | mult => exact stackStep_combine hm (o := .mult) fun _ _ _ h => congrArg some (Except.ok.inj h)
  | div =>
      refine stackStep_combine hm (o := .div) fun left right value h => ?_
      rw [Action.divide] at h
      rw [Operator.onWords, Ideal.divide?]
      split at h
      · cases h
      · next hz => exact (if_neg hz).trans (congrArg some (Except.ok.inj h))
  | call =>
      simp only [Action.ofOpcode, Action.call, meets_bind, Action.meets_fetch, meets_get,
        Action.meets_push, Action.meets_readCell, Action.meets_writeCell, meets_modify,
        implies_true, and_true, true_and]
      intro _ _ hcell _ hcell₁
      refine stackStep_of_call hbounds (inMemory_of_resolve hm hcell)
        (inMemory_of_resolve hm hcell₁) rfl ?_
      rw [← Register.succ_succ]
      exact ⟨rfl, rfl⟩
  | ret => exact stackStep_ret hm
  | jmp =>
      simp only [Action.ofOpcode, meets_bind, Action.meets_fetch, Action.meets_readCell,
        meets_modify, implies_true, and_true]
      exact fun _ => stackStep_of_rest hbounds rfl ⟨rfl, rfl⟩ rfl
  | jeq => exact stackStep_jumpIfZero hm
  | printi =>
      simp only [Action.ofOpcode, meets_bind, Action.meets_pop, Action.meets_top,
        Action.meets_readCell, Action.meets_print, implies_true, and_true, true_and]
      intro _ htop
      unfold Meets
      split
      · exact stackStep_of_drop (inMemory_of_resolve hm htop) rfl ⟨rfl, rfl⟩ rfl
      · trivial
  | pushc =>
      simp only [Action.ofOpcode, meets_bind, Action.meets_fetch, Action.meets_push,
        Action.meets_readCell, Action.meets_writeCell, implies_true, and_true, true_and]
      exact fun _ _ hcell =>
        stackStep_of_push hbounds (inMemory_of_resolve hm hcell) rfl ⟨rfl, rfl⟩ rfl rfl
  | pusha =>
      simp only [Action.ofOpcode, meets_bind, Action.meets_fetch, Action.meets_push,
        Action.meets_readCell, Action.meets_writeCell, implies_true, and_true, true_and]
      intro _ _ _ hcell
      refine stackStep_of_push hbounds (inMemory_of_resolve hm hcell) rfl ⟨rfl, rfl⟩ rfl ?_
      rw [restack, ← Word.ofRegister_address m.operandWord]
      rfl
  | pushr =>
      simp only [Action.ofOpcode, meets_bind, Action.meets_frameAddress, Action.meets_fetch,
        Action.meets_push, Action.meets_readCell, Action.meets_writeCell, implies_true, and_true,
        true_and]
      intro _ hslot _ hcell
      refine stackStep_of_push hbounds (inMemory_of_resolve hm hcell) rfl ⟨rfl, rfl⟩ rfl ?_
      have hin : InMemory (m.fp + m.operandWord.offset).toInt := inMemory_of_resolve hm hslot
      rw [restack, ← frameCell_eq_toInt hin, Ideal.word_toInt]
      rfl
  | popa =>
      simp only [Action.ofOpcode, meets_bind, Action.meets_fetch, Action.meets_pop,
        Action.meets_top, Action.meets_readCell, Action.meets_writeCell, implies_true, and_true,
        true_and]
      intro _ _ htop hcell
      have haddress := Word.toInt_address m.operandWord
      have hin : InMemory m.operandWord.address.toInt := inMemory_of_resolve hm hcell
      refine stackStep_of_move (inMemory_of_resolve hm htop) hin rfl ⟨rfl, rfl⟩ ?_ ?_
      · exact congrArg (fun x => [x]) haddress.symm
      · exact congrArg (m.moveTop · m.stack) haddress.symm
  | popr =>
      simp only [Action.ofOpcode, meets_bind, Action.meets_frameAddress, Action.meets_fetch,
        Action.meets_pop, Action.meets_top, Action.meets_readCell, Action.meets_writeCell,
        implies_true, and_true, true_and]
      intro _ _ htop hcell
      have hin : InMemory (m.fp + m.operandWord.offset).toInt := inMemory_of_resolve hm hcell
      have hframe := frameCell_eq_toInt hin
      refine stackStep_of_move (inMemory_of_resolve hm htop) hin rfl ⟨rfl, rfl⟩ ?_ ?_
      · exact congrArg (fun x => [x]) hframe.symm
      · exact congrArg (m.moveTop · m.stack) hframe.symm

end Instructions

/-! ### Steps -/

section Steps

variable {m : Machine}

theorem meets_stackStep (hm : m.memory.mode = .hardened) (hh : m.halted = none)
    (hbounds : m.StackBounds) :
    Meets step m (fun _ m' => ∃ op, Opcode.ofWord? m.opcodeWord = some op ∧ m.StackStep op m')
      fun _ _ => True := by
  refine (meets_step hh).mpr ⟨fun _ => ?_, fun _ => trivial⟩
  rw [Action.ofWord]
  cases hop : Opcode.ofWord? m.opcodeWord with
  | some op =>
      refine (stackStep_ofOpcode hm hbounds op).mono (fun _ _ h => ?_) fun _ _ _ => trivial
      exact ⟨op, rfl, h⟩
  | none =>
      have hhardened : m.fetched.memory.mode = .hardened := hm
      simp only [meets_bind, meets_get]
      rw [if_pos hhardened]
      trivial

/-- A step that succeeds is one of an opcode, which makes of the stack what it is said to, and
stores to no other cell than those it is said to. -/
theorem stack_step {m' : Machine} {result : Option Word} (hm : m.memory.mode = .hardened)
    (hh : m.halted = none) (hbounds : m.StackBounds) (hstep : m.step = .ok result m') :
    ∃ op, Opcode.ofWord? m.opcodeWord = some op ∧ m.StackStep op m' :=
  (meets_stackStep hm hh hbounds).of_ok hstep

/-- `pushc 3`, `pushc 4` and `popa 65535`, the first two executed: the address is that of the 3. -/
def popIntoStack : Machine :=
  (((powerOn .hardened {}).perform (.load [12, 3, 12, 4, 15, 65535])).2.perform (.advance 2)).2

/-- The word that is popped overwrites the one below it. -/
theorem stack_step_pop_into_stack :
    popIntoStack.stack = [4, 3] ∧ (popIntoStack.perform .step).2.stack = [4] ∧
    ∃ op, Opcode.ofWord? popIntoStack.opcodeWord = some op ∧
      popIntoStack.StackStep op (popIntoStack.perform .step).2 := by
  have hstep : popIntoStack.step = .ok none (popIntoStack.perform .step).2 := rfl
  exact ⟨rfl, rfl, stack_step rfl rfl ⟨by decide, by decide⟩ hstep⟩

/-- A run that does not fault ends with a stack in memory again, however long it is. -/
theorem stackBounds_runFor (hm : m.memory.mode = .hardened) (hbounds : m.StackBounds)
    (limit : Nat) :
    Meets (runFor limit) m (fun _ m' => m'.memory.mode = .hardened ∧ m'.StackBounds)
      fun _ _ => True := by
  refine meets_runFor (fun m₁ h => ?_) limit ⟨hm, hbounds⟩
  cases hh : m₁.halted with
  | some result => exact (meets_of_ok (step_of_halted hh)).mpr h
  | none =>
      refine (meets_stackStep h.1 hh h.2).mono (fun _ m₂ hstep => ?_) fun _ _ _ => trivial
      obtain ⟨op, -, hstep⟩ := hstep
      exact ⟨hstep.mode.trans h.1, hstep.bounds⟩

end Steps

end Machine

end CoolMachine
