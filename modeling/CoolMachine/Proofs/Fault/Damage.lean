import CoolMachine.Proofs.Ideal.Agreement
import CoolMachine.Proofs.Machine.Control
import CoolMachine.Proofs.Machine.Flow

/-! What a fault leaves behind. Instructions look before they store: whatever an instruction reads,
it has read before its only store, so one that faults has stored nothing. A call stores twice, and
is the one instruction that can be cut short in between. -/

namespace CoolMachine

/-- The second machine holds the words of the first, and has halted if the first has. -/
structure Machine.Unscathed (m m' : Machine) : Prop where
  cells : m'.memory.cells = m.memory.cells
  mode : m'.memory.mode = m.memory.mode
  halted : m'.halted = m.halted

namespace Machine.Unscathed

variable {m m' m'' : Machine}

theorem refl (m : Machine) : m.Unscathed m := ⟨rfl, rfl, rfl⟩

theorem trans (h : m.Unscathed m') (h' : m'.Unscathed m'') : m.Unscathed m'' :=
  ⟨h'.cells.trans h.cells, h'.mode.trans h.mode, h'.halted.trans h.halted⟩

end Machine.Unscathed

namespace Action

variable {α β : Type}

/-- Whatever it comes to, the action has stored nothing. -/
def Looks (x : Action α) : Prop :=
  ∀ m, Meets x m (fun _ => m.Unscathed) fun _ => m.Unscathed

/-- If it faults, the action has stored nothing. -/
def Careful (x : Action α) : Prop := ∀ m, Meets x m (fun _ _ => True) fun _ => m.Unscathed

theorem Looks.careful {x : Action α} (h : Looks x) : Careful x :=
  fun m => (h m).mono (fun _ _ _ => trivial) fun _ _ hf => hf

theorem looks_pure (a : α) : Looks (pure a) := fun m => .refl m

theorem looks_throw (cause : FaultCause) : Looks (throw cause : Action α) := fun m => .refl m

theorem looks_modify {f : Machine → Machine} (h : ∀ m : Machine, m.Unscathed (f m)) :
    Looks (modify f) := h

theorem careful_modify (f : Machine → Machine) : Careful (modify f) := fun _ => trivial

theorem looks_get_bind {k : Machine → Action α} (h : ∀ m, Looks (k m)) : Looks (get >>= k) :=
  fun m => h m m

theorem looks_bind {x : Action α} {f : α → Action β} (hx : Looks x) (hf : ∀ a, Looks (f a)) :
    Looks (x >>= f) := by
  intro m
  rw [meets_bind]
  refine (hx m).mono (fun a m' hm => ?_) fun _ _ hm => hm
  exact (hf a m').mono (fun _ _ => hm.trans) fun _ _ => hm.trans

/-- What goes before the store must only look. -/
theorem careful_bind {x : Action α} {f : α → Action β} (hx : Looks x) (hf : ∀ a, Careful (f a)) :
    Careful (x >>= f) := by
  intro m
  rw [meets_bind]
  refine (hx m).mono (fun a m' hm => ?_) fun _ _ hm => hm
  exact (hf a m').mono (fun _ _ _ => trivial) fun _ _ => hm.trans

/-! ### Accesses -/

theorem looks_readCell (address : Register) : Looks (readCell address) := by
  intro m
  rw [meets_readCell]
  exact ⟨fun _ => ⟨rfl, rfl, rfl⟩, fun _ => ⟨rfl, rfl, rfl⟩⟩

theorem careful_writeCell (address : Register) (value : Word) :
    Careful (writeCell address value) := by
  intro m
  rw [meets_writeCell]
  exact ⟨fun _ => trivial, fun _ => ⟨rfl, rfl, rfl⟩⟩

theorem looks_print (text : List Char) : Looks (print text) := by
  intro m
  rw [meets_print]
  unfold Meets
  split <;> exact ⟨rfl, rfl, rfl⟩

theorem careful_push (value : Word) : Careful (push value) := by
  intro m
  rw [meets_push]
  refine ⟨fun _ => .refl m, fun _ => ?_⟩
  exact (careful_writeCell _ value _).mono (fun _ _ h => h) fun _ _ h => ⟨h.cells, h.mode, h.halted⟩

theorem looks_top : Looks top := by
  intro m
  rw [meets_top]
  exact ⟨fun _ => .refl m, fun _ => looks_readCell m.sp m⟩

theorem looks_fetch : Looks fetch :=
  looks_get_bind fun m => looks_bind (looks_readCell m.pc) fun word =>
    looks_bind (looks_modify fun _ => ⟨rfl, rfl, rfl⟩) fun _ => looks_pure word

theorem looks_pop : Looks pop :=
  looks_bind looks_top fun word =>
    looks_bind (looks_modify fun _ => ⟨rfl, rfl, rfl⟩) fun _ => looks_pure word

theorem looks_frameAddress : Looks frameAddress :=
  looks_bind looks_fetch fun _ => looks_get_bind fun _ => looks_pure _

/-! ### Instructions -/

theorem careful_combine (operation : Int16 → Int16 → Except FaultCause Int16) :
    Careful (combine operation) := by
  refine careful_bind looks_pop fun right => careful_bind looks_pop fun left => ?_
  cases operation left.signed right.signed with
  | ok value => exact careful_push _
  | error cause => exact (looks_throw cause).careful

theorem careful_ret : Careful ret := by
  refine careful_bind looks_frameAddress fun slot => ?_
  refine careful_bind looks_pop fun value => ?_
  refine careful_bind (looks_modify fun _ => ⟨rfl, rfl, rfl⟩) fun _ => ?_
  refine careful_bind looks_pop fun fp => ?_
  refine careful_bind (looks_modify fun _ => ⟨rfl, rfl, rfl⟩) fun _ => ?_
  refine careful_bind looks_pop fun pc => ?_
  exact careful_bind (looks_modify fun _ => ⟨rfl, rfl, rfl⟩) fun _ => careful_writeCell slot value

theorem careful_jumpIfZero : Careful jumpIfZero := by
  refine careful_bind looks_pop fun word => ?_
  by_cases h : word = 0
  · rw [if_pos h]
    exact careful_bind looks_fetch fun _ => careful_modify _
  · rw [if_neg h]
    exact careful_modify _

theorem careful_ofOpcode {op : Opcode} (h : op ≠ .call) : Careful (ofOpcode op) := by
  cases op with
  | halt => exact careful_bind looks_top fun _ => careful_modify _
  | nop => exact (looks_pure ()).careful
  | prints => exact (looks_pure ()).careful
  | add => exact careful_combine fun left right => .ok (left + right)
  | sub => exact careful_combine fun left right => .ok (left - right)
  | mult => exact careful_combine fun left right => .ok (left * right)
  | div => exact careful_combine divide
  | call => exact absurd rfl h
  | ret => exact careful_ret
  | jmp => exact careful_bind looks_fetch fun _ => careful_modify _
  | jeq => exact careful_jumpIfZero
  | printi => exact careful_bind looks_pop fun _ => (looks_print _).careful
  | pushc => exact careful_bind looks_fetch careful_push
  | pusha =>
      refine careful_bind looks_fetch fun address => ?_
      exact careful_bind (looks_readCell _) careful_push
  | pushr =>
      refine careful_bind looks_frameAddress fun address => ?_
      exact careful_bind (looks_readCell address) careful_push
  | popa =>
      refine careful_bind looks_fetch fun address => ?_
      exact careful_bind looks_pop fun value => careful_writeCell _ value
  | popr =>
      refine careful_bind looks_frameAddress fun address => ?_
      exact careful_bind looks_pop fun value => careful_writeCell address value

theorem careful_ofWord {word : Word} (h : word ≠ Opcode.call.code) : Careful (ofWord word) := by
  rw [ofWord]
  cases ho : Opcode.ofWord? word with
  | some op => exact careful_ofOpcode fun hc => h (Opcode.ofWord?_eq_some_iff.mp (hc ▸ ho))
  | none =>
      refine (looks_get_bind fun m => ?_).careful
      split
      · exact looks_throw _
      · exact looks_pure ()

/-! ### Calls -/

section Calls

variable {m : Machine}

/-- There is a cell for another word; where addresses wrap there always is. -/
def Room (m : Machine) : Prop :=
  m.memory.mode = .hardened → 0 < m.sp.toInt ∧ m.sp.toInt ≤ 65536

theorem push_of_room (h : Room m) (value : Word) :
    push value m = .ok () { m with
      sp := m.sp - 1
      memory := m.memory.countWrite.store (Word.ofRegister (m.sp - 1)) value } := by
  have hsp : ¬ (m.memory.mode = .hardened ∧ m.sp ≤ 0) := by
    rintro ⟨hm, hle⟩
    rw [Int32.le_iff_toInt_le, Int32.toInt_zero] at hle
    have := (h hm).1
    omega
  have hcell : m.memory.mode.resolve (m.sp - 1) = some (Word.ofRegister (m.sp - 1)) := by
    cases hm : m.memory.mode with
    | compatible => rfl
    | hardened =>
        obtain ⟨hlo, hhi⟩ := h hm
        have hs : (m.sp - 1).toInt = m.sp.toInt - 1 := Register.toInt_pred (by omega)
        rw [Ideal.resolve_hardened, Ideal.word_toInt, if_pos ⟨by omega, by omega⟩]
  rw [push_apply, if_neg hsp]
  exact writeCell_of_resolve value hcell

theorem room_of_push {m' : Machine} {value : Word} {u : Unit} (h : push value m = .ok u m') :
    Room m := by
  intro hm
  have hpush : Meets (push value) m (fun _ _ => 0 < m.sp.toInt ∧ m.sp.toInt ≤ 65536)
      fun _ _ => True := by
    rw [meets_push, meets_writeCell, hm, Int32.le_iff_toInt_le, Int32.toInt_zero]
    refine ⟨fun _ => trivial, fun hsp => ⟨fun hcell => ?_, fun _ => trivial⟩⟩
    have hpos : 0 < m.sp.toInt := Int.not_le.mp fun hle => hsp ⟨rfl, hle⟩
    have hs : (m.sp - 1).toInt = m.sp.toInt - 1 := Register.toInt_pred (by omega)
    have hin := (Ideal.inMemory_of_resolve hcell).2
    exact ⟨hpos, by omega⟩
  exact hpush.of_ok h

/-- A call that has its operand and a single cell for its two words stores the first of them. -/
theorem meets_call_cramped (hm : m.memory.mode = .hardened) (hsp : m.sp = 1)
    (hpc : m.memory.mode.resolve m.pc ≠ none) :
    Meets call m (fun _ _ => False) fun cause m' => cause = .stackOverflow 0 ∧
      m'.memory.cells = (m.memory.store 0 (Word.ofRegister (m.pc + 1))).cells ∧
      m'.halted = m.halted := by
  have hroom : Room { m with pc := m.pc + 1, memory := m.memory.countRead } := fun _ => by
    rw [hsp]
    decide
  simp only [call, meets_bind, meets_fetch, meets_readCell, meets_get]
  refine ⟨fun _ => ?_, fun h => absurd h hpc⟩
  rw [meets_of_ok (push_of_room hroom _), hsp, meets_push]
  exact ⟨fun _ => ⟨rfl, rfl, rfl⟩, fun h => absurd ⟨hm, (by decide : (1 - 1 : Register) ≤ 0)⟩ h⟩

theorem ofWord_call : ofWord Opcode.call.code = call := rfl

/-- Any other call that faults has stored neither word. -/
theorem meets_call_careful
    (h : ¬ (m.memory.mode = .hardened ∧ m.sp = 1 ∧ m.memory.mode.resolve m.pc ≠ none)) :
    Meets call m (fun _ _ => True) fun _ => m.Unscathed := by
  simp only [call, meets_bind, meets_fetch, meets_readCell, meets_get]
  refine ⟨fun hpc => ?_, fun _ => ⟨rfl, rfl, rfl⟩⟩
  cases hp : push (Word.ofRegister (m.pc + 1))
      { m with pc := m.pc + 1, memory := m.memory.countRead } with
  | error cause m' =>
      obtain ⟨hcells, hmode, hhalted⟩ := (careful_push _ _).of_error hp
      rw [meets_of_error hp]
      exact ⟨hcells, hmode, hhalted⟩
  | ok u m' =>
      have hroom := room_of_push hp
      rw [push_of_room hroom] at hp
      cases hp
      -- The first word has not taken the last cell, so there is one for the second.
      have hroom' : Room { m with
          pc := m.pc + 1
          sp := m.sp - 1
          memory := m.memory.countRead.countWrite.store (Word.ofRegister (m.sp - 1))
            (Word.ofRegister (m.pc + 1)) } := by
        intro hm
        have hsp : 0 < m.sp.toInt ∧ m.sp.toInt ≤ 65536 := hroom hm
        have hs : (m.sp - 1).toInt = m.sp.toInt - 1 := Register.toInt_pred (by omega)
        have hne : m.sp.toInt ≠ 1 := fun hone => h ⟨hm, Int32.toInt_inj.mp hone, hpc⟩
        rw [hs]
        omega
      rw [meets_of_ok (push_of_room hroom _), meets_of_ok (push_of_room hroom' _)]
      trivial

end Calls

end Action

/-! ### Steps -/

namespace Machine

/-- The instruction at the program counter is a call of the hardened machine, and there is a single
free cell below the stack pointer. -/
def CallsAtLastCell (m : Machine) : Prop :=
  m.memory.mode = .hardened ∧ m.memory.mode.resolve m.pc ≠ none ∧
    m.opcodeWord = Opcode.call.code ∧ m.sp = 1

/-- The instruction at the program counter cannot be fetched. -/
def Stranded (m : Machine) : Prop := m.halted = none ∧ m.memory.mode.resolve m.pc = none

/-- What is left once a step has faulted. -/
structure Aftermath (m : Machine) (fault : Fault) (m' : Machine) : Prop where
  running : m.halted = none ∧ m'.halted = none
  pc_eq : fault.pc = m.pc
  /-- Main memory is unchanged, unless a call had a single cell for its two words and has stored
  its return address there. -/
  memory : m'.memory.cells = m.memory.cells ∨ m.CallsAtLastCell ∧
    m'.memory.cells = (m.memory.store 0 (Word.ofRegister (m.pc + 2))).cells
  /-- Such a call has stored its return address once it has its operand, and nothing before. -/
  call : m.CallsAtLastCell → m'.memory.cells =
    if m.memory.mode.resolve (m.pc + 1) = none then m.memory.cells
    else (m.memory.store 0 (Word.ofRegister (m.pc + 2))).cells
  instruction_eq_none_iff : fault.instruction = none ↔ m.memory.mode.resolve m.pc = none
  /-- A fetch that fails has only been counted, and fails again until the machine is reset. -/
  unfetched : fault.instruction = none → m' = { m with memory := m.memory.countRead } ∧
    ∀ ops : List Operation, .reset ∉ ops → ∃ m'', (m'.performAll ops).step = .error fault m''
  /-- The instruction is reported as it was before the step. -/
  fetched : fault.instruction ≠ none → m'.executed = m.executed + 1 ∧
    fault.instruction = some (m.opcodeWord, m.operandBehind m.pc m.opcodeWord)

section Steps

variable {m m' : Machine} {fault : Fault}

theorem step_of_stranded (h : m.Stranded) :
    m.step = .error ⟨m.pc, none, .address m.pc⟩ { m with memory := m.memory.countRead } := by
  simp only [step_of_running h.1, h.2]

theorem stranded_perform (h : m.Stranded) {op : Operation} (hop : op ≠ .reset) :
    (m.perform op).2.Stranded ∧ (m.perform op).2.pc = m.pc := by
  refine Operation.Keeps.same (I := fun m₁ => m₁.Stranded ∧ m₁.pc = m.pc)
    (keeps_perform_of_ne_reset ?_ ?_ ?_ ⟨h, rfl⟩ hop)
  · intro m₁ m₂ image h₁ hload
    obtain ⟨memory, hmemory, rfl⟩ := load_eq_ok hload
    obtain ⟨⟨hhalted, hresolve⟩, hpc⟩ := h₁
    exact ⟨⟨hhalted, by rw [Memory.mode_load hmemory]; exact hresolve⟩, hpc⟩
  · exact fun m₁ out h₁ => h₁
  · intro m₁ h₁
    rw [meets_of_error (step_of_stranded h₁.1)]
    exact h₁

/-- A machine that is stranded stays so, whatever is tried short of a reset. -/
theorem stranded_performAll (h : m.Stranded) {ops : List Operation} (hops : .reset ∉ ops) :
    (m.performAll ops).Stranded ∧ (m.performAll ops).pc = m.pc := by
  induction ops generalizing m with
  | nil => exact ⟨h, rfl⟩
  | cons op ops ih =>
      have hop : op ≠ .reset := fun h => hops (h ▸ List.mem_cons_self)
      obtain ⟨hs, hpc⟩ := stranded_perform h hop
      rw [performAll, List.foldl_cons, ← performAll, ← hpc]
      exact ih hs fun hr => hops (List.mem_cons_of_mem _ hr)

theorem operandBehind_of_peek {pc : Register}
    (h : m'.memory.peek (Word.ofRegister (pc + 1)) = m.memory.peek (Word.ofRegister (pc + 1)))
    (word : Word) : m'.operandBehind pc word = m.operandBehind pc word := by
  simp only [operandBehind, h]

theorem aftermath_of_stranded (h : m.Stranded) :
    m.Aftermath ⟨m.pc, none, .address m.pc⟩ { m with memory := m.memory.countRead } where
  running := ⟨h.1, h.1⟩
  pc_eq := rfl
  memory := .inl rfl
  call := fun hc => absurd h.2 hc.2.1
  instruction_eq_none_iff := ⟨fun _ => h.2, fun _ => rfl⟩
  unfetched := by
    refine fun _ => ⟨rfl, fun ops hops => ?_⟩
    have hs : Stranded { m with memory := m.memory.countRead } := h
    obtain ⟨hs', hpc⟩ := stranded_performAll hs hops
    have hstep := step_of_stranded hs'
    rw [hpc] at hstep
    exact ⟨_, hstep⟩
  fetched := fun hne => absurd rfl hne

/-- The instruction has been fetched, and has faulted before it stored anything. -/
theorem aftermath_of_unscathed (hh : m.halted = none) (hr : m.memory.mode.resolve m.pc ≠ none)
    (hcall : m.CallsAtLastCell → m.memory.mode.resolve (m.pc + 1) = none) {cause : FaultCause}
    (hu : m.fetched.Unscathed m') (he : m'.executed = m.executed + 1) :
    m.Aftermath ⟨m.pc, some (m.opcodeWord, m'.operandBehind m.pc m.opcodeWord), cause⟩ m' where
  running := ⟨hh, hu.halted.trans hh⟩
  pc_eq := rfl
  memory := .inl hu.cells
  call := fun hc => hu.cells.trans (if_pos (hcall hc)).symm
  instruction_eq_none_iff := ⟨fun h => absurd h (Option.some_ne_none _), fun h => absurd h hr⟩
  unfetched := fun h => absurd h (Option.some_ne_none _)
  fetched := by
    refine fun _ => ⟨he, ?_⟩
    have hpeek : m'.memory.peek (Word.ofRegister (m.pc + 1)) =
        m.memory.peek (Word.ofRegister (m.pc + 1)) :=
      congrArg (Bank.get · _) hu.cells
    rw [operandBehind_of_peek hpeek]

/-- The operand of a call lies behind the call, so it is not in the first cell of memory. -/
theorem operand_ne_zero (hc : m.CallsAtLastCell) (hr : m.memory.mode.resolve (m.pc + 1) ≠ none) :
    Word.ofRegister (m.pc + 1) ≠ 0 := by
  have hpc := hc.2.1
  rw [hc.1] at hpc hr
  have h₀ := (Ideal.inMemory_of_resolve hpc).1
  have h₁ := (Ideal.inMemory_of_resolve hpc).2
  have h₂ := (Ideal.inMemory_of_resolve hr).2
  have hs : (m.pc + 1).toInt = m.pc.toInt + 1 := Register.toInt_succ (by omega)
  have hw := Word.toNat_ofRegister (m.pc + 1)
  intro hzero
  rw [hzero, UInt16.toNat_zero] at hw
  omega

/-- The return address has gone into the first cell of memory, and the operand is as it was. -/
theorem aftermath_of_cramped (hh : m.halted = none) (hc : m.CallsAtLastCell)
    (hr : m.memory.mode.resolve (m.pc + 1) ≠ none) {cause : FaultCause}
    (hcells : m'.memory.cells = (m.memory.store 0 (Word.ofRegister (m.pc + 2))).cells)
    (hhalted : m'.halted = m.halted) (he : m'.executed = m.executed + 1) :
    m.Aftermath ⟨m.pc, some (m.opcodeWord, m'.operandBehind m.pc m.opcodeWord), cause⟩ m' where
  running := ⟨hh, hhalted.trans hh⟩
  pc_eq := rfl
  memory := .inr ⟨hc, hcells⟩
  call := fun _ => hcells.trans (if_neg hr).symm
  instruction_eq_none_iff := ⟨fun h => absurd h (Option.some_ne_none _), fun h => absurd h hc.2.1⟩
  unfetched := fun h => absurd h (Option.some_ne_none _)
  fetched := by
    refine fun _ => ⟨he, ?_⟩
    have hpeek : m'.memory.peek (Word.ofRegister (m.pc + 1)) =
        m.memory.peek (Word.ofRegister (m.pc + 1)) := by
      have hstore := Memory.peek_store m.memory 0 (Word.ofRegister (m.pc + 1))
        (Word.ofRegister (m.pc + 2))
      rw [if_neg (operand_ne_zero hc hr).symm] at hstore
      exact (congrArg (Bank.get · _) hcells).trans hstore
    rw [operandBehind_of_peek hpeek]

/-- A step that faults does no damage, and says truthfully which instruction it was about to
execute. -/
theorem faults_do_no_damage (h : m.step = .error fault m') : m.Aftermath fault m' := by
  have hh : m.halted = none := by
    cases hm : m.halted with
    | none => rfl
    | some result =>
        rw [step_of_halted hm] at h
        cases h
  suffices hstep : Meets step m (fun _ _ => True) m.Aftermath from hstep.of_error h
  refine (meets_step hh).mpr ⟨fun hr => ?_, fun hr => aftermath_of_stranded ⟨hh, hr⟩⟩
  unfold Meets
  cases hx : Action.ofWord m.opcodeWord m.fetched with
  | ok u m' => trivial
  | error cause m' =>
      have he := (Action.executed_ofWord m.opcodeWord m.fetched).of_error hx
      by_cases hop : m.opcodeWord = Opcode.call.code
      · by_cases hc : m.CallsAtLastCell ∧ m.memory.mode.resolve (m.pc + 1) ≠ none
        · have hcramped := Action.meets_call_cramped (m := m.fetched) hc.1.1 hc.1.2.2.2 hc.2
          rw [← Action.ofWord_call, ← hop] at hcramped
          obtain ⟨-, hcells, hhalted⟩ := hcramped.of_error hx
          refine aftermath_of_cramped hh hc.1 hc.2 ?_ hhalted he
          rw [← Register.succ_succ]
          exact hcells
        · have hcareful := Action.meets_call_careful (m := m.fetched)
            fun h => hc ⟨⟨h.1, hr, hop, h.2.1⟩, h.2.2⟩
          rw [← Action.ofWord_call, ← hop] at hcareful
          refine aftermath_of_unscathed hh hr (fun hlast => ?_) (hcareful.of_error hx) he
          exact not_not.mp fun h => hc ⟨hlast, h⟩
      · have hu := (Action.careful_ofWord hop m.fetched).of_error hx
        exact aftermath_of_unscathed hh hr (fun hc => absurd hc.2.2.1 hop) hu he

end Steps

/-- `call 9`, with one free cell for the two words of its frame. -/
def crampedCall : Machine :=
  { ((powerOn .hardened {}).perform (.load [6, 9])).2 with sp := 1 }

/-- The return address has overwritten the call, which is reported all the same. -/
theorem faults_do_no_damage_cramped_call :
    crampedCall.step =
      .error ⟨0, some (6, some 9), .stackOverflow 0⟩ (crampedCall.perform .step).2 ∧
    crampedCall.CallsAtLastCell ∧ (crampedCall.perform .step).2.memory.peek 0 = 2 ∧
    crampedCall.Aftermath ⟨0, some (6, some 9), .stackOverflow 0⟩
      (crampedCall.perform .step).2 := by
  have hstep : crampedCall.step =
      .error ⟨0, some (6, some 9), .stackOverflow 0⟩ (crampedCall.perform .step).2 := rfl
  exact ⟨hstep, ⟨rfl, by decide, rfl, rfl⟩, rfl, faults_do_no_damage hstep⟩

end Machine

end CoolMachine
