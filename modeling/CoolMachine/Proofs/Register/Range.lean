import CoolMachine.Proofs.Ideal.Agreement
import CoolMachine.Proofs.Ideal.Outcome
import CoolMachine.Proofs.Machine.Operation

/-! How far the registers of the hardened machine can go. A fault can leave them half changed, so
one bound is kept by every step, whether it faults or not, and a narrower one for the stack pointer
by every step without a fault. The narrower one says which faults can come next. -/

namespace CoolMachine

namespace Ideal

/-- The bounds that no operation leaves. The stack pointer gets outside memory by a return whose
value does not fit in memory, and the program counter passes its end by a jump not taken. -/
structure InRange (e : Ideal) : Prop where
  pc_nonneg : 0 ≤ e.pc
  pc_le : e.pc ≤ 65537
  fp_nonneg : 0 ≤ e.fp
  fp_le : e.fp ≤ 65535
  le_sp : -32768 ≤ e.sp
  sp_le : e.sp ≤ 98302

/-- The stack ends at or below the end of memory. -/
structure Level (e : Ideal) : Prop where
  sp_nonneg : 0 ≤ e.sp
  sp_le : e.sp ≤ 65536

theorem inRange_iff (e : Ideal) : e.InRange ↔
    (0 ≤ e.pc ∧ e.pc ≤ 65537) ∧ (0 ≤ e.fp ∧ e.fp ≤ 65535) ∧ -32768 ≤ e.sp ∧ e.sp ≤ 98302 :=
  ⟨fun h => ⟨⟨h.pc_nonneg, h.pc_le⟩, ⟨h.fp_nonneg, h.fp_le⟩, h.le_sp, h.sp_le⟩,
    fun ⟨hpc, hfp, hsp⟩ => ⟨hpc.1, hpc.2, hfp.1, hfp.2, hsp.1, hsp.2⟩⟩

theorem level_iff (e : Ideal) : e.Level ↔ 0 ≤ e.sp ∧ e.sp ≤ 65536 :=
  ⟨fun h => ⟨h.sp_nonneg, h.sp_le⟩, fun h => ⟨h.1, h.2⟩⟩

/-- The bounds are about the registers alone. -/
theorem InRange.of_registers {e e' : Ideal} (he : e.InRange) (hpc : e'.pc = e.pc)
    (hfp : e'.fp = e.fp) (hsp : e'.sp = e.sp) : e'.InRange := by
  rw [inRange_iff] at he ⊢
  rwa [hpc, hfp, hsp]

/-- The faults that an instruction can raise while the stack is level, where `e` is the machine
behind the fetch of the opcode and `e'` the machine that the fault leaves. -/
def Raised (op : Opcode) (e : Ideal) (e' : Ideal) : Cause → Prop
  | .address .operand address => op.takesOperand ∧ address = e.pc
  | .address .frame address =>
    op ∈ [.ret, .pushr, .popr] ∧ address = e.fp + (e.look e.pc).signed.toInt ∧
      e'.look e.pc = e.look e.pc
  | .address .instruction _ | .address .absolute _ | .address .stack _ => False
  | .stackOverflow sp => sp = 0
  | .stackUnderflow sp => sp = 65536
  | .arithmetic | .illegalInstruction _ | .output _ => True

/-- The instruction keeps both bounds, and a level stack limits its faults. -/
def Keeps (e : Ideal) (x : Action Unit) (op : Opcode) : Prop :=
  Meets x e (fun _ e' => e'.InRange ∧ (e.Level → e'.Level))
    fun cause e' => e'.InRange ∧ (e.Level → Raised op e e' cause)

section Instructions

variable {e : Ideal}

theorem keeps_combine (he : e.InRange) (operation : Int16 → Int16 → Option Int16) (op : Opcode) :
    e.Keeps (combine operation) op := by
  rw [inRange_iff] at he
  simp only [Keeps, combine, meets_bind, meets_pop, meets_top, meets_read]
  generalize operation _ _ = value?
  cases value? with
  | some value =>
      simp only [meets_push, meets_write, inRange_iff, level_iff, Raised, InMemory]
      omega
  | none =>
      simp only [meets_throw, inRange_iff, level_iff, Raised, InMemory, implies_true, and_true]
      omega

theorem keeps_call (he : e.InRange) (hpc : e.pc ≤ 65536) : e.Keeps call .call := by
  have ht : Opcode.call.takesOperand := rfl
  have htarget := (e.look e.pc).toNat_lt
  rw [inRange_iff] at he
  simp only [Keeps, call, meets_bind, meets_fetch, meets_get, meets_push, meets_write,
    meets_modify, inRange_iff, level_iff, Raised, InMemory, ht, and_true, implies_true]
  omega

theorem keeps_ret (he : e.InRange) (hpc : e.pc ≤ 65536) : e.Keeps ret .ret := by
  have ht : Opcode.ret.takesOperand := rfl
  have hl := (e.look e.pc).signed.le_toInt
  have hu := (e.look e.pc).signed.toInt_lt
  have hfp := (e.look e.fp).toNat_lt
  have hreturn := (e.look (e.fp + 1)).toNat_lt
  rw [inRange_iff] at he
  simp only [look] at hl hu hfp hreturn
  simp only [Keeps, ret, meets_bind, meets_frameAddress, meets_fetch, meets_pop, meets_top,
    meets_read, meets_modify, meets_write, inRange_iff, level_iff, Raised, InMemory, look,
    Memory.peek_countRead, Memory.peek_countWrite, ht, List.mem_cons, true_or, true_and, and_true,
    implies_true]
  omega

theorem keeps_jumpIfZero (he : e.InRange) (hpc : e.pc ≤ 65536) : e.Keeps jumpIfZero .jeq := by
  have ht : Opcode.jeq.takesOperand := rfl
  have htarget := (e.look e.pc).toNat_lt
  rw [inRange_iff] at he
  simp only [Keeps, jumpIfZero, meets_bind, meets_pop, meets_top, meets_read, meets_ite]
  by_cases hz : e.look e.sp = 0
  · have hlook : Ideal.look { e with sp := e.sp + 1, memory := e.memory.countRead } e.pc =
        e.look e.pc := rfl
    simp only [if_pos hz, meets_fetch, meets_modify, inRange_iff, level_iff, Raised, InMemory,
      hlook, ht, and_true, implies_true]
    omega
  · simp only [if_neg hz, meets_modify, inRange_iff, level_iff, Raised, InMemory]
    omega

theorem keeps_halt (he : e.InRange) : e.Keeps halt .halt := by
  rw [inRange_iff] at he
  simp only [Keeps, halt, meets_bind, meets_top, meets_read, meets_modify, inRange_iff, level_iff,
    Raised, InMemory]
  omega

/-- Whether the stream takes the text or not, the value has been popped. -/
theorem keeps_printi (he : e.InRange) : e.Keeps (ofOpcode .printi) .printi := by
  rw [inRange_iff] at he
  simp only [Keeps, ofOpcode, meets_bind, meets_pop, meets_top, meets_read, meets_print]
  generalize Decimal.ofInt _ = text
  unfold Meets
  cases Sink.write text e.out with
  | ok _ out =>
      simp only [inRange_iff, level_iff, Raised, InMemory]
      omega
  | error error out =>
      simp only [inRange_iff, level_iff, Raised, InMemory, implies_true, and_true]
      omega

theorem keeps_ofOpcode (he : e.InRange) (hpc : e.pc ≤ 65536) (op : Opcode) :
    e.Keeps (ofOpcode op) op := by
  have hoperand := (e.look e.pc).toNat_lt
  have hi := (inRange_iff e).mp he
  cases op with
  | halt => exact keeps_halt he
  | nop => exact ⟨he, id⟩
  | prints => exact ⟨he, id⟩
  | add => exact keeps_combine he (fun left right => some (left + right)) .add
  | sub => exact keeps_combine he (fun left right => some (left - right)) .sub
  | mult => exact keeps_combine he (fun left right => some (left * right)) .mult
  | div => exact keeps_combine he divide? .div
  | call => exact keeps_call he hpc
  | ret => exact keeps_ret he hpc
  | jmp =>
      have ht : Opcode.jmp.takesOperand := rfl
      simp only [Keeps, ofOpcode, meets_bind, meets_fetch, meets_modify, inRange_iff, level_iff,
        Raised, InMemory, ht, and_true, implies_true]
      omega
  | jeq => exact keeps_jumpIfZero he hpc
  | printi => exact keeps_printi he
  | pushc =>
      have ht : Opcode.pushc.takesOperand := rfl
      simp only [Keeps, ofOpcode, meets_bind, meets_fetch, meets_push, meets_write, inRange_iff,
        level_iff, Raised, InMemory, ht, and_true, implies_true]
      omega
  | pusha =>
      have ht : Opcode.pusha.takesOperand := rfl
      simp only [Keeps, ofOpcode, meets_bind, meets_fetch, meets_read, meets_push, meets_write,
        inRange_iff, level_iff, Raised, InMemory, ht, and_true, implies_true]
      omega
  | pushr =>
      have ht : Opcode.pushr.takesOperand := rfl
      simp only [Keeps, ofOpcode, meets_bind, meets_frameAddress, meets_fetch, meets_read,
        meets_push, meets_write, inRange_iff, level_iff, Raised, InMemory, look,
        Memory.peek_countRead, ht, List.mem_cons, true_or, or_true, true_and, and_true,
        implies_true]
      omega
  | popa =>
      have ht : Opcode.popa.takesOperand := rfl
      simp only [Keeps, ofOpcode, meets_bind, meets_fetch, meets_pop, meets_top, meets_read,
        meets_write, inRange_iff, level_iff, Raised, InMemory, ht, and_true, implies_true]
      omega
  | popr =>
      have ht : Opcode.popr.takesOperand := rfl
      simp only [Keeps, ofOpcode, meets_bind, meets_frameAddress, meets_fetch, meets_pop, meets_top,
        meets_read, meets_write, inRange_iff, level_iff, Raised, InMemory, look,
        Memory.peek_countRead, Memory.peek_countWrite, ht, List.mem_cons, true_or, or_true,
        true_and, and_true, implies_true]
      omega

end Instructions

/-! ### Steps -/

/-- The faults of a step from a level stack: what they report and where they come from. An access
to the stack, and one to a cell named by its address, never leaves memory. -/
def Expected (e : Ideal) (fault : Fault) : Prop :=
  fault.pc = e.pc ∧
  match fault.cause with
  | .address .instruction address => fault.instruction = none ∧ address = e.pc
  | .address .operand address =>
    (∃ op operand, fault.instruction = some (Opcode.code op, some operand)) ∧ address = e.pc + 1
  | .address .frame address =>
    ∃ op ∈ [Opcode.ret, .pushr, .popr], ∃ offset,
      fault.instruction = some (op.code, some offset) ∧ address = e.fp + offset.signed.toInt
  | .address .absolute _ | .address .stack _ => False
  | .stackOverflow sp => sp = 0
  | .stackUnderflow sp => sp = 65536
  | .arithmetic | .illegalInstruction _ | .output _ => True

theorem operandBehind_code (e : Ideal) (pc : Int) {op : Opcode} (h : op.takesOperand) :
    e.operandBehind pc op.code = some (e.look (pc + 1)) := by
  simp only [operandBehind, Opcode.ofWord?_code, h, if_true]

theorem expected_of_raised {e e' : Ideal} {op : Opcode} {cause : Cause}
    (h : Raised op e.fetched e' cause) :
    e.Expected ⟨e.pc, some (op.code, e'.operandBehind e.pc op.code), cause⟩ := by
  refine ⟨rfl, ?_⟩
  cases cause with
  | address purpose address =>
      cases purpose with
      | operand => exact ⟨⟨op, _, by rw [operandBehind_code _ _ h.1]⟩, h.2⟩
      | frame =>
          obtain ⟨hop, haddress, hlook⟩ := h
          have ht : op.takesOperand := by
            simp only [List.mem_cons, List.not_mem_nil, or_false] at hop
            rcases hop with rfl | rfl | rfl <;> rfl
          refine ⟨op, hop, e.look (e.pc + 1), ?_, haddress⟩
          rw [operandBehind_code _ _ ht]
          exact congrArg (fun operand => some (op.code, some operand)) hlook
      | instruction => exact h.elim
      | absolute => exact h
      | stack => exact h
  | stackOverflow sp => exact h
  | stackUnderflow sp => exact h
  | arithmetic => trivial
  | illegalInstruction word => trivial
  | output error => trivial

theorem inRange_fetched {e : Ideal} (he : e.InRange) (hpc : InMemory e.pc) :
    e.fetched.InRange := by
  obtain ⟨h₀, h₁⟩ := hpc
  exact ⟨Int.le_add_one h₀, by simp only [fetched]; omega, he.fp_nonneg, he.fp_le, he.le_sp,
    he.sp_le⟩

theorem step_keeps {e : Ideal} (he : e.InRange) :
    Meets step e (fun _ e' => e'.InRange ∧ (e.Level → e'.Level))
      fun fault e' => e'.InRange ∧ (e.Level → e.Expected fault) := by
  -- Behind the fetch of the opcode the program counter is at most 65536, so it can move once more.
  cases hh : e.halted with
  | some result => exact (meets_step_of_halted hh).mpr ⟨he, id⟩
  | none =>
      refine (meets_step hh).mpr ⟨fun hpc => ?_, fun _ => ?_⟩
      · have he₁ := inRange_fetched he hpc
        rw [ofWord]
        cases hop : Opcode.ofWord? (e.look e.pc) with
        | none => exact ⟨he₁, fun _ => ⟨rfl, trivial⟩⟩
        | some op =>
            rw [Opcode.ofWord?_eq_some_iff.mp hop]
            have hpc₁ : e.fetched.pc ≤ 65536 := Int.add_one_le_of_lt hpc.2
            have hlevel : e.Level → e.fetched.Level := fun hl => ⟨hl.sp_nonneg, hl.sp_le⟩
            refine (keeps_ofOpcode he₁ hpc₁ op).mono (fun _ e' h => ?_) fun cause e' h => ?_
            · exact ⟨h.1, fun hl => h.2 (hlevel hl)⟩
            · exact ⟨h.1, fun hl => expected_of_raised (h.2 (hlevel hl))⟩
      · exact ⟨he.of_registers rfl rfl rfl, fun _ => ⟨rfl, rfl, rfl⟩⟩

end Ideal

/-! ### Operations -/

namespace Machine

/-- A hardened machine whose registers are in range. -/
structure Bounded (m : Machine) : Prop where
  hardened : m.memory.mode = .hardened
  range : m.ideal.InRange

theorem Bounded.frameSafe {m : Machine} (h : m.Bounded) : m.FrameSafe := by
  have h₀ : 0 ≤ m.fp.toInt := h.range.fp_nonneg
  have h₁ : m.fp.toInt ≤ 65535 := h.range.fp_le
  exact ⟨by omega, by omega⟩

theorem bounded_powerOn (out : Sink Char) : (powerOn .hardened out).Bounded := by
  have h : ∀ e : Ideal, e.pc = 0 → e.fp = 0 → e.sp = 65536 → e.InRange := fun e hpc hfp hsp =>
    (Ideal.inRange_iff e).mpr (by omega)
  exact ⟨rfl, h _ rfl rfl rfl⟩

theorem level_powerOn (mode : Mode) (out : Sink Char) : (powerOn mode out).ideal.Level := by
  have h : (powerOn mode out).ideal.sp = 65536 := rfl
  exact ⟨by omega, by omega⟩

theorem Bounded.meets_step {m : Machine} (h : m.Bounded) :
    Meets step m
      (fun result m' => m'.Bounded ∧ Ideal.step m.ideal = .ok result m'.ideal ∧
        (m.ideal.Level → m'.ideal.Level))
      fun fault m' => m'.Bounded ∧ ∃ purpose,
        Ideal.step m.ideal = .error (fault.ideal purpose) m'.ideal ∧
          (m.ideal.Level → m.ideal.Expected (fault.ideal purpose)) := by
  have hk := Ideal.step_keeps h.range
  refine (meets_step_ideal h.hardened h.frameSafe).mono ?_ ?_
  · intro result m' h
    rcases h with ⟨hm, hs⟩
    obtain ⟨hr, hl⟩ := hk.of_ok hs
    exact ⟨⟨hm, hr⟩, hs, hl⟩
  · intro fault m' h
    rcases h with ⟨hm, purpose, hs⟩
    obtain ⟨hr, he⟩ := hk.of_error hs
    exact ⟨⟨hm, hr⟩, purpose, hs, he⟩

theorem simulates_step_ideal : Simulates (fun m e => Bounded m ∧ e = m.ideal) step Ideal.step
    (fun a b m e => a = b ∧ Bounded m ∧ e = m.ideal)
    (fun f g m e => (∃ purpose, g = f.ideal purpose) ∧ Bounded m ∧ e = m.ideal)
    fun _ => False := by
  intro m _ h
  rcases h with ⟨hb, rfl⟩
  have h := hb.meets_step
  unfold Meets at h
  cases hs : m.step with
  | ok result m' =>
      rw [hs] at h
      exact ⟨result, _, h.2.1, rfl, h.1, rfl⟩
  | error fault m' =>
      rw [hs] at h
      obtain ⟨hb', purpose, hi, -⟩ := h
      exact .inr ⟨_, _, hi, ⟨purpose, rfl⟩, hb', rfl⟩

/-- A run to the end is the run of the machine over the integers. -/
theorem Bounded.meets_runToHalt_ideal {m : Machine} (h : m.Bounded) :
    Meets runToHalt m
      (fun result m' => Run.untilResult Ideal.step Run.endless m.ideal = .ok result m'.ideal)
      fun fault m' => ∃ purpose,
        Run.untilResult Ideal.step Run.endless m.ideal = .error (fault.ideal purpose) m'.ideal := by
  have hrun := simulates_untilResult simulates_step_ideal Run.endless m m.ideal ⟨h, rfl⟩
  unfold Meets runToHalt
  cases hs : Run.untilResult step Run.endless m with
  | ok result m' =>
      rw [hs] at hrun
      obtain ⟨_, _, hi, rfl, -, rfl⟩ := hrun
      exact hi
  | error fault m' =>
      rw [hs] at hrun
      obtain ⟨_, _, hi, ⟨purpose, rfl⟩, -, rfl⟩ := hrun.resolve_left id
      exact ⟨purpose, hi⟩

theorem Bounded.load {m m' : Machine} {image : List Word} (h : m.Bounded)
    (hl : m.load image = .ok m') : m'.Bounded := by
  obtain ⟨memory, hmem, rfl⟩ := load_eq_ok hl
  exact ⟨(Memory.mode_load hmem).trans h.hardened, h.range.of_registers rfl rfl rfl⟩

theorem Bounded.reset {m : Machine} (h : m.Bounded) : m.reset.Bounded := by
  rw [Machine.reset, h.hardened]
  exact bounded_powerOn m.out

theorem Bounded.attach {m : Machine} (h : m.Bounded) (out : Sink Char) :
    Bounded { m with out } :=
  ⟨h.hardened, h.range.of_registers rfl rfl rfl⟩

theorem Bounded.perform {m : Machine} (h : m.Bounded) (op : Operation) :
    (m.perform op).2.Bounded := by
  refine (keeps_perform (fun _ _ _ hm => hm.load) (fun _ hm => hm.reset)
    (fun _ out hm => hm.attach out) (fun m hm => ?_) h op).same
  exact hm.meets_step.mono (fun _ _ h => h.1) fun _ _ h => h.1

theorem Reachable.bounded {m : Machine} (h : Reachable .hardened m) : m.Bounded := by
  induction h with
  | powerOn out => exact bounded_powerOn out
  | perform op _ ih => exact ih.perform op

theorem level_of_perform {m : Machine} (hb : m.Bounded) (hl : m.ideal.Level) {op : Operation}
    (hn : (m.perform op).1 = none) : (m.perform op).2.ideal.Level := by
  refine (Operation.Keeps.of_none (keeps_perform (I := fun m => m.Bounded ∧ m.ideal.Level)
    (F := fun _ _ => True) ?_ ?_ ?_ ?_ ⟨hb, hl⟩ op) hn).2
  · intro m m' image hm hload
    refine ⟨hm.1.load hload, ?_⟩
    obtain ⟨memory, _, rfl⟩ := load_eq_ok hload
    exact ⟨hm.2.sp_nonneg, hm.2.sp_le⟩
  · exact fun m hm => ⟨hm.1.reset, level_powerOn m.memory.mode m.out⟩
  · exact fun m out hm => ⟨hm.1.attach out, hm.2.sp_nonneg, hm.2.sp_le⟩
  · intro m hm
    exact hm.1.meets_step.mono (fun _ _ h => ⟨h.1, h.2.2 hm.2⟩) fun _ _ _ => trivial

theorem Undisturbed.level {m : Machine} (h : Undisturbed .hardened m) : m.ideal.Level := by
  induction h with
  | powerOn out => exact level_powerOn .hardened out
  | @reset m _ => exact level_powerOn m.memory.mode m.out
  | perform op hm hn ih => exact level_of_perform hm.reachable.bounded ih hn

/-- The registers of the hardened machine stay in range whatever is done to it, so its steps are
those of the machine over the integers and an access selects the very cell that its address names.
Without a fault since power on or the last reset the stack is level, and the next fault is one of
those expected then. -/
theorem registers_in_range :
    (∀ m, Reachable .hardened m → m.ideal.InRange ∧
      (∀ address cell, m.memory.mode.resolve address = some cell → address.toInt = cell.toNat) ∧
      Meets step m (fun result m' => Ideal.step m.ideal = .ok result m'.ideal)
        fun fault m' => ∃ purpose,
          Ideal.step m.ideal = .error (fault.ideal purpose) m'.ideal) ∧
    ∀ m, Undisturbed .hardened m → m.ideal.Level ∧
      ∀ op fault, (m.perform op).1 = some fault →
        ∃ before purpose, Undisturbed .hardened before ∧
          before.step = .error fault (m.perform op).2 ∧
          Ideal.step before.ideal = .error (fault.ideal purpose) (m.perform op).2.ideal ∧
          before.ideal.Expected (fault.ideal purpose) := by
  constructor
  · intro m hm
    have hb := hm.bounded
    refine ⟨hb.range, fun address cell hr => ?_, ?_⟩
    · rw [hb.hardened] at hr
      exact Ideal.toInt_of_resolve hr
    · exact (meets_step_ideal hb.hardened hb.frameSafe).mono (fun _ _ h => h.2) fun _ _ h => h.2
  · intro m hm
    refine ⟨hm.level, fun op fault hf => ?_⟩
    obtain ⟨before, hbefore, hs⟩ := hm.step_of_fault hf
    obtain ⟨_, purpose, hi, he⟩ := hbefore.reachable.bounded.meets_step.of_error hs
    exact ⟨before, purpose, hbefore, hs, hi, he hbefore.level⟩

/-- A return at -32768 from the outermost frame leaves the stack pointer at the lower bound. -/
def beforeWildReturn : Machine :=
  ((((powerOn .hardened {}).perform (.load [12, 5, 7, 0x8000])).2).perform .step).2

theorem registers_in_range_wild_return :
    Reachable .hardened (beforeWildReturn.perform .step).2 ∧
    (beforeWildReturn.perform .step).2.ideal.sp = -32768 ∧
    (beforeWildReturn.perform .step).2.ideal.InRange ∧
    Undisturbed .hardened beforeWildReturn ∧
    (beforeWildReturn.perform .step).1 = some ⟨2, some (7, some 0x8000), .address (-32768)⟩ ∧
    ∃ before purpose, Undisturbed .hardened before ∧
      before.step = .error ⟨2, some (7, some 0x8000), .address (-32768)⟩
        (beforeWildReturn.perform .step).2 ∧
      before.ideal.Expected
        (Fault.ideal purpose ⟨2, some (7, some 0x8000), .address (-32768)⟩) := by
  have hu : Undisturbed .hardened beforeWildReturn :=
    .perform .step (.perform (.load [12, 5, 7, 0x8000]) (.powerOn {}) rfl) rfl
  have hr : Reachable .hardened (beforeWildReturn.perform .step).2 := .perform .step hu.reachable
  have hf : (beforeWildReturn.perform .step).1 =
      some ⟨2, some (7, some 0x8000), .address (-32768)⟩ := rfl
  obtain ⟨before, purpose, hb, hs, -, he⟩ :=
    (registers_in_range.2 beforeWildReturn hu).2 .step _ hf
  exact ⟨hr, rfl, (registers_in_range.1 _ hr).1, hu, hf, before, purpose, hb, hs, he⟩

end Machine

end CoolMachine
