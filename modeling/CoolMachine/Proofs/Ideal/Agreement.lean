import CoolMachine.Proofs.Ideal.Machine
import CoolMachine.Proofs.Outcome
import CoolMachine.Proofs.Register.Arithmetic

/-! The hardened machine takes the steps of the machine over the integers as long as the frame
pointer stays far from the ends of its register: then no register operation of a step wraps. -/

namespace CoolMachine

namespace Ideal

theorem toNat_word (i : Int) : ((word i).toNat : Int) = i % 65536 := by
  have h : (i % 65536).toNat < 65536 := by omega
  rw [word, UInt16.toNat_ofNat_of_lt' h]
  omega

theorem word_toInt (r : Register) : word r.toInt = Word.ofRegister r := by
  apply UInt16.toNat_inj.mp
  have h₁ := toNat_word r.toInt
  have h₂ := Word.toNat_ofRegister r
  omega

theorem resolve_hardened (r : Register) :
    Mode.hardened.resolve r = if InMemory r.toInt then some (word r.toInt) else none := by
  have h : (0 ≤ r ∧ r < 65536) ↔ InMemory r.toInt := by
    rw [Int32.le_iff_toInt_le, Int32.lt_iff_toInt_lt]
    exact Iff.rfl
  simp only [Mode.resolve, h, word_toInt]

theorem inMemory_of_resolve {r : Register} (h : Mode.hardened.resolve r ≠ none) :
    InMemory r.toInt :=
  Decidable.of_not_not fun hr => h ((resolve_hardened r).trans (if_neg hr))

/-- A sum that lies in memory has not wrapped, if the displacement is that of a word. -/
theorem toInt_add_of_inMemory {a b : Register} (hl : -32768 ≤ b.toInt) (hu : b.toInt < 32768)
    (h : InMemory (a + b).toInt) : (a + b).toInt = a.toInt + b.toInt := by
  have hal := a.le_toInt
  have hau := a.toInt_lt
  obtain ⟨h₀, h₁⟩ := h
  rw [Int32.toInt_add] at h₀ h₁ ⊢
  simp only [Int.bmod] at h₀ h₁ ⊢
  split at h₀ <;> omega

/-- The selected cell is the one that the address names. -/
theorem toInt_of_resolve {r : Register} {cell : Word} (h : Mode.hardened.resolve r = some cell) :
    r.toInt = cell.toNat := by
  rw [resolve_hardened] at h
  by_cases hr : InMemory r.toInt
  · rw [if_pos hr, Option.some.injEq] at h
    have hw := toNat_word r.toInt
    obtain ⟨h₀, h₁⟩ := hr
    rw [← h]
    omega
  · simp [if_neg hr] at h

end Ideal

/-- The cause with its register read as an integer, for an access with the given purpose. -/
def FaultCause.ideal (purpose : Purpose) : FaultCause → Ideal.Cause
  | address a => .address purpose a.toInt
  | stackOverflow sp => .stackOverflow sp.toInt
  | stackUnderflow sp => .stackUnderflow sp.toInt
  | arithmetic => .arithmetic
  | illegalInstruction word => .illegalInstruction word
  | output error => .output error

def Fault.ideal (purpose : Purpose) (fault : Fault) : Ideal.Fault :=
  ⟨fault.pc.toInt, fault.instruction, fault.cause.ideal purpose⟩

/-- A hardened machine beside itself over the integers. -/
def Machine.Agrees (m : Machine) (e : Ideal) : Prop :=
  m.memory.mode = .hardened ∧ e = m.ideal

/-- The frame pointer is so far from the ends of its register that no displacement wraps. -/
def Machine.FrameSafe (m : Machine) : Prop :=
  -1000000000 ≤ m.fp.toInt ∧ m.fp.toInt ≤ 1000000000

/-- The two machines agree, and what an instruction does to its registers cannot wrap. -/
structure Machine.Ready (m : Machine) (e : Ideal) : Prop where
  agrees : m.Agrees e
  pc_le : m.pc.toInt ≤ 65536
  safe : m.FrameSafe

namespace Action

variable {α β : Type}

/-- Runs of the action are runs of its counterpart over the integers. -/
abbrev Matches (x : Action α) (y : Ideal.Action β)
    (after : α → β → Machine → Ideal → Prop) : Prop :=
  Simulates Machine.Ready x y after
    (fun c d m e => (∃ purpose, d = c.ideal purpose) ∧ m.Agrees e) fun _ => False

/-- The same result in machines that are still ready. -/
def Same (a b : α) (m : Machine) (e : Ideal) : Prop := a = b ∧ m.Ready e

theorem matches_bind {x : Action α} {y : Ideal.Action α} {f : α → Action β}
    {g : α → Ideal.Action β} {after : β → β → Machine → Ideal → Prop} (hx : Matches x y Same)
    (hf : ∀ a, Matches (f a) (g a) after) : Matches (x >>= f) (y >>= g) after := by
  refine simulates_bind hx fun a b => ?_
  intro m e h
  rcases h with ⟨rfl, hr⟩
  exact hf a m e hr

theorem matches_readCell (purpose : Purpose) (address : Register) :
    Matches (readCell address) (Ideal.read purpose address.toInt) Same := by
  intro m _ h
  rcases h with ⟨⟨hm, rfl⟩, hpc, hfp⟩
  simp only [readCell_apply, hm, Ideal.resolve_hardened, Ideal.read]
  by_cases h : Ideal.InMemory address.toInt
  · simp only [if_pos h]
    exact ⟨_, _, rfl, rfl, ⟨hm, rfl⟩, hpc, hfp⟩
  · simp only [if_neg h]
    exact .inr ⟨_, _, rfl, ⟨purpose, rfl⟩, hm, rfl⟩

theorem matches_writeCell (purpose : Purpose) (address : Register) (value : Word) :
    Matches (writeCell address value) (Ideal.write purpose address.toInt value) Same := by
  intro m _ h
  rcases h with ⟨⟨hm, rfl⟩, hpc, hfp⟩
  simp only [writeCell_apply, hm, Ideal.resolve_hardened, Ideal.write]
  by_cases h : Ideal.InMemory address.toInt
  · simp only [if_pos h]
    exact ⟨_, _, rfl, rfl, ⟨hm, rfl⟩, hpc, hfp⟩
  · simp only [if_neg h]
    exact .inr ⟨_, _, rfl, ⟨purpose, rfl⟩, hm, rfl⟩

theorem matches_print (text : List Char) : Matches (print text) (Ideal.print text) Same := by
  intro m _ h
  rcases h with ⟨⟨hm, rfl⟩, hpc, hfp⟩
  simp only [print, Ideal.print, Machine.ideal]
  cases Sink.write text m.out with
  | ok u out => exact ⟨(), _, rfl, rfl, ⟨hm, rfl⟩, hpc, hfp⟩
  | error error out => exact .inr ⟨_, _, rfl, ⟨.stack, rfl⟩, hm, rfl⟩

/-- A fetch reaches at most the end of memory, from wherever the program counter was. -/
theorem simulates_fetch (purpose : Purpose) :
    Simulates (fun m e => m.Agrees e ∧ m.FrameSafe) fetch (Ideal.fetch purpose) Same
      (fun c d m e => (∃ purpose, d = c.ideal purpose) ∧ m.Agrees e) fun _ => False := by
  intro m _ h
  rcases h with ⟨⟨hm, rfl⟩, hfp⟩
  simp only [fetch_apply, hm, Ideal.resolve_hardened, Ideal.fetch_apply]
  have hpc : m.ideal.pc = m.pc.toInt := rfl
  by_cases h : Ideal.InMemory m.pc.toInt
  · have hs : (m.pc + 1).toInt = m.pc.toInt + 1 := Register.toInt_succ (by have := h.2; omega)
    have hle : (m.pc + 1).toInt ≤ 65536 := by have := h.2; omega
    simp only [hpc, if_pos h]
    refine ⟨_, _, rfl, rfl, ⟨hm, ?_⟩, hle, hfp⟩
    simp only [Machine.ideal, hs]
  · simp only [hpc, if_neg h]
    exact .inr ⟨_, _, rfl, ⟨purpose, rfl⟩, hm, rfl⟩

theorem pc_lt_of_fetch {m m' : Machine} {word : Word} (hm : m.memory.mode = .hardened)
    (h : fetch m = .ok word m') : m.pc.toInt < 65536 := by
  rw [fetch_apply, hm, Ideal.resolve_hardened] at h
  by_cases hpc : Ideal.InMemory m.pc.toInt
  · exact hpc.2
  · simp [if_neg hpc] at h

theorem matches_fetch {purpose : Purpose} : Matches fetch (Ideal.fetch purpose) Same :=
  (simulates_fetch purpose).mono (fun _ _ h => ⟨h.agrees, h.safe⟩) fun _ _ _ _ h => h

theorem matches_push (value : Word) : Matches (push value) (Ideal.push value) Same := by
  intro m _ h
  rcases h with ⟨⟨hm, rfl⟩, hpc, hfp⟩
  have hc : (m.memory.mode = .hardened ∧ m.sp ≤ 0) ↔ m.ideal.sp ≤ 0 := by
    rw [Int32.le_iff_toInt_le]
    exact and_iff_right hm
  simp only [push_apply, Ideal.push_apply, hc]
  by_cases h : m.ideal.sp ≤ 0
  · simp only [if_pos h]
    exact .inr ⟨_, _, rfl, ⟨.stack, rfl⟩, hm, rfl⟩
  · have hs : (m.sp - 1).toInt = m.sp.toInt - 1 :=
      Register.toInt_pred (by have : ¬ m.sp.toInt ≤ 0 := h; omega)
    have he : ({ m with sp := m.sp - 1 } : Machine).ideal =
        { m.ideal with sp := m.ideal.sp - 1 } := by
      simp only [Machine.ideal, hs]
    simp only [if_neg h]
    have hw := matches_writeCell .stack (m.sp - 1) value { m with sp := m.sp - 1 } _
      ⟨⟨hm, he.symm⟩, hpc, hfp⟩
    rw [hs] at hw
    exact hw

/-- The top of the stack lies in memory. -/
theorem matches_top : Matches top Ideal.top
    fun a b m e => a = b ∧ m.Ready e ∧ m.sp.toInt < 65536 := by
  intro m _ h
  rcases h with ⟨⟨hm, rfl⟩, hpc, hfp⟩
  have hc : (m.memory.mode = .hardened ∧ 65536 ≤ m.sp) ↔ 65536 ≤ m.ideal.sp := by
    rw [Int32.le_iff_toInt_le]
    exact and_iff_right hm
  simp only [top_apply, Ideal.top_apply, hc]
  by_cases h : 65536 ≤ m.ideal.sp
  · simp only [if_pos h]
    exact .inr ⟨_, _, rfl, ⟨.stack, rfl⟩, hm, rfl⟩
  · simp only [if_neg h]
    have hsp : m.sp.toInt < 65536 := Int.not_le.mp h
    have hi : m.ideal.sp = m.sp.toInt := rfl
    simp only [readCell_apply, hm, Ideal.resolve_hardened, Ideal.read, hi]
    by_cases hr : Ideal.InMemory m.sp.toInt
    · simp only [if_pos hr]
      exact ⟨_, _, rfl, rfl, ⟨⟨hm, rfl⟩, hpc, hfp⟩, hsp⟩
    · simp only [if_neg hr]
      exact .inr ⟨_, _, rfl, ⟨.stack, rfl⟩, hm, rfl⟩

theorem matches_pop : Matches pop Ideal.pop Same := by
  refine simulates_bind matches_top fun a b => ?_
  intro m _ h
  rcases h with ⟨rfl, ⟨⟨hm, rfl⟩, hpc, hfp⟩, hsp⟩
  have hs : (m.sp + 1).toInt = m.sp.toInt + 1 := Register.toInt_succ (by omega)
  refine ⟨a, _, rfl, rfl, ⟨hm, ?_⟩, hpc, hfp⟩
  simp only [Machine.ideal, hs]

theorem matches_frameAddress : Matches frameAddress Ideal.frameAddress
    fun a b m e => b = a.toInt ∧ m.Ready e := by
  refine simulates_bind matches_fetch fun offset b => ?_
  intro m _ h
  rcases h with ⟨rfl, ⟨hm, rfl⟩, hpc, hfp⟩
  have ho : offset.offset.toInt = offset.signed.toInt := Word.toInt_offset offset
  have hl := offset.signed.le_toInt
  have hu := offset.signed.toInt_lt
  have hs : (m.fp + offset.offset).toInt = m.fp.toInt + offset.signed.toInt := by
    rw [← ho]
    obtain ⟨h₁, h₂⟩ := hfp
    exact Register.toInt_add (by omega) (by omega)
  exact ⟨_, _, rfl, hs.symm, ⟨hm, rfl⟩, hpc, hfp⟩

/-- An operation on words and the one without faults that stands for it. -/
theorem matches_combine {operation : Int16 → Int16 → Except FaultCause Int16}
    (value? : Int16 → Int16 → Option Int16)
    (h : ∀ left right, operation left right =
      match value? left right with
      | some value => .ok value
      | none => .error .arithmetic) :
    Matches (combine operation) (Ideal.combine value?) Same := by
  refine matches_bind matches_pop fun right => matches_bind matches_pop fun left => ?_
  rw [h]
  cases value? left.signed right.signed with
  | some value => exact matches_push _
  | none =>
      intro m e hr
      exact .inr ⟨_, e, rfl, ⟨.stack, rfl⟩, hr.agrees⟩

/-- What is left to do after the last access need not keep the machines ready. -/
abbrev Finishes (x : Action Unit) (y : Ideal.Action Unit) : Prop :=
  Matches x y fun _ _ m e => m.Agrees e

theorem Matches.finishes {x : Action Unit} {y : Ideal.Action Unit} (h : Matches x y Same) :
    Finishes x y :=
  h.mono (fun _ _ hr => hr) fun _ _ _ _ hs => hs.2.agrees

theorem matches_call : Finishes call Ideal.call := by
  refine matches_bind matches_fetch fun target => ?_
  refine simulates_bind simulates_get fun m₁ e₁ => ?_
  intro m e h
  rcases h with ⟨rfl, rfl, hr⟩
  have hpc : Ideal.word e₁.pc = Word.ofRegister m₁.pc := by
    rw [hr.agrees.2, ← Ideal.word_toInt]
    rfl
  rw [hpc]
  refine matches_bind (matches_push _) (fun _ => ?_) m₁ e₁ hr
  refine simulates_bind simulates_get fun m₂ e₂ => ?_
  intro m e h
  rcases h with ⟨rfl, rfl, hr⟩
  have hfp : Ideal.word e₂.fp = Word.ofRegister m₂.fp := by
    rw [hr.agrees.2, ← Ideal.word_toInt]
    rfl
  rw [hfp]
  refine matches_bind (matches_push _) (fun _ => ?_) m₂ e₂ hr
  refine simulates_modify ?_
  intro m _ h
  rcases h with ⟨⟨hm, rfl⟩, -, -⟩
  exact ⟨hm, by simp only [Machine.ideal, Word.toInt_address]⟩

theorem matches_ret : Finishes ret Ideal.ret := by
  -- Registers restored from memory are words, so the machines stay ready in between.
  refine simulates_bind matches_frameAddress fun slot b => ?_
  intro m e h
  rcases h with ⟨rfl, hr⟩
  refine matches_bind matches_pop (fun value => ?_) m e hr
  refine matches_bind (simulates_modify fun m e hr => ?_) fun _ => ?_
  · exact ⟨rfl, ⟨hr.agrees.1, by rw [hr.agrees.2]; rfl⟩, hr.pc_le, hr.safe⟩
  refine matches_bind matches_pop fun fp => ?_
  have hfp : fp.toNat < 65536 := fp.toNat_lt
  refine matches_bind (simulates_modify fun m e hr => ?_) fun _ => ?_
  · refine ⟨rfl, ⟨hr.agrees.1, ?_⟩, hr.pc_le, ?_⟩
    · simp only [hr.agrees.2, Machine.ideal, Word.toInt_address]
    · simp only [Machine.FrameSafe, Word.toInt_address]
      omega
  refine matches_bind matches_pop fun pc => ?_
  have hpc : pc.toNat < 65536 := pc.toNat_lt
  refine matches_bind (simulates_modify fun m e hr => ?_) fun _ => ?_
  · refine ⟨rfl, ⟨hr.agrees.1, ?_⟩, ?_, hr.safe⟩
    · simp only [hr.agrees.2, Machine.ideal, Word.toInt_address]
    · simp only [Word.toInt_address]
      omega
  exact (matches_writeCell .frame slot value).finishes

theorem matches_jumpIfZero : Finishes jumpIfZero Ideal.jumpIfZero := by
  refine matches_bind matches_pop fun word => ?_
  by_cases h : word = 0
  · rw [if_pos h, if_pos h]
    refine matches_bind matches_fetch fun target => simulates_modify fun m e hr => ?_
    exact ⟨hr.agrees.1, by simp only [hr.agrees.2, Machine.ideal, Word.toInt_address]⟩
  · rw [if_neg h, if_neg h]
    refine simulates_modify fun m e hr => ?_
    have hs : (m.pc + 1).toInt = m.pc.toInt + 1 :=
      Register.toInt_succ (by have := hr.pc_le; omega)
    exact ⟨hr.agrees.1, by simp only [hr.agrees.2, Machine.ideal, hs]⟩

theorem matches_halt : Finishes halt Ideal.halt := by
  refine simulates_bind matches_top fun a b => ?_
  intro m _ h
  rcases h with ⟨rfl, ⟨⟨hm, rfl⟩, -, -⟩, -⟩
  exact ⟨_, _, rfl, hm, rfl⟩

theorem matches_ofOpcode (op : Opcode) : Finishes (ofOpcode op) (Ideal.ofOpcode op) := by
  cases op with
  | halt => exact matches_halt
  | nop => exact simulates_pure fun _ _ hr => hr.agrees
  | prints => exact simulates_pure fun _ _ hr => hr.agrees
  | add => exact (matches_combine (fun left right => some (left + right)) fun _ _ => rfl).finishes
  | sub => exact (matches_combine (fun left right => some (left - right)) fun _ _ => rfl).finishes
  | mult => exact (matches_combine (fun left right => some (left * right)) fun _ _ => rfl).finishes
  | div =>
      refine (matches_combine Ideal.divide? fun left right => ?_).finishes
      simp only [divide, Ideal.divide?]
      split <;> rfl
  | call => exact matches_call
  | ret => exact matches_ret
  | jmp =>
      refine matches_bind matches_fetch fun target => simulates_modify fun m e hr => ?_
      exact ⟨hr.agrees.1, by simp only [hr.agrees.2, Machine.ideal, Word.toInt_address]⟩
  | jeq => exact matches_jumpIfZero
  | printi => exact (matches_bind matches_pop fun _ => matches_print _).finishes
  | pushc => exact (matches_bind matches_fetch matches_push).finishes
  | pusha =>
      refine Matches.finishes (matches_bind matches_fetch fun address => ?_)
      have hr := matches_readCell .absolute address.address
      rw [Word.toInt_address] at hr
      exact matches_bind hr matches_push
  | pushr =>
      refine simulates_bind matches_frameAddress fun address b => ?_
      intro m e h
      rcases h with ⟨rfl, hr⟩
      exact (matches_bind (matches_readCell .frame address) matches_push).finishes m e hr
  | popa =>
      refine Matches.finishes (matches_bind matches_fetch fun address => ?_)
      refine matches_bind matches_pop fun value => ?_
      have hw := matches_writeCell .absolute address.address value
      rwa [Word.toInt_address] at hw
  | popr =>
      refine simulates_bind matches_frameAddress fun address b => ?_
      intro m e h
      rcases h with ⟨rfl, hr⟩
      exact (matches_bind matches_pop (matches_writeCell .frame address)).finishes m e hr

theorem matches_ofWord (word : Word) : Finishes (ofWord word) (Ideal.ofWord word) := by
  rw [ofWord, Ideal.ofWord]
  cases Opcode.ofWord? word with
  | some op => exact matches_ofOpcode op
  | none =>
      intro m e hr
      simp only [bind, EStateM.bind, get_apply,
        if_pos hr.agrees.1]
      exact .inr ⟨_, e, rfl, ⟨.stack, rfl⟩, hr.agrees⟩

end Action

namespace Machine

theorem operandBehind_ideal (m : Machine) {pc : Register} (hpc : pc.toInt ≤ 65536) (word : Word) :
    m.ideal.operandBehind pc.toInt word = m.operandBehind pc word := by
  have hs : (pc + 1).toInt = pc.toInt + 1 := Register.toInt_succ (by omega)
  simp only [Ideal.operandBehind, operandBehind, Ideal.look, ← hs, Ideal.word_toInt]
  rfl

/-- A step of the hardened machine is the step of the machine over the integers: the same answer,
or the same fault with the same numbers in it, and the same registers and memory afterwards. -/
theorem simulates_ideal_step : Simulates (fun m e => m.Agrees e ∧ m.FrameSafe) step Ideal.step
    (fun a b m e => a = b ∧ m.Agrees e)
    (fun f g m e => (∃ purpose, g = f.ideal purpose) ∧ m.Agrees e) fun _ => False := by
  intro m e h
  rcases h with ⟨hm, hfp⟩
  have he : e.halted = m.halted := by rw [hm.2]; rfl
  have hepc : e.pc = m.pc.toInt := by rw [hm.2]; rfl
  simp only [step, Ideal.step, he, hepc]
  cases m.halted with
  | some result => exact ⟨_, _, rfl, rfl, hm⟩
  | none =>
      have hf := Action.simulates_fetch .instruction m e ⟨hm, hfp⟩
      cases hs : Action.fetch m with
      | error cause m₁ =>
          simp only [hs] at hf ⊢
          obtain ⟨_, e₁, ht, ⟨purpose, rfl⟩, hm₁⟩ := hf.resolve_left id
          exact .inr ⟨_, e₁, by rw [ht]; rfl, ⟨purpose, rfl⟩, hm₁⟩
      | ok word m₁ =>
          simp only [hs] at hf ⊢
          obtain ⟨_, e₁, ht, rfl, hr⟩ := hf
          have hpc := Action.pc_lt_of_fetch hm.1 hs
          have hw := Action.matches_ofWord word { m₁ with executed := m₁.executed + 1 }
            { e₁ with executed := e₁.executed + 1 }
            ⟨⟨hr.agrees.1, by rw [hr.agrees.2]; rfl⟩, hr.pc_le, hr.safe⟩
          rw [ht]
          cases hx : Action.ofWord word { m₁ with executed := m₁.executed + 1 } with
          | ok u m₂ =>
              simp only [hx] at hw ⊢
              obtain ⟨_, e₂, hy, hm₂⟩ := hw
              exact ⟨_, e₂, by rw [hy], by rw [hm₂.2]; rfl, hm₂⟩
          | error cause m₂ =>
              simp only [hx] at hw ⊢
              obtain ⟨_, e₂, hy, ⟨purpose, rfl⟩, hm₂⟩ := hw.resolve_left id
              refine .inr ⟨_, e₂, by rw [hy], ⟨purpose, ?_⟩, hm₂⟩
              simp only [Fault.ideal, hm₂.2, operandBehind_ideal m₂ (by omega : m.pc.toInt ≤ 65536)]

theorem meets_step_ideal {m : Machine} (hm : m.memory.mode = .hardened) (hfp : m.FrameSafe) :
    Meets step m
      (fun result m' => m'.memory.mode = .hardened ∧ Ideal.step m.ideal = .ok result m'.ideal)
      fun fault m' => m'.memory.mode = .hardened ∧
        ∃ purpose, Ideal.step m.ideal = .error (fault.ideal purpose) m'.ideal := by
  have h := simulates_ideal_step m m.ideal ⟨⟨hm, rfl⟩, hfp⟩
  unfold Meets
  cases hs : m.step with
  | ok result m' =>
      simp only [hs] at h
      obtain ⟨_, _, ht, rfl, hm', rfl⟩ := h
      exact ⟨hm', ht⟩
  | error fault m' =>
      simp only [hs] at h
      obtain ⟨_, _, ht, ⟨purpose, rfl⟩, hm', rfl⟩ := h.resolve_left id
      exact ⟨hm', purpose, ht⟩

end Machine

end CoolMachine
