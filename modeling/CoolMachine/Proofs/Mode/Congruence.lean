import CoolMachine.Proofs.Machine.History
import CoolMachine.Proofs.Machine.Operation
import CoolMachine.Proofs.Register.Arithmetic
import CoolMachine.Proofs.Traffic.Charge

/-! The compatible machine is a machine of sixteen bits. Its registers are wider than that and
nothing holds them in range, but only their low halves ever show: machines that differ by multiples
of 65536 in their registers go through every sequence of operations side by side. -/

namespace CoolMachine

/-! ### Congruent machines -/

/-- The registers differ by a multiple of 65536. -/
def Register.Congruent (a b : Register) : Prop := a.toInt % 65536 = b.toInt % 65536

instance (a b : Register) : Decidable (Register.Congruent a b) :=
  inferInstanceAs (Decidable (_ = _))

theorem Register.congruent_iff {a b : Register} :
    a.Congruent b ↔ Word.ofRegister a = Word.ofRegister b :=
  (Word.ofRegister_eq_iff a b).symm

section Registers

variable {a b : Register}

theorem Register.Congruent.refl (a : Register) : a.Congruent a := Eq.refl _

theorem Register.Congruent.add (h : a.Congruent b) (c : Register) : (a + c).Congruent (b + c) := by
  rw [congruent_iff] at h ⊢
  rw [Word.ofRegister_add, Word.ofRegister_add, h]

theorem Register.Congruent.sub (h : a.Congruent b) (c : Register) : (a - c).Congruent (b - c) := by
  rw [congruent_iff] at h ⊢
  rw [Word.ofRegister_sub, Word.ofRegister_sub, h]

end Registers

/-- Compatible machines that differ in multiples of 65536 in their registers and in what their
counters have counted. -/
structure Machine.Congruent (m n : Machine) : Prop where
  compatible_left : m.memory.mode = .compatible
  compatible_right : n.memory.mode = .compatible
  pc : Register.Congruent m.pc n.pc
  sp : Register.Congruent m.sp n.sp
  fp : Register.Congruent m.fp n.fp
  cells : m.memory.cells = n.memory.cells
  halted : m.halted = n.halted
  out : m.out = n.out

/-- The counters have gone up by so many instructions and so much traffic. -/
def Machine.Counted (before after : Machine) (instructions : Nat) (charge : Charge) : Prop :=
  after.executed = before.executed + instructions ∧
    after.memory.traffic = before.memory.traffic.charged charge

/-- From `m₀` and `n₀` the machines have come to congruent ones, and their counters have gone up
alike. -/
structure Machine.Abreast (m₀ n₀ m n : Machine) : Prop where
  congruent : m.Congruent n
  counted : ∃ instructions charge,
    m₀.Counted m instructions charge ∧ n₀.Counted n instructions charge

namespace Machine

variable {m₀ n₀ m n : Machine}

theorem Congruent.ne_hardened_left (h : m.Congruent n) : m.memory.mode ≠ .hardened := by
  rw [h.compatible_left]
  decide

theorem Congruent.ne_hardened_right (h : m.Congruent n) : n.memory.mode ≠ .hardened := by
  rw [h.compatible_right]
  decide

theorem Congruent.abreast (h : m.Congruent n) : m.Abreast n m n :=
  ⟨h, 0, 0, ⟨rfl, rfl⟩, ⟨rfl, rfl⟩⟩

theorem Abreast.countRead (h : m₀.Abreast n₀ m n) :
    m₀.Abreast n₀ { m with memory := m.memory.countRead }
      { n with memory := n.memory.countRead } := by
  obtain ⟨hc, i, c, hm, hn⟩ := h
  refine ⟨{ hc with }, i, c + (1, 0), ⟨hm.1, ?_⟩, ⟨hn.1, ?_⟩⟩
  · rw [Traffic.charged_add, ← hm.2]
    rfl
  · rw [Traffic.charged_add, ← hn.2]
    rfl

theorem Abreast.store (h : m₀.Abreast n₀ m n) (cell value : Word) :
    m₀.Abreast n₀ { m with memory := m.memory.countWrite.store cell value }
      { n with memory := n.memory.countWrite.store cell value } := by
  obtain ⟨hc, i, c, hm, hn⟩ := h
  have hcells : m.memory.cells.set cell.toNat value = n.memory.cells.set cell.toNat value := by
    rw [hc.cells]
  refine ⟨{ hc with cells := hcells }, i, c + (0, 1), ⟨hm.1, ?_⟩, ⟨hn.1, ?_⟩⟩
  · rw [Traffic.charged_add, ← hm.2]
    rfl
  · rw [Traffic.charged_add, ← hn.2]
    rfl

theorem Abreast.executed (h : m₀.Abreast n₀ m n) :
    m₀.Abreast n₀ { m with executed := m.executed + 1 } { n with executed := n.executed + 1 } := by
  obtain ⟨hc, i, c, hm, hn⟩ := h
  refine ⟨{ hc with }, i + 1, c, ⟨?_, hm.2⟩, ⟨?_, hn.2⟩⟩
  · rw [← Nat.add_assoc, ← hm.1]
  · rw [← Nat.add_assoc, ← hn.1]

end Machine

/-! ### Actions -/

namespace Action

variable {α β : Type} {m₀ n₀ : Machine}

/-- On machines abreast the actions do the same and leave them abreast. -/
def Tracks (m₀ n₀ : Machine) (x y : Action α) : Prop :=
  Simulates (m₀.Abreast n₀) x y (fun a b m n => a = b ∧ m₀.Abreast n₀ m n)
    (fun c d m n => c = d ∧ m₀.Abreast n₀ m n) fun _ => False

theorem tracks_pure (a : α) : Tracks m₀ n₀ (pure a) (pure a) :=
  simulates_pure fun _ _ h => ⟨rfl, h⟩

theorem tracks_throw (cause : FaultCause) :
    Tracks m₀ n₀ (throw cause : Action α) (throw cause) :=
  fun _ n h => .inr ⟨cause, n, rfl, rfl, h⟩

theorem tracks_bind {x y : Action α} {f g : α → Action β} (hx : Tracks m₀ n₀ x y)
    (hf : ∀ a, Tracks m₀ n₀ (f a) (g a)) : Tracks m₀ n₀ (x >>= f) (y >>= g) := by
  refine simulates_bind hx fun a b => ?_
  intro m n h
  rcases h with ⟨rfl, h⟩
  exact hf a m n h

theorem tracks_get_bind {f g : Machine → Action α}
    (h : ∀ m n, m₀.Abreast n₀ m n → Tracks m₀ n₀ (f m) (g n)) :
    Tracks m₀ n₀ (get >>= f) (get >>= g) :=
  fun m n hm => h m n hm m n hm

theorem tracks_modify {f g : Machine → Machine}
    (h : ∀ m n, m₀.Abreast n₀ m n → m₀.Abreast n₀ (f m) (g n)) :
    Tracks m₀ n₀ (modify f) (modify g) :=
  simulates_modify fun m n hm => ⟨rfl, h m n hm⟩

/-! ### Accesses -/

theorem readCell_compatible {m : Machine} (h : m.memory.mode = .compatible) (address : Register) :
    readCell address m = .ok (m.memory.peek (Word.ofRegister address))
      { m with memory := m.memory.countRead } := by
  rw [readCell_apply, h]
  rfl

theorem writeCell_compatible {m : Machine} (h : m.memory.mode = .compatible) (address : Register)
    (value : Word) : writeCell address value m =
      .ok () { m with memory := m.memory.countWrite.store (Word.ofRegister address) value } := by
  rw [writeCell_apply, h]
  rfl

theorem tracks_readCell {a b : Register} (h : Register.Congruent a b) :
    Tracks m₀ n₀ (readCell a) (readCell b) := by
  intro m n hm
  have hpeek : m.memory.peek (Word.ofRegister a) = n.memory.peek (Word.ofRegister b) := by
    rw [Register.congruent_iff.mp h, Memory.peek, Memory.peek, hm.congruent.cells]
  rw [readCell_compatible hm.congruent.compatible_left]
  exact ⟨_, _, readCell_compatible hm.congruent.compatible_right b, hpeek, hm.countRead⟩

theorem tracks_writeCell {a b : Register} (h : Register.Congruent a b) (value : Word) :
    Tracks m₀ n₀ (writeCell a value) (writeCell b value) := by
  intro m n hm
  rw [writeCell_compatible hm.congruent.compatible_left, Register.congruent_iff.mp h]
  exact ⟨_, _, writeCell_compatible hm.congruent.compatible_right b value, rfl,
    hm.store (Word.ofRegister b) value⟩

theorem tracks_print (text : List Char) : Tracks m₀ n₀ (print text) (print text) := by
  intro m n hm
  simp only [print, hm.congruent.out]
  cases Sink.write text n.out with
  | ok u out => exact ⟨(), _, rfl, trivial, { hm.congruent with out := rfl }, hm.counted⟩
  | error e out => exact .inr ⟨_, _, rfl, rfl, { hm.congruent with out := rfl }, hm.counted⟩

theorem tracks_push (value : Word) : Tracks m₀ n₀ (push value) (push value) := by
  intro m n hm
  have hl : ¬ (m.memory.mode = .hardened ∧ m.sp ≤ 0) :=
    fun h => hm.congruent.ne_hardened_left h.1
  have hr : ¬ (n.memory.mode = .hardened ∧ n.sp ≤ 0) :=
    fun h => hm.congruent.ne_hardened_right h.1
  have hsp := hm.congruent.sp.sub 1
  rw [push_apply, push_apply, if_neg hl, if_neg hr]
  exact tracks_writeCell hsp value _ _ ⟨{ hm.congruent with sp := hsp }, hm.counted⟩

theorem tracks_top : Tracks m₀ n₀ top top := by
  intro m n hm
  have hl : ¬ (m.memory.mode = .hardened ∧ 65536 ≤ m.sp) :=
    fun h => hm.congruent.ne_hardened_left h.1
  have hr : ¬ (n.memory.mode = .hardened ∧ 65536 ≤ n.sp) :=
    fun h => hm.congruent.ne_hardened_right h.1
  rw [top_apply, top_apply, if_neg hl, if_neg hr]
  exact tracks_readCell hm.congruent.sp m n hm

theorem tracks_pop : Tracks m₀ n₀ pop pop := by
  refine tracks_bind tracks_top fun word => tracks_bind (tracks_modify fun m n hm => ?_)
    fun _ => tracks_pure word
  exact ⟨{ hm.congruent with sp := hm.congruent.sp.add 1 }, hm.counted⟩

/-- The program counters move on together. -/
theorem tracks_skip : Tracks m₀ n₀ (modify fun m => { m with pc := m.pc + 1 })
    (modify fun m => { m with pc := m.pc + 1 }) :=
  tracks_modify fun _ _ hm =>
    ⟨{ hm.congruent with pc := hm.congruent.pc.add 1 }, hm.counted⟩

theorem tracks_jump (target : Register) : Tracks m₀ n₀
    (modify fun m => { m with pc := target }) (modify fun m => { m with pc := target }) :=
  tracks_modify fun _ _ hm => ⟨{ hm.congruent with pc := .refl target }, hm.counted⟩

theorem tracks_fetch : Tracks m₀ n₀ fetch fetch := by
  refine tracks_get_bind fun m n hm => tracks_bind (tracks_readCell hm.congruent.pc) fun word => ?_
  exact tracks_bind tracks_skip fun _ => tracks_pure word

/-- The operand is the same, but it is added to frame pointers that are only congruent. -/
theorem tracks_frameAddress_bind {f g : Register → Action α}
    (h : ∀ a b, Register.Congruent a b → Tracks m₀ n₀ (f a) (g b)) :
    Tracks m₀ n₀ (frameAddress >>= f) (frameAddress >>= g) := by
  simp only [frameAddress, bind_assoc, pure_bind]
  refine tracks_bind tracks_fetch fun offset => tracks_get_bind fun m n hm => ?_
  exact h _ _ (hm.congruent.fp.add offset.offset)

/-! ### Instructions -/

theorem tracks_combine (operation : Int16 → Int16 → Except FaultCause Int16) :
    Tracks m₀ n₀ (combine operation) (combine operation) := by
  refine tracks_bind tracks_pop fun right => tracks_bind tracks_pop fun left => ?_
  cases operation left.signed right.signed with
  | ok value => exact tracks_push _
  | error cause => exact tracks_throw cause

/-- A call saves the low halves of its registers, which are the same on both machines. -/
theorem tracks_call : Tracks m₀ n₀ call call := by
  refine tracks_bind tracks_fetch fun target => tracks_get_bind fun m n hm => ?_
  rw [Register.congruent_iff.mp hm.congruent.pc]
  refine tracks_bind (tracks_push _) fun _ => tracks_get_bind fun m n hm => ?_
  rw [Register.congruent_iff.mp hm.congruent.fp]
  refine tracks_bind (tracks_push _) fun _ => tracks_modify fun m n hm => ?_
  exact ⟨{ hm.congruent with pc := .refl _, fp := hm.congruent.sp }, hm.counted⟩

theorem tracks_ret : Tracks m₀ n₀ ret ret := by
  refine tracks_frameAddress_bind fun a b hab => ?_
  refine tracks_bind tracks_pop fun value => ?_
  refine tracks_bind (tracks_modify fun m n hm => ?_) fun _ => ?_
  · exact ⟨{ hm.congruent with sp := hm.congruent.fp }, hm.counted⟩
  refine tracks_bind tracks_pop fun fp => ?_
  refine tracks_bind (tracks_modify fun m n hm => ?_) fun _ => ?_
  · exact ⟨{ hm.congruent with fp := .refl _ }, hm.counted⟩
  refine tracks_bind tracks_pop fun pc => ?_
  refine tracks_bind (tracks_modify fun m n hm => ?_) fun _ => ?_
  · exact ⟨{ hm.congruent with pc := .refl _, sp := hab }, hm.counted⟩
  exact tracks_writeCell hab value

theorem tracks_jumpIfZero : Tracks m₀ n₀ jumpIfZero jumpIfZero := by
  refine tracks_bind tracks_pop fun word => ?_
  by_cases h : word = 0
  · rw [if_pos h]
    exact tracks_bind tracks_fetch fun target => tracks_jump _
  · rw [if_neg h]
    exact tracks_skip

theorem tracks_ofOpcode (op : Opcode) : Tracks m₀ n₀ (ofOpcode op) (ofOpcode op) := by
  cases op with
  | halt =>
      refine tracks_bind tracks_top fun result => tracks_modify fun m n hm => ?_
      exact ⟨{ hm.congruent with halted := rfl }, hm.counted⟩
  | nop => exact tracks_pure ()
  | prints => exact tracks_pure ()
  | add => exact tracks_combine fun left right => .ok (left + right)
  | sub => exact tracks_combine fun left right => .ok (left - right)
  | mult => exact tracks_combine fun left right => .ok (left * right)
  | div => exact tracks_combine divide
  | call => exact tracks_call
  | ret => exact tracks_ret
  | jmp => exact tracks_bind tracks_fetch fun target => tracks_jump _
  | jeq => exact tracks_jumpIfZero
  | printi => exact tracks_bind tracks_pop fun value => tracks_print _
  | pushc => exact tracks_bind tracks_fetch tracks_push
  | pusha =>
      refine tracks_bind tracks_fetch fun address => ?_
      exact tracks_bind (tracks_readCell (.refl _)) tracks_push
  | pushr =>
      refine tracks_frameAddress_bind fun a b hab => ?_
      exact tracks_bind (tracks_readCell hab) tracks_push
  | popa =>
      refine tracks_bind tracks_fetch fun address => ?_
      exact tracks_bind tracks_pop fun value => tracks_writeCell (.refl _) value
  | popr =>
      refine tracks_frameAddress_bind fun a b hab => ?_
      exact tracks_bind tracks_pop fun value => tracks_writeCell hab value

/-- In compatible mode a word that is no opcode does nothing. -/
theorem tracks_ofWord (word : Word) : Tracks m₀ n₀ (ofWord word) (ofWord word) := by
  rw [ofWord]
  cases Opcode.ofWord? word with
  | some op => exact tracks_ofOpcode op
  | none =>
      refine tracks_get_bind fun m n hm => ?_
      rw [if_neg hm.congruent.ne_hardened_left, if_neg hm.congruent.ne_hardened_right]
      exact tracks_pure ()

end Action

/-! ### Steps and operations -/

/-- The same fault, but for a multiple of 65536 in the address at which it arose. -/
structure Fault.Congruent (f g : Fault) : Prop where
  pc : Register.Congruent f.pc g.pc
  instruction : f.instruction = g.instruction
  cause : f.cause = g.cause

namespace Machine

variable {m₀ n₀ m n : Machine}

/-- The operand in a report is read at an address of sixteen bits. -/
theorem Congruent.operandBehind (h : m.Congruent n) {a b : Register} (hab : Register.Congruent a b)
    (word : Word) : m.operandBehind a word = n.operandBehind b word := by
  have hcell : Word.ofRegister (a + 1) = Word.ofRegister (b + 1) :=
    Register.congruent_iff.mp (hab.add 1)
  simp only [Machine.operandBehind, Memory.peek, h.cells, hcell]

theorem tracks_step : Simulates (m₀.Abreast n₀) step step
    (fun a b m n => a = b ∧ m₀.Abreast n₀ m n) (fun f g m n => f.Congruent g ∧ m₀.Abreast n₀ m n)
    fun _ => False := by
  intro m n hm
  have hpc := hm.congruent.pc
  simp only [step, hm.congruent.halted]
  cases n.halted with
  | some result => exact ⟨_, _, rfl, rfl, hm⟩
  | none =>
      have hf := Action.tracks_fetch m n hm
      cases hs : Action.fetch m with
      | error cause m₁ =>
          simp only [hs] at hf ⊢
          obtain ⟨_, n₁, hn, rfl, hm₁⟩ := hf.resolve_left id
          exact .inr ⟨⟨n.pc, none, cause⟩, n₁, by rw [hn], ⟨hpc, rfl, rfl⟩, hm₁⟩
      | ok word m₁ =>
          simp only [hs] at hf ⊢
          obtain ⟨_, n₁, hn, rfl, hm₁⟩ := hf
          have hw := Action.tracks_ofWord word _ _ hm₁.executed
          rw [hn]
          cases hx : Action.ofWord word { m₁ with executed := m₁.executed + 1 } with
          | ok u m₂ =>
              simp only [hx] at hw ⊢
              obtain ⟨_, n₂, hn₂, -, hm₂⟩ := hw
              exact ⟨_, n₂, by rw [hn₂], hm₂.congruent.halted, hm₂⟩
          | error cause m₂ =>
              simp only [hx] at hw ⊢
              obtain ⟨_, n₂, hn₂, rfl, hm₂⟩ := hw.resolve_left id
              refine .inr ⟨⟨n.pc, some (word, n₂.operandBehind n.pc word), cause⟩, n₂, by rw [hn₂],
                ⟨hpc, ?_, rfl⟩, hm₂⟩
              rw [hm₂.congruent.operandBehind hpc word]

/-- The operations that let a machine execute instructions. -/
inductive Drive where
  | step
  | advance (limit : Nat)
  | runToHalt

/-- What such an operation answers: the result, if the machine has one by then, and the number of
steps where it is limited. -/
inductive Answer where
  | result (result : Option Word)
  | progress (progress : Progress Word)

def Drive.run : Drive → EStateM Fault Machine Answer
  | .step => Answer.result <$> Machine.step
  | .advance limit => Answer.progress <$> runFor limit
  | .runToHalt => Answer.result <$> Machine.runToHalt

theorem tracks_runFor (limit : Nat) : Simulates (m₀.Abreast n₀) (runFor limit) (runFor limit)
    (fun a b m n => a = b ∧ m₀.Abreast n₀ m n) (fun f g m n => f.Congruent g ∧ m₀.Abreast n₀ m n)
    fun _ => False := by
  intro m n hm
  simp only [runFor, hm.congruent.halted]
  cases n.halted with
  | some result => exact ⟨_, _, rfl, rfl, hm⟩
  | none => exact simulates_upTo tracks_step limit 0 m n hm

theorem tracks_drive (drive : Drive) : Simulates (m₀.Abreast n₀) drive.run drive.run
    (fun a b m n => a = b ∧ m₀.Abreast n₀ m n) (fun f g m n => f.Congruent g ∧ m₀.Abreast n₀ m n)
    fun _ => False := by
  cases drive with
  | step => exact simulates_map tracks_step
  | advance limit => exact simulates_map (tracks_runFor limit)
  | runToHalt => exact simulates_map (simulates_untilResult tracks_step Run.endless)

/-- The same answer, or congruent faults. -/
def Answer.Alike : Except Fault Answer → Except Fault Answer → Prop
  | .ok a, .ok b => a = b
  | .error f, .error g => f.Congruent g
  | _, _ => False

/-- The compatible machine has sixteen bits. Through every sequence of operations congruent
machines answer the same or fault alike, and each operation leaves them congruent, with the same
output, and their counters gone up by the same since the beginning. -/
theorem congruent_machines_run_alike (m n : Machine) (h : m.Congruent n) (drives : List Drive) :
    List.Forall₂ (fun a b => Answer.Alike a.1 b.1 ∧ m.Abreast n a.2 b.2)
      (Run.series (drives.map Drive.run) m) (Run.series (drives.map Drive.run) n) :=
  forall₂_series tracks_drive drives h.abreast

/-- Before a division by zero at address 4, in the low half of every register. -/
def beforeDivision : Machine :=
  ((powerOn .compatible {}).perform (.load [12, 1, 12, 0, 5])).2

def beforeDivisionWrapped : Machine :=
  { beforeDivision with pc := 65536, sp := -65536, fp := -2147483648, executed := 7 }

theorem congruent_machines_run_alike_division :
    beforeDivision.Congruent beforeDivisionWrapped ∧
    (Run.series ([Drive.step, .runToHalt, .advance 2].map Drive.run) beforeDivision).map (·.1) =
      [.ok (.result none), .error ⟨4, some (5, none), .arithmetic⟩, .ok (.progress ⟨1, some 12⟩)] ∧
    (Run.series ([Drive.step, .runToHalt, .advance 2].map Drive.run) beforeDivisionWrapped).map
        (·.1) =
      [.ok (.result none), .error ⟨65540, some (5, none), .arithmetic⟩,
        .ok (.progress ⟨1, some 12⟩)] ∧
    List.Forall₂
      (fun a b => Answer.Alike a.1 b.1 ∧ beforeDivision.Abreast beforeDivisionWrapped a.2 b.2)
      (Run.series ([Drive.step, .runToHalt, .advance 2].map Drive.run) beforeDivision)
      (Run.series ([Drive.step, .runToHalt, .advance 2].map Drive.run) beforeDivisionWrapped) := by
  have h : beforeDivision.Congruent beforeDivisionWrapped :=
    ⟨rfl, rfl, by decide, by decide, by decide, rfl, rfl, rfl⟩
  exact ⟨h, rfl, rfl, congruent_machines_run_alike _ _ h [.step, .runToHalt, .advance 2]⟩

end Machine

end CoolMachine
