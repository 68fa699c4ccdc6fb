import CoolMachine.Proofs.Machine.Accesses
import CoolMachine.Proofs.Output.Sink

/-! What instructions leave aside. None of them looks at the instruction count, and only one writes
to the output stream, once all else is done: so a step on any stream is the step on another one,
followed by a write of the text that the instruction prints. -/

namespace CoolMachine

/-- The same machine with another instruction count and another output stream. -/
def Machine.beside (m : Machine) (executed : Nat) (out : Sink Char) : Machine :=
  { m with executed, out }

/-- The same machine, writing to another stream from here on. -/
def Machine.attach (m : Machine) (out : Sink Char) : Machine := { m with out }

/-! ### Actions -/

namespace Action

variable {α β : Type}

/-- The action neither looks at the instruction count and the output stream nor changes them. -/
def Silent (x : Action α) : Prop :=
  ∀ m executed out, x (m.beside executed out) = (x m).mapState (·.beside executed out)

theorem silent_pure (a : α) : Silent (pure a) := fun _ _ _ => rfl

theorem silent_throw (cause : FaultCause) : Silent (throw cause : Action α) := fun _ _ _ => rfl

theorem silent_bind {x : Action α} {f : α → Action β} (hx : Silent x) (hf : ∀ a, Silent (f a)) :
    Silent (x >>= f) := by
  intro m executed out
  simp only [bind, EStateM.bind, hx m executed out]
  cases x m with
  | ok a m' => exact hf a m' executed out
  | error cause m' => rfl

/-- Reading the state is harmless as long as what is read does not show what stands aside. -/
theorem silent_get_bind {k : Machine → Action α}
    (hk : ∀ m executed out, k (m.beside executed out) = k m) (hs : ∀ m, Silent (k m)) :
    Silent (get >>= k) := by
  intro m executed out
  change k (m.beside executed out) (m.beside executed out) = (k m m).mapState _
  rw [hk]
  exact hs m m executed out

theorem silent_modify {f : Machine → Machine}
    (hf : ∀ m executed out, f (m.beside executed out) = (f m).beside executed out) :
    Silent (modify f) := by
  intro m executed out
  change EStateM.Result.ok () (f (m.beside executed out)) = _
  rw [hf]
  rfl

/-! ### Accesses -/

theorem silent_readCell (address : Register) : Silent (readCell address) := by
  intro m executed out
  have hm : (m.beside executed out).memory = m.memory := rfl
  rw [readCell_apply, readCell_apply, hm]
  cases m.memory.mode.resolve address <;> rfl

theorem silent_writeCell (address : Register) (value : Word) :
    Silent (writeCell address value) := by
  intro m executed out
  have hm : (m.beside executed out).memory = m.memory := rfl
  rw [writeCell_apply, writeCell_apply, hm]
  cases m.memory.mode.resolve address <;> rfl

theorem silent_push (value : Word) : Silent (push value) := by
  intro m executed out
  have hm : (m.beside executed out).memory = m.memory := rfl
  have hsp : (m.beside executed out).sp = m.sp := rfl
  rw [push_apply, push_apply, hm, hsp]
  split
  · rfl
  · exact silent_writeCell (m.sp - 1) value { m with sp := m.sp - 1 } executed out

theorem silent_top : Silent top := by
  intro m executed out
  have hm : (m.beside executed out).memory = m.memory := rfl
  have hsp : (m.beside executed out).sp = m.sp := rfl
  rw [top_apply, top_apply, hm, hsp]
  split
  · rfl
  · exact silent_readCell m.sp m executed out

theorem silent_fetch : Silent fetch := by
  refine silent_get_bind (fun _ _ _ => rfl) fun m => ?_
  refine silent_bind (silent_readCell m.pc) fun word => ?_
  exact silent_bind (silent_modify fun _ _ _ => rfl) fun _ => silent_pure word

theorem silent_pop : Silent pop := by
  refine silent_bind silent_top fun word => ?_
  exact silent_bind (silent_modify fun _ _ _ => rfl) fun _ => silent_pure word

theorem silent_frameAddress : Silent frameAddress :=
  silent_bind silent_fetch fun _ => silent_get_bind (fun _ _ _ => rfl) fun _ => silent_pure _

/-! ### Instructions -/

theorem silent_combine (operation : Int16 → Int16 → Except FaultCause Int16) :
    Silent (combine operation) := by
  refine silent_bind silent_pop fun right => silent_bind silent_pop fun left => ?_
  cases operation left.signed right.signed with
  | ok value => exact silent_push _
  | error cause => exact silent_throw cause

theorem silent_call : Silent call := by
  refine silent_bind silent_fetch fun target => ?_
  refine silent_get_bind (fun _ _ _ => rfl) fun _ => ?_
  refine silent_bind (silent_push _) fun _ => ?_
  refine silent_get_bind (fun _ _ _ => rfl) fun _ => ?_
  exact silent_bind (silent_push _) fun _ => silent_modify fun _ _ _ => rfl

theorem silent_ret : Silent ret := by
  refine silent_bind silent_frameAddress fun slot => ?_
  refine silent_bind silent_pop fun value => ?_
  refine silent_bind (silent_modify fun _ _ _ => rfl) fun _ => ?_
  refine silent_bind silent_pop fun fp => ?_
  refine silent_bind (silent_modify fun _ _ _ => rfl) fun _ => ?_
  refine silent_bind silent_pop fun pc => ?_
  exact silent_bind (silent_modify fun _ _ _ => rfl) fun _ => silent_writeCell slot value

theorem silent_jumpIfZero : Silent jumpIfZero := by
  refine silent_bind silent_pop fun word => ?_
  by_cases h : word = 0
  · rw [if_pos h]
    exact silent_bind silent_fetch fun _ => silent_modify fun _ _ _ => rfl
  · rw [if_neg h]
    exact silent_modify fun _ _ _ => rfl

/-- All instructions but one are silent. -/
theorem silent_ofOpcode {op : Opcode} (h : op ≠ .printi) : Silent (ofOpcode op) := by
  cases op with
  | halt => exact silent_bind silent_top fun _ => silent_modify fun _ _ _ => rfl
  | nop => exact silent_pure ()
  | prints => exact silent_pure ()
  | add => exact silent_combine fun left right => .ok (left + right)
  | sub => exact silent_combine fun left right => .ok (left - right)
  | mult => exact silent_combine fun left right => .ok (left * right)
  | div => exact silent_combine divide
  | call => exact silent_call
  | ret => exact silent_ret
  | jmp => exact silent_bind silent_fetch fun _ => silent_modify fun _ _ _ => rfl
  | jeq => exact silent_jumpIfZero
  | printi => exact absurd rfl h
  | pushc => exact silent_bind silent_fetch silent_push
  | pusha =>
      refine silent_bind silent_fetch fun address => ?_
      exact silent_bind (silent_readCell _) silent_push
  | pushr =>
      refine silent_bind silent_frameAddress fun address => ?_
      exact silent_bind (silent_readCell _) silent_push
  | popa =>
      refine silent_bind silent_fetch fun address => ?_
      exact silent_bind silent_pop fun value => silent_writeCell _ value
  | popr =>
      refine silent_bind silent_frameAddress fun address => ?_
      exact silent_bind silent_pop fun value => silent_writeCell _ value

theorem silent_ofWord {word : Word} (h : word ≠ Opcode.printi.code) : Silent (ofWord word) := by
  rw [ofWord]
  cases ho : Opcode.ofWord? word with
  | some op => exact silent_ofOpcode fun hp => h (Opcode.ofWord?_eq_some_iff.mp (hp ▸ ho))
  | none =>
      refine silent_get_bind (fun _ _ _ => rfl) fun m => ?_
      split
      · exact silent_throw _
      · exact silent_pure ()

/-- What stands aside is still there afterwards. -/
theorem Silent.keeps {x : Action α} (h : Silent x) (m : Machine) :
    Meets x m (fun _ m' => m'.executed = m.executed ∧ m'.out = m.out)
      fun _ m' => m'.executed = m.executed ∧ m'.out = m.out := by
  have hm : x m = (x m).mapState (·.beside m.executed m.out) := h m m.executed m.out
  unfold Meets
  rw [hm]
  cases x m with
  | ok a m' => exact ⟨rfl, rfl⟩
  | error cause m' => exact ⟨rfl, rfl⟩

theorem Silent.attach {x : Action α} (h : Silent x) (m : Machine) (out : Sink Char) :
    x (m.attach out) = (x m).mapState (·.attach out) := by
  have hm : x (m.attach out) = (x m).mapState (·.beside m.executed out) := h m m.executed out
  have hk := h.keeps m
  rw [hm]
  cases hx : x m with
  | ok a m' => rw [EStateM.Result.mapState, ← (hk.of_ok hx).1]; rfl
  | error cause m' => rw [EStateM.Result.mapState, ← (hk.of_error hx).1]; rfl

/-- The instruction that prints is silent up to its write. -/
theorem ofWord_printi : ofWord Opcode.printi.code =
    pop >>= fun value => print (Decimal.ofInt value.signed.toInt) := rfl

theorem executed_ofWord (word : Word) (m : Machine) :
    Meets (ofWord word) m (fun _ m' => m'.executed = m.executed)
      fun _ m' => m'.executed = m.executed := by
  by_cases h : word = Opcode.printi.code
  · rw [h, ofWord_printi, meets_bind]
    refine (silent_pop.keeps m).mono (fun value m' hm => ?_) fun _ _ hm => hm.1
    rw [meets_print]
    unfold Meets
    split <;> exact hm.1
  · exact ((silent_ofWord h).keeps m).mono (fun _ _ hm => hm.1) fun _ _ hm => hm.1

/-- Printing on another stream: the value that is popped is the same. -/
theorem ofWord_printi_attach {m : Machine} (h : m.out.room = none) (out : Sink Char) :
    ofWord Opcode.printi.code (m.attach out) =
      match ofWord Opcode.printi.code m with
      | .error cause m' => .error cause (m'.attach out)
      | .ok _ m' =>
        match Sink.write (Decimal.ofInt m.topWord.signed.toInt) out with
        | .ok _ out => .ok () (m'.attach out)
        | .error e out => .error (.output e) (m'.attach out) := by
  have hkeeps := silent_pop.keeps m
  have htop : Meets pop m (fun word _ => word = m.topWord) fun _ _ => True := by
    simp only [meets_pop, meets_top, meets_readCell, implies_true, and_true, true_and]
    exact fun _ _ => rfl
  simp only [ofWord_printi, bind, EStateM.bind, silent_pop.attach m out]
  cases hp : pop m with
  | error cause m' => rfl
  | ok value m' =>
      have hout : m'.out.room = none := by rw [(hkeeps.of_ok hp).2, h]
      rw [htop.of_ok hp]
      cases hw : Sink.write (Decimal.ofInt m.topWord.signed.toInt) out <;>
        simp only [print, Sink.write_unbounded hout, hw, EStateM.Result.mapState, Machine.attach]

end Action

/-! ### Steps -/

namespace Machine

/-- What the next step prints, if its instruction is the one that prints. -/
def printout (m : Machine) : List Char :=
  if m.halted = none ∧ m.opcodeWord = Opcode.printi.code then
    Decimal.ofInt m.topWord.signed.toInt
  else []

theorem step_of_running {m : Machine} (h : m.halted = none) : m.step =
    match m.memory.mode.resolve m.pc with
    | none => .error ⟨m.pc, none, .address m.pc⟩ { m with memory := m.memory.countRead }
    | some _ =>
      match Action.ofWord m.opcodeWord m.fetched with
      | .ok _ m' => .ok m'.halted m'
      | .error cause m' =>
        .error ⟨m.pc, some (m.opcodeWord, m'.operandBehind m.pc m.opcodeWord), cause⟩ m' := by
  simp only [step, h, Action.fetch_apply, fetched, opcodeWord]
  cases hr : m.memory.mode.resolve m.pc with
  | none => rfl
  | some cell =>
      obtain rfl := Mode.eq_of_resolve hr
      rfl

/-- Every step of a running machine counts, unless it ends in a fault. -/
theorem executed_step {m m' : Machine} {result : Option Word} (h : m.halted = none)
    (hs : m.step = .ok result m') : m'.executed = m.executed + 1 := by
  have hm : Meets step m (fun _ m' => m'.executed = m.executed + 1) fun _ _ => True :=
    (meets_step h).mpr ⟨fun _ => (Action.executed_ofWord _ _).mono (fun _ _ hm => hm)
      fun _ _ _ => trivial, fun _ => trivial⟩
  exact hm.of_ok hs

/-- A step answers the result that it leaves. -/
theorem halted_step {m m' : Machine} {result : Option Word} (hs : m.step = .ok result m') :
    m'.halted = result := by
  cases h : m.halted with
  | some word =>
      rw [step_of_halted h] at hs
      cases hs
      exact h
  | none =>
      have hm : Meets step m (fun result m' => m'.halted = result) fun _ _ => True := by
        refine (meets_step h).mpr ⟨fun _ => ?_, fun _ => trivial⟩
        unfold Meets
        split <;> trivial
      exact hm.of_ok hs

/-- On any stream, a step does what it does on an unbounded one and writes what that prints. -/
theorem step_attach {m : Machine} (h : m.out.room = none) (out : Sink Char) :
    (m.attach out).step =
      match m.step with
      | .error fault m' => .error fault (m'.attach out)
      | .ok result m' =>
        match Sink.write m.printout out with
        | .ok _ out => .ok result (m'.attach out)
        | .error e out =>
          .error ⟨m.pc, some (Opcode.printi.code, none), .output e⟩ (m'.attach out) := by
  by_cases hh : m.halted = none
  · have hf : (m.attach out).fetched = m.fetched.attach out := rfl
    have hw : (m.attach out).opcodeWord = m.opcodeWord := rfl
    have hmode : (m.attach out).memory.mode.resolve (m.attach out).pc =
      m.memory.mode.resolve m.pc := rfl
    rw [step_of_running hh, step_of_running (m := m.attach out) hh, hf, hw, hmode]
    cases m.memory.mode.resolve m.pc with
    | none => rfl
    | some cell =>
        by_cases hp : m.opcodeWord = Opcode.printi.code
        · have htext : m.printout = Decimal.ofInt m.fetched.topWord.signed.toInt := if_pos ⟨hh, hp⟩
          have hout : m.fetched.out.room = none := h
          simp only [htext, hp, Action.ofWord_printi_attach hout]
          cases Action.ofWord Opcode.printi.code m.fetched with
          | error cause m' => rfl
          | ok u m' =>
              simp only
              cases Sink.write (Decimal.ofInt m.fetched.topWord.signed.toInt) out <;> rfl
        · have htext : m.printout = [] := if_neg fun hp' => hp hp'.2
          simp only [htext, Sink.write_nil, (Action.silent_ofWord hp).attach m.fetched out]
          cases Action.ofWord m.opcodeWord m.fetched <;> rfl
  · obtain ⟨result, hr⟩ := Option.ne_none_iff_exists'.mp hh
    have htext : m.printout = [] := if_neg fun hp => hh hp.1
    simp only [step_of_halted hr, step_of_halted (m := m.attach out) hr, htext, Sink.write_nil]

end Machine

end CoolMachine
