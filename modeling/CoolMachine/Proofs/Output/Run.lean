import CoolMachine.Proofs.Machine.Control
import CoolMachine.Proofs.Text.Decimal
import CoolMachine.Proofs.Traffic.Account

/-! Runs on a stream that may be full. A run on an unbounded stream tells what the run on any other
stream does: the same, as long as the stream takes all that is printed, and a fault at the first
instruction whose text it does not take. -/

namespace CoolMachine.Machine

/-- What the first `n` steps of a run print, up to its first fault. -/
def printed (n : Nat) (m : Machine) : List Char := (m.executing n).flatMap printout

theorem printed_of_halted {m : Machine} {result : Word} (h : m.halted = some result) (n : Nat) :
    m.printed n = [] := by
  rw [printed, executing_of_halted h, List.flatMap_nil]

theorem printed_of_error {m m' : Machine} {fault : Fault} (hs : m.step = .error fault m')
    (n : Nat) : m.printed n = [] := by
  cases n with
  | zero => rfl
  | succ n =>
      simp only [printed, executing, hs]
      cases m.halted <;> rfl

theorem printed_succ {m m' : Machine} {result : Option Word} (h : m.halted = none)
    (hs : m.step = .ok result m') (n : Nat) :
    m.printed (n + 1) = m.printout ++ m'.printed n := by
  rw [printed, executing_succ h hs, List.flatMap_cons, ← printed]

/-- Every machine that executes an instruction is running. -/
theorem halted_of_mem_executing {m m' : Machine} {n : Nat} (h : m' ∈ m.executing n) :
    m'.halted = none := by
  induction n generalizing m with
  | zero => cases h
  | succ n ih =>
      cases hh : m.halted with
      | some result =>
          rw [executing_of_halted hh] at h
          cases h
      | none =>
          cases hs : m.step with
          | error fault after =>
              simp only [executing, hh, hs] at h
              cases h
          | ok result after =>
              rw [executing_succ hh hs] at h
              rcases List.mem_cons.mp h with rfl | h
              · exact hh
              · exact ih h

/-- The one instruction that prints shows the word on top of the stack, signed. -/
theorem printout_of_mem_executing {m m' : Machine} {n : Nat} (h : m' ∈ m.executing n) :
    m'.printout = if m'.opcodeWord = 10 then
      (toString ((m'.topWord.toNat : Int).bmod 65536)).toList else [] := by
  have hcode : Opcode.printi.code = 10 := rfl
  have hsigned : m'.topWord.signed.toInt = (m'.topWord.toNat : Int).bmod 65536 :=
    BitVec.toInt_eq_toNat_bmod m'.topWord.toBitVec
  rw [printout, Decimal.toList_toString_int, ← hsigned, hcode]
  simp only [halted_of_mem_executing h, true_and]

/-- The instruction at which the stream fails: all that is printed before is taken, and the text
of this instruction is not. -/
structure Refused (executed : List Machine) (out : Sink Char) (before : List Machine)
    (refused : Machine) (e : OutputError) : Prop where
  executed_eq : ∃ after, executed = before ++ refused :: after
  opcode_eq : refused.opcodeWord = Opcode.printi.code
  taken : ∃ middle final, Sink.write (before.flatMap printout) out = .ok () middle ∧
    Sink.write refused.printout middle = .error e final

theorem opcodeWord_of_printout_ne_nil {m : Machine} (h : m.printout ≠ []) :
    m.opcodeWord = Opcode.printi.code := by
  by_contra hne
  exact h (if_neg fun hp => hne hp.2)

/-- A step that is taken in front of the others. -/
theorem Refused.cons {executed before : List Machine} {out middle : Sink Char} {m refused : Machine}
    {e : OutputError} (h : Refused executed middle before refused e)
    (hw : Sink.write m.printout out = .ok () middle) :
    Refused (m :: executed) out (m :: before) refused e := by
  obtain ⟨⟨after, rfl⟩, hop, taken, final, ht, hf⟩ := h
  refine ⟨⟨after, rfl⟩, hop, taken, final, ?_, hf⟩
  rw [List.flatMap_cons, Sink.write_append]
  simp only [bind, EStateM.bind, hw, ht]

section Runs

variable {m m' : Machine} {result : Option Word}

/-- An unbounded stream takes everything and stays unbounded. -/
theorem out_step (h : m.out.room = none) (hs : m.step = .ok result m') :
    m'.out = ⟨none, m.printout.reverse ++ m.out.newestFirst⟩ := by
  have hsame : m.step = (m.attach m.out).step := rfl
  rw [step_attach h, hs, Sink.write_unbounded h] at hsame
  injection hsame with _ hm
  rw [hm]
  rfl

theorem upTo_attach (h : m.out.room = none) (hh : m.halted = none) (n done : Nat)
    (out : Sink Char) :
    match Sink.write (m.printed n) out with
    | .ok _ out' =>
      Run.upTo step n done (m.attach out) = (Run.upTo step n done m).mapState (·.attach out')
    | .error e out' => ∃ before refused m', Refused (m.executing n) out before refused e ∧
        Run.upTo step n done (m.attach out) =
          .error ⟨refused.pc, some (Opcode.printi.code, none), .output e⟩ m' ∧
        m'.out = out' ∧ m'.executed = m.executed + before.length + 1 := by
  induction n generalizing m done out with
  | zero =>
      have hnil : m.printed 0 = [] := rfl
      simp only [hnil, Sink.write_nil]
      rfl
  | succ n ih =>
      have hattach := step_attach h out
      cases hs : m.step with
      | error fault m₁ =>
          simp only [printed_of_error hs, Sink.write_nil]
          rw [hs] at hattach
          simp only [Run.upTo, hs, hattach]
          rfl
      | ok result m₁ =>
          rw [hs] at hattach
          have hhalted := halted_step hs
          have hexecuted := executed_step hh hs
          have hout := out_step h hs
          rw [printed_succ hh hs, executing_succ hh hs, Sink.write_append]
          simp only [bind, EStateM.bind]
          cases hw : Sink.write m.printout out with
          | error e out₁ =>
              have hne : m.printout ≠ [] := by
                intro hnil
                rw [hnil, Sink.write_nil] at hw
                cases hw
              refine ⟨[], m, m₁.attach out₁, ⟨⟨_, rfl⟩, opcodeWord_of_printout_ne_nil hne,
                out, out₁, Sink.write_nil out, hw⟩, ?_, rfl, hexecuted⟩
              simp only [Run.upTo, hattach, hw]
          | ok u out₁ =>
              simp only [hw] at hattach
              simp only [Run.upTo, hs, hattach]
              cases result with
              | some result =>
                  simp only [printed_of_halted hhalted, Sink.write_nil]
                  rfl
              | none =>
                  have hroom : m₁.out.room = none := by rw [hout]
                  have hrest := ih hroom hhalted (done + 1) out₁
                  cases hw₂ : Sink.write (m₁.printed n) out₁ with
                  | ok u out₂ =>
                      rw [hw₂] at hrest
                      exact hrest
                  | error e out₂ =>
                      rw [hw₂] at hrest
                      obtain ⟨before, refused, m', hr, hrun, ho, he⟩ := hrest
                      refine ⟨m :: before, refused, m', hr.cons hw, hrun, ho, ?_⟩
                      rw [he, hexecuted, List.length_cons]
                      omega

end Runs

end CoolMachine.Machine
