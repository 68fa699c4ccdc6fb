import CoolMachine.Proofs.Frame.Nesting

/-! What a call keeps of the registers that it saves. A saved register is put into a word, which
holds every frame pointer and every return address but one: behind a call in the last two cells
lies 65536, and the word for it is zero. -/

namespace CoolMachine

namespace Ideal

/-- A call that succeeds has found its operand in memory. -/
theorem call_inMemory (e : Ideal) :
    Meets call e (fun _ _ => InMemory e.pc) fun _ _ => True := by
  simp only [call, meets_bind, meets_fetch, meets_get, meets_push, meets_write, meets_modify,
    implies_true, and_true, true_and]
  exact fun h _ _ _ _ => h

section Steps

variable {e e' : Ideal} {result : Option Word}

theorem pc_le_of_call (hop : e.opcode? = some .call) (hstep : step e = .ok result e') :
    e.pc ≤ 65534 := by
  have h : InMemory (e.pc + 1) :=
    (meets_step_of_opcode hop (call_inMemory e.fetched)).of_ok hstep
  have := h.2
  omega

/-- The word for the address behind a call is that address, with one exception. -/
theorem resume_eq (he : e.InRange) (hop : e.opcode? = some .call)
    (hstep : step e = .ok result e') :
    (e.pc + 2) % 65536 = if e.pc = 65534 then 0 else e.pc + 2 := by
  have h₀ := he.pc_nonneg
  have h₁ := pc_le_of_call hop hstep
  split <;> omega

end Steps

end Ideal

namespace Machine

/-- A call of the hardened machine saves the frame pointer of its caller, and saves the address
behind it unless that is 65536. A return from the frame, as long as its saved cells keep their
words, restores the frame pointer and goes on behind the call, or at zero in that one case. -/
theorem calls_save_registers {m m' : Machine} {result : Option Word}
    (hm : Reachable .hardened m) (hop : m.ideal.opcode? = some .call)
    (hstep : m.step = .ok result m') :
    m.pc.toInt ≤ 65534 ∧ m'.fp = m'.sp ∧
    ((m'.ideal.look m'.fp.toInt).toNat : Int) = m.fp.toInt ∧
    ((m'.ideal.look (m'.fp.toInt + 1)).toNat : Int) =
      (if m.pc.toInt = 65534 then 0 else m.pc.toInt + 2) ∧
    ∀ n n' result', Reachable .hardened n → n.fp = m'.fp →
      (∀ address ∈ [m'.fp.toInt, m'.fp.toInt + 1], n.ideal.look address = m'.ideal.look address) →
      n.ideal.opcode? = some .ret → n.step = .ok result' n' →
      n'.fp = m.fp ∧ n'.pc.toInt = if m.pc.toInt = 65534 then 0 else m.pc.toInt + 2 := by
  have hb := hm.bounded
  have hs := ((meets_step_ideal hb.hardened hb.frameSafe).of_ok hstep).2
  obtain ⟨hfp, hholds⟩ := Ideal.holds_of_call hb.range hop hs
  have hresume : (m.pc.toInt + 2) % 65536 = if m.pc.toInt = 65534 then 0 else m.pc.toInt + 2 :=
    Ideal.resume_eq hb.range hop hs
  have hframe : m'.fp = m'.sp := Int32.toInt_inj.mp hfp
  rw [← hresume, hframe]
  refine ⟨Ideal.pc_le_of_call hop hs, rfl, hholds.caller_eq, hholds.resume_eq,
    fun n n' result' hn hbase hintact hret hstep' => ?_⟩
  have hb' := hn.bounded
  have hs' := ((meets_step_ideal hb'.hardened hb'.frameSafe).of_ok hstep').2
  have hcloses := (hholds.of_look hintact).closes (congrArg Int32.toInt hbase) hret hs'
  exact ⟨Int32.toInt_inj.mp hcloses.fp_eq, hcloses.pc_eq⟩

theorem calls_save_registers_single_call :
    Reachable .hardened (singleCall 0) ∧ (singleCall 0).ideal.opcode? = some .call ∧
    (singleCall 0).step = .ok none (singleCall 1) ∧
    Reachable .hardened (singleCall 2) ∧ (singleCall 2).fp = (singleCall 1).fp ∧
    (∀ address ∈ [(singleCall 1).fp.toInt, (singleCall 1).fp.toInt + 1],
      (singleCall 2).ideal.look address = (singleCall 1).ideal.look address) ∧
    (singleCall 2).ideal.opcode? = some .ret ∧ (singleCall 2).step = .ok none (singleCall 3) ∧
    (singleCall 3).fp = (singleCall 0).fp ∧ (singleCall 3).pc.toInt = 2 := by
  have hr (steps : Nat) : Reachable .hardened (singleCall steps) :=
    .perform (.advance steps) (.perform (.load _) (.powerOn {}))
  have hcall : (singleCall 0).ideal.opcode? = some .call := rfl
  have hstep : (singleCall 0).step = .ok none (singleCall 1) := rfl
  have hbase : (singleCall 2).fp = (singleCall 1).fp := rfl
  have hintact : ∀ address ∈ [(singleCall 1).fp.toInt, (singleCall 1).fp.toInt + 1],
      (singleCall 2).ideal.look address = (singleCall 1).ideal.look address := by
    simp only [List.mem_cons, List.not_mem_nil, or_false]
    rintro address (rfl | rfl)
    · rfl
    · rfl
  have hret : (singleCall 2).ideal.opcode? = some .ret := rfl
  have hstep' : (singleCall 2).step = .ok none (singleCall 3) := rfl
  have hsaved := calls_save_registers (hr 0) hcall hstep
  have hback := hsaved.2.2.2.2 _ _ _ (hr 2) hbase hintact hret hstep'
  exact ⟨hr 0, hcall, hstep, hr 2, hbase, hintact, hret, hstep', hback.1, hback.2⟩

/-- A program that stores a call into the last but one cell and jumps to it. The operand of the
call is left over in the last cell from the stack, and leads to a return. -/
def lastCall (steps : Nat) : Machine :=
  (((powerOn .hardened {}).perform (.load [12, 6, 15, 65534, 8, 65534, 7, 0])).2.perform
    (.advance steps)).2

/-- The return address of a call is not saved exactly by every call of the hardened machine. -/
theorem last_call_saves_zero :
    ¬ ∀ (m m' : Machine) (result : Option Word), Reachable .hardened m →
      m.ideal.opcode? = some .call → m.step = .ok result m' →
      ((m'.ideal.look (m'.fp.toInt + 1)).toNat : Int) = m.pc.toInt + 2 ∧
      ((m'.ideal.look m'.fp.toInt).toNat : Int) = m.fp.toInt := by
  intro h
  have hr : Reachable .hardened (lastCall 3) :=
    .perform (.advance 3) (.perform (.load _) (.powerOn {}))
  have hsaved := (h (lastCall 3) (lastCall 4) none hr rfl rfl).1
  have hword : (lastCall 4).ideal.look ((lastCall 4).fp.toInt + 1) = 0 := rfl
  have hpc : (lastCall 3).pc.toInt = 65534 := rfl
  rw [hword, hpc] at hsaved
  contradiction

end Machine

end CoolMachine
