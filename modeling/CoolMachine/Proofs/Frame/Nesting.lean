import CoolMachine.Proofs.Ideal.Footprint
import CoolMachine.Proofs.Register.Range

/-! Calls and returns nest. Beside a run, each call puts a frame on a stack that no program sees,
and each return takes one off. As long as nothing stores to the cells in which a call has saved its
registers, that stack and the chain of frames in memory are the same. -/

namespace CoolMachine

/-- A frame that is open: where it begins, and what its return goes back to. -/
structure Frame where
  base : Int
  resume : Int
  caller : Int
  deriving DecidableEq

/-- The cells of the frame that hold the frame pointer of the caller and the return address. -/
def Frame.saved (frame : Frame) : List Int := [frame.base, frame.base + 1]

namespace Ideal

/-- The open frames, innermost first, after a step from `e` to `e'`. -/
def framesAfter (e e' : Ideal) (frames : List Frame) : List Frame :=
  match e.opcode? with
  | some .call => ⟨e'.sp, (e.pc + 2) % 65536, e.fp⟩ :: frames
  | some .ret => frames.tail
  | _ => frames

/-- The next step stores to no saved cell, unless it is a return that stores to one of the frame
that it closes. -/
def Spares (e : Ideal) (frames : List Frame) : Prop :=
  ∀ address ∈ e.stores, ∀ frame ∈ frames, address ∈ frame.saved →
    e.opcode? = some .ret ∧ ∃ top ∈ frames.head?, address ∈ top.saved

/-- What a return does when it closes the frame: the caller goes on behind its call, in its own
frame, and finds the result in the cell that the operand names. -/
structure Closes (frame : Frame) (e e' : Ideal) : Prop where
  fp_eq : e'.fp = frame.caller
  pc_eq : e'.pc = frame.resume
  sp_eq : e'.sp = frame.base + (e.look (e.pc + 1)).signed.toInt
  inMemory : InMemory e'.sp
  value_eq : e'.look e'.sp = e.look e.sp
  others_eq : ∀ address, InMemory address → address ≠ e'.sp → e'.look address = e.look address

end Ideal

/-- A run without a fault from power on, beside the frames that are open at its end. No return is
taken without an open frame, and no step spoils what a frame has saved. -/
inductive NestedRun (image : List Word) : Machine → List Frame → Prop where
  | powerOn {out : Sink Char} {m : Machine} :
      (Machine.powerOn .hardened out).load image = .ok m → NestedRun image m []
  | step {m m' : Machine} {frames : List Frame} {result : Option Word} :
      NestedRun image m frames → m.step = .ok result m' →
      (m.ideal.opcode? = some .ret → frames ≠ []) → m.ideal.Spares frames →
      NestedRun image m' (m.ideal.framesAfter m'.ideal frames)

/-! ### The chain of frames -/

namespace Ideal

/-- The saved cells of the frame lie in memory and hold what its return is to restore. -/
structure Holds (e : Ideal) (frame : Frame) : Prop where
  inMemory : ∀ address ∈ frame.saved, InMemory address
  caller_eq : ((e.look frame.base).toNat : Int) = frame.caller
  resume_eq : ((e.look (frame.base + 1)).toNat : Int) = frame.resume

/-- The frame pointer leads through the open frames to the outermost level. -/
def Chain (e : Ideal) : Int → List Frame → Prop
  | fp, [] => fp = 0
  | fp, frame :: rest => fp = frame.base ∧ e.Holds frame ∧ Chain e frame.caller rest

/-- The frames in memory are the open ones, and no two of them share a saved cell. -/
structure Nested (e : Ideal) (frames : List Frame) : Prop where
  chain : e.Chain e.fp frames
  apart : frames.Pairwise fun inner outer => ∀ address ∈ inner.saved, address ∉ outer.saved

theorem Holds.of_look {e e' : Ideal} {frame : Frame} (h : e.Holds frame)
    (hl : ∀ address ∈ frame.saved, e'.look address = e.look address) : e'.Holds frame := by
  refine ⟨h.inMemory, ?_, ?_⟩
  · rw [hl _ List.mem_cons_self, h.caller_eq]
  · rw [hl _ (List.mem_cons_of_mem _ List.mem_cons_self), h.resume_eq]

theorem Chain.holds {e : Ideal} {frames : List Frame} {fp : Int} (h : e.Chain fp frames) :
    ∀ frame ∈ frames, e.Holds frame := by
  induction frames generalizing fp with
  | nil => simp
  | cons frame rest ih =>
      intro other ho
      rcases List.mem_cons.mp ho with rfl | ho
      · exact h.2.1
      · exact ih h.2.2 other ho

/-- The chain stays as it is when the saved cells do. -/
theorem Chain.of_look {e e' : Ideal} {frames : List Frame} {fp : Int} (h : e.Chain fp frames)
    (hl : ∀ frame ∈ frames, ∀ address ∈ frame.saved, e'.look address = e.look address) :
    e'.Chain fp frames := by
  induction frames generalizing fp with
  | nil => exact h
  | cons frame rest ih =>
      obtain ⟨hfp, hf, hr⟩ := h
      refine ⟨hfp, hf.of_look (hl frame List.mem_cons_self), ih hr fun other ho => ?_⟩
      exact hl other (List.mem_cons_of_mem _ ho)

/-- Cells that a step does not store to keep their word. -/
theorem Wrote.look {e e' : Ideal} {addresses : List Int} (h : Wrote e.memory e'.memory addresses)
    {address : Int} (ha : InMemory address) (hn : address ∉ addresses) :
    e'.look address = e.look address :=
  h.others address ha hn

/-! ### Calls and returns -/

section Instructions

variable (e : Ideal)

theorem call_opens : Meets call e
    (fun _ e' => e'.fp = e'.sp ∧ e'.sp = e.sp - 2 ∧ InMemory e'.sp ∧ InMemory (e'.sp + 1) ∧
      e'.look e'.sp = word e.fp ∧ e'.look (e'.sp + 1) = word (e.pc + 1))
    fun _ _ => True := by
  have hsp : e.sp - 1 - 1 = e.sp - 2 := by omega
  have hsp' : e.sp - 2 + 1 = e.sp - 1 := by omega
  have hne : e.sp - 1 ≠ e.sp - 2 := by omega
  simp only [call, meets_bind, meets_fetch, meets_get, meets_push, meets_write, meets_modify,
    implies_true, true_and, and_true, hsp, hsp', look]
  intro _ _ h₁ _ h₂
  refine ⟨h₂, h₁, ?_, ?_⟩
  · rw [peek_store_word h₂ h₂, if_pos rfl]
  · rw [peek_store_word h₂ h₁, if_neg hne, Memory.peek_countWrite, peek_store_word h₁ h₁,
      if_pos rfl]

theorem ret_closes : Meets ret e
    (fun _ e' => (e'.fp = (e.look e.fp).toNat ∧ e'.pc = (e.look (e.fp + 1)).toNat ∧
      e'.sp = e.fp + (e.look e.pc).signed.toInt) ∧ InMemory e'.sp ∧ e'.look e'.sp = e.look e.sp)
    fun _ _ => True := by
  simp only [ret, meets_bind, meets_frameAddress, meets_fetch, meets_pop, meets_top, meets_read,
    meets_modify, meets_write, implies_true, true_and, and_true, look, Memory.peek_countRead]
  intro _ _ _ _ _ _ _ hin
  refine ⟨hin, ?_⟩
  rw [peek_store_word hin hin, if_pos rfl]

end Instructions

/-! ### Steps -/

section Steps

variable {e e' : Ideal} {frames rest : List Frame} {top : Frame} {result : Option Word}

/-- A step other than a return leaves the chain of the open frames alone. -/
theorem Nested.chain_of_spares (h : e.Nested frames) (hs : e.Spares frames)
    (hr : e.opcode? ≠ some .ret) (hstep : step e = .ok result e') : e'.Chain e.fp frames := by
  have hw := ((wrote_step e).of_ok hstep).1
  refine h.chain.of_look fun frame hf address ha => ?_
  refine hw.look ((h.chain.holds frame hf).inMemory address ha) fun hstore => ?_
  exact hr (hs address hstore frame hf ha).1

theorem Nested.other (h : e.Nested frames) (hs : e.Spares frames) (hc : e.opcode? ≠ some .call)
    (hr : e.opcode? ≠ some .ret) (hstep : step e = .ok result e') : e'.Nested frames := by
  have hfp := ((wrote_step e).of_ok hstep).2 hc hr
  exact ⟨hfp ▸ h.chain_of_spares hs hr hstep, h.apart⟩

/-- The frame that a call opens holds the registers of its caller, the return address as a word. -/
theorem holds_of_call (he : e.InRange) (hop : e.opcode? = some .call)
    (hstep : step e = .ok result e') :
    e'.fp = e'.sp ∧ e'.Holds ⟨e'.sp, (e.pc + 2) % 65536, e.fp⟩ := by
  have ho := (meets_step_of_opcode hop (call_opens e.fetched)).of_ok hstep
  obtain ⟨hfp, -, hin, hin', hcaller, hresume⟩ := ho
  refine ⟨hfp, ?_, ?_, ?_⟩
  · simp only [Frame.saved, List.mem_cons, List.not_mem_nil, or_false]
    rintro address (rfl | rfl)
    · exact hin
    · exact hin'
  · have hw := toNat_word e.fp
    have h₀ := he.fp_nonneg
    have h₁ := he.fp_le
    rw [hcaller]
    change ((word e.fp).toNat : Int) = e.fp
    omega
  · rw [hresume, toNat_word]
    change (e.pc + 1 + 1) % 65536 = (e.pc + 2) % 65536
    omega

/-- A call saves its registers in cells that no open frame has saved anything in. -/
theorem Nested.call (he : e.InRange) (h : e.Nested frames) (hs : e.Spares frames)
    (hop : e.opcode? = some .call) (hstep : step e = .ok result e') :
    e'.Nested (⟨e'.sp, (e.pc + 2) % 65536, e.fp⟩ :: frames) := by
  have hchain := h.chain_of_spares hs (by simp [hop]) hstep
  obtain ⟨-, hsp, -⟩ := (meets_step_of_opcode hop (call_opens e.fetched)).of_ok hstep
  obtain ⟨hfp, hnew⟩ := holds_of_call he hop hstep
  refine ⟨⟨hfp, hnew, hchain⟩, List.pairwise_cons.mpr ⟨?_, h.apart⟩⟩
  intro frame hf address ha hsaved
  have hstore : address ∈ e.stores := by
    simp only [stores, hop, Opcode.stores, Frame.saved, List.mem_cons, List.not_mem_nil,
      or_false] at ha ⊢
    simp only [fetched] at hsp
    omega
  have hret := (hs address hstore frame hf hsaved).1
  simp [hop] at hret

/-- A return finds in its frame what its call has saved there. -/
theorem Holds.closes (htop : e.Holds top) (hfp : e.fp = top.base) (hop : e.opcode? = some .ret)
    (hstep : step e = .ok result e') : Closes top e e' := by
  have hw := ((wrote_step e).of_ok hstep).1
  have ho := (meets_step_of_opcode hop (ret_closes e.fetched)).of_ok hstep
  obtain ⟨⟨hfp', hpc', hsp'⟩, hin, hvalue⟩ := ho
  have hstores : e.stores = [e'.sp] := by
    rw [hsp']
    simp only [stores, hop, Opcode.stores]
    rfl
  refine ⟨?_, ?_, ?_, hin, hvalue, fun address ha hne => hw.look ha ?_⟩
  · rw [hfp', ← htop.caller_eq, ← hfp]
    rfl
  · rw [hpc', ← htop.resume_eq, ← hfp]
    rfl
  · rw [hsp', ← hfp]
    rfl
  · rw [hstores, List.mem_singleton]
    exact hne

theorem Nested.closes (h : e.Nested (top :: rest)) (hop : e.opcode? = some .ret)
    (hstep : step e = .ok result e') : Closes top e e' :=
  h.chain.2.1.closes h.chain.1 hop hstep

/-- A return stores at most to the frame that it closes, which shares no cell with the others. -/
theorem Nested.ret (h : e.Nested (top :: rest)) (hs : e.Spares (top :: rest))
    (hop : e.opcode? = some .ret) (hstep : step e = .ok result e') : e'.Nested rest := by
  have hcaller := (h.closes hop hstep).fp_eq
  have hw := ((wrote_step e).of_ok hstep).1
  obtain ⟨⟨-, -, hchain⟩, hapart⟩ := h
  obtain ⟨htop, hrest⟩ := List.pairwise_cons.mp hapart
  refine ⟨?_, hrest⟩
  rw [hcaller]
  -- The cell stored to may be saved in the closed frame, and then in no other.
  refine hchain.of_look fun frame hf address ha => ?_
  refine hw.look ((hchain.holds frame hf).inMemory address ha) fun hstore => ?_
  obtain ⟨-, other, ho, hsaved⟩ := hs address hstore frame (List.mem_cons_of_mem _ hf) ha
  obtain rfl : top = other := Option.some.inj ho
  exact htop frame hf address hsaved ha

/-- What every step of a run keeps: the frames in memory are the open ones. -/
theorem Nested.step (he : e.InRange) (h : e.Nested frames) (hs : e.Spares frames)
    (hr : e.opcode? = some .ret → frames ≠ []) (hstep : step e = .ok result e') :
    e'.Nested (e.framesAfter e' frames) := by
  by_cases hcall : e.opcode? = some .call
  · simp only [framesAfter, hcall]
    exact h.call he hs hcall hstep
  · by_cases hret : e.opcode? = some .ret
    · obtain ⟨top, rest, rfl⟩ := List.exists_cons_of_ne_nil (hr hret)
      simp only [framesAfter, hret, List.tail_cons]
      exact h.ret hs hret hstep
    · have hafter : e.framesAfter e' frames = frames := by
        unfold framesAfter
        split
        · contradiction
        · contradiction
        · rfl
      rw [hafter]
      exact h.other hs hcall hret hstep

end Steps

end Ideal

/-! ### Runs -/

namespace NestedRun

variable {image : List Word} {m : Machine} {frames : List Frame}

theorem reachable (h : NestedRun image m frames) : Machine.Reachable .hardened m := by
  induction h with
  | @powerOn out m hload =>
      have h₀ : Machine.Reachable .hardened (.powerOn .hardened out) := .powerOn out
      have hp := h₀.perform (.load image)
      simp only [Machine.perform, hload] at hp
      exact hp
  | @step m m' _ _ _ hstep _ _ ih =>
      have hp := ih.perform .step
      simp only [Machine.perform, hstep, Operation.outcome] at hp
      exact hp

theorem step_ideal (h : NestedRun image m frames) {m' : Machine} {result : Option Word}
    (hstep : m.step = .ok result m') : Ideal.step m.ideal = .ok result m'.ideal := by
  have hb := h.reachable.bounded
  exact ((Machine.meets_step_ideal hb.hardened hb.frameSafe).of_ok hstep).2

theorem nested (h : NestedRun image m frames) : m.ideal.Nested frames := by
  induction h with
  | powerOn hload =>
      obtain ⟨memory, _, rfl⟩ := Machine.load_eq_ok hload
      exact ⟨rfl, .nil⟩
  | @step m m' frames result hrun hstep hr hs ih =>
      exact ih.step hrun.reachable.bounded.range hs hr (hrun.step_ideal hstep)

end NestedRun

/-- At every point of a run the frame pointer is the base of the innermost open frame, and every
return goes back to where that frame was opened from, with its value in the cell it names and all
other cells as they were. -/
theorem calls_nest {image : List Word} {m : Machine} {frames : List Frame}
    (h : NestedRun image m frames) :
    m.fp.toInt = (frames.head?.map Frame.base).getD 0 ∧
    ∀ result m', m.step = .ok result m' → m.ideal.opcode? = some .ret → frames ≠ [] →
      ∃ top, frames = top :: frames.tail ∧ Ideal.Closes top m.ideal m'.ideal := by
  constructor
  · cases frames with
    | nil => exact h.nested.chain
    | cons top rest => exact h.nested.chain.1
  · intro result m' hstep hop hne
    obtain ⟨top, rest, rfl⟩ := List.exists_cons_of_ne_nil hne
    exact ⟨top, rfl, h.nested.closes hop (h.step_ideal hstep)⟩

/-- A call of `pushc 9; return 1`, after the given number of steps. -/
def singleCall (steps : Nat) : Machine :=
  (((Machine.powerOn .hardened {}).perform (.load [6, 3, 0, 12, 9, 7, 1])).2.perform
    (.advance steps)).2

theorem calls_nest_single_call :
    NestedRun [6, 3, 0, 12, 9, 7, 1] (singleCall 2) [⟨65534, 2, 0⟩] ∧
    (singleCall 2).ideal.opcode? = some .ret ∧
    (singleCall 2).step = .ok none (singleCall 3) ∧
    (singleCall 2).fp.toInt = 65534 ∧
    ∃ top, [⟨65534, 2, 0⟩] = top :: [] ∧
      Ideal.Closes top (singleCall 2).ideal (singleCall 3).ideal := by
  have h₀ : NestedRun [6, 3, 0, 12, 9, 7, 1] (singleCall 0) [] := .powerOn (m := singleCall 0) rfl
  have hs₀ : (singleCall 0).step = .ok none (singleCall 1) := rfl
  have h₁ : NestedRun [6, 3, 0, 12, 9, 7, 1] (singleCall 1) [⟨65534, 2, 0⟩] :=
    h₀.step hs₀ (fun h => by cases h) fun _ _ _ hf => by cases hf
  have hs₁ : (singleCall 1).step = .ok none (singleCall 2) := rfl
  have h₂ : NestedRun [6, 3, 0, 12, 9, 7, 1] (singleCall 2) [⟨65534, 2, 0⟩] := by
    refine h₁.step hs₁ (fun h => by cases h) ?_
    have hstores : (singleCall 1).ideal.stores = [65533] := rfl
    rw [Ideal.Spares, hstores]
    decide
  have hop : (singleCall 2).ideal.opcode? = some .ret := rfl
  have hs₂ : (singleCall 2).step = .ok none (singleCall 3) := rfl
  obtain ⟨hfp, hret⟩ := calls_nest h₂
  exact ⟨h₂, hop, hs₂, hfp, hret none (singleCall 3) hs₂ hop (by simp)⟩

end CoolMachine
