import CoolMachine.Proofs.Assembly.Placement
import CoolMachine.Proofs.Machine.Flow
import CoolMachine.Proofs.Machine.Operation

/-! Assembled programs stay aligned. As long as its code is left alone, its jumps go to labels and
its returns to where calls have come from, a program runs from item to item: the machine counts the
words of an instruction as the assembler has counted them. -/

namespace CoolMachine.Assembly

/-- The operand on the line that control may go to. -/
def jumpOperand? (line : List Char) : Option (List Char) :=
  match wordsOf line with
  | [head, operand] =>
    match Opcode.ofMnemonic? head with
    | some .jmp | some .jeq | some .call => some operand
    | _ => none
  | _ => none

/-- The operand of every jump and call is the label of a line. -/
def JumpsToLabels (source : List Char) : Prop :=
  ∀ line ∈ lines source, ∀ operand ∈ jumpOperand? line,
    ∃ target ∈ lines source, labelOf target = some operand

instance (source : List Char) : Decidable (JumpsToLabels source) :=
  inferInstanceAs (Decidable (∀ line ∈ lines source, ∀ operand ∈ jumpOperand? line,
    ∃ target ∈ lines source, labelOf target = some operand))

/-- The cells of the image hold what they held before, as they do after a step that writes none
of them. -/
def Intact (image : List Word) (m m' : Machine) : Prop :=
  ∀ address < image.length,
    m'.memory.peek (UInt16.ofNat address) = m.memory.peek (UInt16.ofNat address)

instance (image : List Word) (m m' : Machine) : Decidable (Intact image m m') :=
  inferInstanceAs (Decidable (∀ address < image.length, _ = _))

/-- The program counter has come to a data word or to the end of the image. -/
def Arrived (source : List Char) (image : List Word) (m : Machine) : Prop :=
  m.pc.toInt = image.length ∨ ∃ i line, (itemLines source)[i]? = some line ∧ IsData line ∧
    m.pc.toInt = itemAddress source i

/-- The return addresses that calls have pushed, after a step from `m` to `m'`. -/
def returnsAfter (m m' : Machine) (returns : List Word) : List Word :=
  match m.opcode? with
  | some .call => m'.returnWord :: returns
  | _ => returns

/-- A run without a fault from power on, up to where the program counter first comes to a data word
or to the end of the image, beside the return addresses that its calls have pushed. No step changes
the image, and every return goes to a return address that a call has pushed. -/
inductive CodeRun (mode : Mode) (source : List Char) (image : List Word) :
    Machine → List Word → Prop where
  | powerOn {out : Sink Char} {m : Machine} :
      (Machine.powerOn mode out).load image = .ok m → CodeRun mode source image m []
  | step {m m' : Machine} {returns : List Word} {result : Option Word} :
      CodeRun mode source image m returns → ¬ Arrived source image m →
      m.step = .ok result m' → Intact image m m' →
      (m.opcode? = some .ret → ∃ word ∈ returns, m'.pc = word.address) →
      CodeRun mode source image m' (returnsAfter m m' returns)

/-- The machine is at the item with index `i`, or at the end of the image behind the last one. An
instruction that stands there is executed as it is written on its line, and leads to the next item
unless it jumps. -/
structure Aligned (source : List Char) (image : List Word) (m : Machine) (i : Nat) : Prop where
  index_le : i ≤ (itemLines source).length
  pc_eq : m.pc.toInt = itemAddress source i
  end_eq : i = (itemLines source).length → m.pc.toInt = image.length
  placed : ∀ line, (itemLines source)[i]? = some line → ∃ words, Places source image i line words
  instruction : ∀ line, (itemLines source)[i]? = some line → ¬ IsData line →
    ∃ op, m.opcodeWord = op.code ∧ Emits (Defines (lines source)) line (m.fetches op) ∧
      ∀ result m', m.halted = none → ¬ m.Jumps op → m.step = .ok result m' →
        m'.pc.toInt = itemAddress source (i + 1)

/-! ### Instructions on lines -/

section Lines

variable {labelled : List Char → Nat → Prop} {line : List Char} {words : List Word}

/-- What stands for a label is its address. -/
theorem Denotes.toNat_eq {text : List Char} {word : Word} {address : Nat}
    (h : Denotes labelled text word) (hl : labelled text address) : labelled text word.toNat := by
  cases h with
  | label h => exact h
  | number hn => exact absurd hl (hn address)

theorem Emits.exists_opcode (h : Emits labelled line words) (hn : words ≠ [])
    (hd : ¬ IsData line) :
    ∃ op : Opcode, ∃ operand : Option Word, words = op.code :: operand.toList ∧
      operand.isSome = op.takesOperand := by
  cases h with
  | nothing => exact absurd rfl hn
  | @opcode head op _ _ hk =>
      refine ⟨op, none, rfl, ?_⟩
      simpa using (takesOperand_iff op).not.mpr (not_not.mpr hk)
  | @operand head text op word _ _ hk _ =>
      exact ⟨op, some word, rfl, ((takesOperand_iff op).mpr hk).symm⟩
  | data hw => exact absurd (by rw [IsData, hw]; rfl) hd

/-- The word behind a jump or call stands for the operand that control may go to. -/
theorem Emits.jumpOperand {op : Opcode} {word : Word} (h : Emits labelled line [op.code, word])
    (hop : op = .jmp ∨ op = .jeq ∨ op = .call) :
    ∃ operand ∈ jumpOperand? line, Denotes labelled operand word := by
  generalize hwords : [op.code, word] = words at h
  cases h with
  | nothing => cases hwords
  | opcode => simp at hwords
  | data => simp at hwords
  | @operand head text other value hw hm _ hd =>
      obtain ⟨hcode, hvalue⟩ := List.cons.inj hwords
      obtain rfl := Opcode.code_inj.mp hcode
      obtain rfl := (List.cons.inj hvalue).1
      refine ⟨text, ?_, hd⟩
      rcases hop with rfl | rfl | rfl <;> simp [jumpOperand?, hw, hm]

end Lines

/-! ### Steps -/

/-- The image in memory. -/
def Holds (image : List Word) (m : Machine) : Prop :=
  ∀ address word, image[address]? = some word → m.memory.peek (UInt16.ofNat address) = word

section Steps

variable {source : List Char} {image : List Word} {m m' : Machine} {i : Nat}

theorem Holds.of_intact (h : Holds image m) (hi : Intact image m m') : Holds image m' := by
  intro address word hw
  rw [hi address (List.getElem?_eq_some_iff.mp hw).1]
  exact h address word hw

/-- What is fetched at the place of an instruction is what the instruction emits. -/
theorem Places.exists_fetches {line : List Char} {words : List Word}
    (hp : Places source image i line words) (hfit : image.length ≤ memoryWords)
    (hm : Holds image m) (hpc : m.pc.toInt = itemAddress source i) (hd : ¬ IsData line) :
    ∃ op, m.opcodeWord = op.code ∧ words = m.fetches op := by
  obtain ⟨rest, hrest⟩ := hp.image_eq
  have hcell : ∀ j word, words[j]? = some word →
      m.memory.peek (UInt16.ofNat (itemAddress source i + j)) = word := by
    intro j word hj
    apply hm
    rw [← List.getElem?_drop, ← hrest, List.getElem?_append_left]
    · exact hj
    · exact (List.getElem?_eq_some_iff.mp hj).1
  obtain ⟨op, operand, rfl, hoperand⟩ := hp.emits.exists_opcode hp.ne_nil hd
  have hop : m.opcodeWord = op.code := by
    rw [Machine.opcodeWord, Word.ofRegister_eq_ofNat hpc]
    exact hcell 0 op.code rfl
  refine ⟨op, hop, ?_⟩
  cases operand with
  | none =>
      rw [Machine.fetches, ← hoperand, hop]
      rfl
  | some word =>
      have hlt : itemAddress source i < image.length := by
        by_contra hge
        rw [List.drop_eq_nil_of_le (Nat.not_lt.mp hge)] at hrest
        cases hrest
      have hnext : (m.pc + 1).toInt = (itemAddress source i + 1 : Nat) := by
        have hbound : image.length ≤ 65536 := hfit
        rw [Register.toInt_succ (by omega), hpc]
        rfl
      have hword : m.operandWord = word := by
        rw [Machine.operandWord, Word.ofRegister_eq_ofNat hnext]
        exact hcell 1 word rfl
      rw [Machine.fetches, ← hoperand, hop, hword]
      rfl

/-- Control behind an instruction is control at the next item. -/
theorem Places.toInt_behind {line : List Char} {op : Opcode}
    (hw : Places source image i line (m.fetches op)) (hp : Placement source image)
    (hfit : image.length ≤ memoryWords) (hpc : m.pc.toInt = itemAddress source i) :
    (m.behind op).toInt = itemAddress source (i + 1) := by
  have hle : m.pc.toInt ≤ 65536 := by
    rw [hpc]
    exact Int.ofNat_le.mpr (Nat.le_trans (hp.itemAddress_le i) hfit)
  rw [Machine.toInt_behind hle, hpc, hw.next_eq]
  rfl

end Steps

/-- What every step of a run keeps: the image is in memory, the machine is at an item or at the
end, and so it will be behind every return. -/
structure OnCourse (source : List Char) (image : List Word) (m : Machine)
    (returns : List Word) : Prop where
  holds : Holds image m
  at_item : ∃ i ≤ (itemLines source).length, m.pc.toInt = itemAddress source i
  returns : ∀ word ∈ returns, ∃ i ≤ (itemLines source).length, word.toNat = itemAddress source i

section Runs

variable {source : List Char} {image : List Word} {m m' : Machine} {returns : List Word}
  {result : Option Word}

theorem Holds.of_load {m₀ : Machine} (h : m₀.load image = .ok m) : Holds image m := by
  have hfit := Machine.length_le_of_load h
  obtain ⟨memory, hload, rfl⟩ := Machine.load_eq_ok h
  intro address word hw
  have hlt : address < 65536 :=
    Nat.lt_of_lt_of_le (List.getElem?_eq_some_iff.mp hw).1 hfit
  rw [Memory.peek_load hload, UInt16.toNat_ofNat_of_lt' hlt, hw]
  rfl

/-- A machine that has not arrived yet stands at an instruction. -/
theorem OnCourse.exists_instruction (hp : Placement source image)
    (hfit : image.length ≤ memoryWords) (h : OnCourse source image m returns)
    (ha : ¬ Arrived source image m) :
    ∃ i < (itemLines source).length, ∃ line op, m.pc.toInt = itemAddress source i ∧
      m.opcodeWord = op.code ∧ Places source image i line (m.fetches op) := by
  obtain ⟨i, hi, hpc⟩ := h.at_item
  obtain rfl | hlt := Nat.eq_or_lt_of_le hi
  · exact absurd (.inl (hp.end_eq ▸ hpc)) ha
  · have hline := List.getElem?_eq_getElem hlt
    have hd : ¬ IsData (itemLines source)[i] := fun hd => ha (.inr ⟨i, _, hline, hd, hpc⟩)
    obtain ⟨words, hwords⟩ := hp.places i _ hline
    obtain ⟨op, hop, rfl⟩ := hwords.exists_fetches hfit h.holds hpc hd
    exact ⟨i, hlt, _, op, hpc, hop, hwords⟩

/-- The operand of a jump or call is the address of an item. -/
theorem Places.exists_target {i : Nat} {line : List Char} {op : Opcode}
    (hw : Places source image i line (m.fetches op)) (hp : Placement source image)
    (hj : JumpsToLabels source) (hop : m.opcodeWord = op.code)
    (hjump : op = .jmp ∨ op = .jeq ∨ op = .call) :
    ∃ j ≤ (itemLines source).length, m.operandWord.toNat = itemAddress source j := by
  have hfetches : m.fetches op = [op.code, m.operandWord] := by
    rw [Machine.fetches, hop]
    rcases hjump with rfl | rfl | rfl <;> rfl
  have hemits := hw.emits
  rw [hfetches] at hemits
  obtain ⟨operand, ho, hdenotes⟩ := hemits.jumpOperand hjump
  obtain ⟨target, ht, hl⟩ := hj line hw.mem_lines operand ho
  obtain ⟨address, hdefines⟩ := exists_defines ht hl
  exact hp.labels operand _ (hdenotes.toNat_eq hdefines)

/-- A step of an instruction leads to an item or to the end. -/
theorem OnCourse.exists_next {i : Nat} {line : List Char} {op : Opcode}
    (h : OnCourse source image m returns) (hp : Placement source image)
    (hfit : image.length ≤ memoryWords) (hj : JumpsToLabels source)
    (hi : i < (itemLines source).length) (hpc : m.pc.toInt = itemAddress source i)
    (hop : m.opcodeWord = op.code) (hw : Places source image i line (m.fetches op))
    (hnext : m'.pc = m.next op) (hr : op = .ret → ∃ word ∈ returns, m'.pc = word.address) :
    ∃ j ≤ (itemLines source).length, m'.pc.toInt = itemAddress source j := by
  by_cases hjumps : m.Jumps op
  · have htarget : op = .jmp ∨ op = .jeq ∨ op = .call → m'.pc = m.operandWord.address →
        ∃ j ≤ (itemLines source).length, m'.pc.toInt = itemAddress source j := by
      intro hop' hpc'
      obtain ⟨j, hj, htoNat⟩ := hw.exists_target hp hj hop hop'
      exact ⟨j, hj, by rw [hpc', Word.toInt_address, htoNat]⟩
    rcases hjumps with rfl | rfl | rfl | ⟨rfl, htop⟩
    · exact htarget (.inl rfl) hnext
    · exact htarget (.inr (.inr rfl)) hnext
    · obtain ⟨word, hword, hpc'⟩ := hr rfl
      obtain ⟨j, hj, htoNat⟩ := h.returns word hword
      exact ⟨j, hj, by rw [hpc', Word.toInt_address, htoNat]⟩
    · exact htarget (.inr (.inl rfl)) (by rw [hnext, Machine.next, if_pos htop])
  · refine ⟨i + 1, hi, ?_⟩
    rw [hnext, Machine.next_of_not_jumps hjumps]
    exact hw.toInt_behind hp hfit hpc

/-- A call pushes the address of the next item. Where that is the end of memory, what it pushes
is the address of the first one. -/
theorem Places.exists_return {i : Nat} {line : List Char}
    (hw : Places source image i line (m.fetches .call)) (hp : Placement source image)
    (hfit : image.length ≤ memoryWords) (hi : i < (itemLines source).length)
    (hpc : m.pc.toInt = itemAddress source i) :
    ∃ j ≤ (itemLines source).length,
      (Word.ofRegister (m.behind .call)).toNat = itemAddress source j := by
  have hbehind := hw.toInt_behind hp hfit hpc
  have htoNat := Word.toNat_ofRegister (m.behind .call)
  have hle : itemAddress source (i + 1) ≤ 65536 := Nat.le_trans (hp.itemAddress_le (i + 1)) hfit
  rw [hbehind] at htoNat
  obtain hlt | heq := Nat.lt_or_eq_of_le hle
  · exact ⟨i + 1, hi, by omega⟩
  · have hzero : itemAddress source 0 = 0 := rfl
    exact ⟨0, Nat.zero_le _, by omega⟩

theorem OnCourse.step (hp : Placement source image) (hfit : image.length ≤ memoryWords)
    (hj : JumpsToLabels source) (h : OnCourse source image m returns)
    (ha : ¬ Arrived source image m) (hstep : m.step = .ok result m')
    (hintact : Intact image m m')
    (hr : m.opcode? = some .ret → ∃ word ∈ returns, m'.pc = word.address) :
    OnCourse source image m' (returnsAfter m m' returns) := by
  obtain ⟨i, hi, line, op, hpc, hop, hw⟩ := h.exists_instruction hp hfit ha
  cases hh : m.halted with
  | some word =>
      rw [Machine.step_of_halted hh] at hstep
      cases hstep
      simpa only [returnsAfter, Machine.opcode?, hh] using h
  | none =>
      have hop? := Machine.opcode?_eq hh hop
      have hnext := Machine.pc_step hop? hstep
      refine ⟨h.holds.of_intact hintact, ?_, fun word hword => ?_⟩
      · exact h.exists_next hp hfit hj hi hpc hop hw hnext fun hret => hr (hret ▸ hop?)
      · by_cases hcall : op = .call
        · subst hcall
          simp only [returnsAfter, hop?, List.mem_cons] at hword
          rcases hword with rfl | hword
          · rw [Machine.returnWord_step hop? hstep]
            exact hw.exists_return hp hfit hi hpc
          · exact h.returns word hword
        · have hafter : returnsAfter m m' returns = returns := by
            rw [returnsAfter, hop?]
            split
            · rename_i heq
              exact absurd (Option.some.inj heq) hcall
            · rfl
          exact h.returns word (hafter ▸ hword)

theorem CodeRun.length_le {mode : Mode} (h : CodeRun mode source image m returns) :
    image.length ≤ memoryWords := by
  induction h with
  | powerOn hload => exact Machine.length_le_of_load hload
  | step _ _ _ _ _ ih => exact ih

theorem CodeRun.onCourse {mode : Mode} (h : CodeRun mode source image m returns)
    (hp : Placement source image) (hj : JumpsToLabels source) :
    OnCourse source image m returns := by
  induction h with
  | powerOn hload =>
      refine ⟨Holds.of_load hload, ⟨0, Nat.zero_le _, ?_⟩, by simp⟩
      obtain ⟨memory, -, rfl⟩ := Machine.load_eq_ok hload
      rfl
  | step hrun ha hstep hintact hr ih => exact ih.step hp hrun.length_le hj ha hstep hintact hr

/-- Wherever a machine is that is on course, it is aligned. -/
theorem OnCourse.aligned (h : OnCourse source image m returns) (hp : Placement source image)
    (hfit : image.length ≤ memoryWords) : ∃ i, Aligned source image m i := by
  obtain ⟨i, hi, hpc⟩ := h.at_item
  refine ⟨i, hi, hpc, fun hend => ?_, hp.places i, fun line hline hd => ?_⟩
  · rw [hpc, hend, hp.end_eq]
  · obtain ⟨words, hwords⟩ := hp.places i line hline
    obtain ⟨op, hop, rfl⟩ := hwords.exists_fetches hfit h.holds hpc hd
    refine ⟨op, hop, hwords.emits, fun result m' hh hjumps hstep => ?_⟩
    rw [Machine.pc_step (Machine.opcode?_eq hh hop) hstep, Machine.next_of_not_jumps hjumps]
    exact hwords.toInt_behind hp hfit hpc

end Runs

/-- Assembled programs stay aligned, in either mode: at every step boundary of a run the program
counter is the address of an item, or the end of the image, and what is executed there is what the
line of the item says. -/
theorem programs_stay_aligned {source : List Char} {image : List Word}
    (h : assemble source = .ok image) (hj : JumpsToLabels source) {mode : Mode} {m : Machine}
    {returns : List Word} (hrun : CodeRun mode source image m returns) :
    ∃ i, Aligned source image m i := by
  have hp := placement_of_assemble h
  exact (hrun.onCourse hp hj).aligned hp hrun.length_le

/-- A call of a routine that stands behind the end of the program. -/
def callSource : List Char := "call f\nhalt\nf: pushc 9\nreturn 1".toList

/-- The compatible machine with the image of `callSource`, after the given number of steps. -/
def calling (steps : Nat) : Machine :=
  (((Machine.powerOn .compatible {}).perform (.load [6, 3, 0, 12, 9, 7, 1])).2.perform
    (.advance steps)).2

theorem programs_stay_aligned_call :
    assemble callSource = .ok [6, 3, 0, 12, 9, 7, 1] ∧ JumpsToLabels callSource ∧
      CodeRun .compatible callSource [6, 3, 0, 12, 9, 7, 1] (calling 3) [2] ∧
      ∃ i, Aligned callSource [6, 3, 0, 12, 9, 7, 1] (calling 3) i := by
  have h : assemble callSource = .ok [6, 3, 0, 12, 9, 7, 1] := rfl
  have hj : JumpsToLabels callSource := by decide +kernel
  have hdata : ∀ line ∈ itemLines callSource, ¬ IsData line := by
    unfold IsData
    decide +kernel
  have hcode : ∀ m : Machine, m.pc.toInt < 7 →
      ¬ Arrived callSource [6, 3, 0, 12, 9, 7, 1] m := by
    rintro m hpc (hend | ⟨i, line, hline, hd, -⟩)
    · simp only [List.length_cons, List.length_nil] at hend
      omega
    · exact hdata line (List.mem_of_getElem? hline) hd
  have h₀ : CodeRun .compatible callSource [6, 3, 0, 12, 9, 7, 1] (calling 0) [] :=
    .powerOn (m := calling 0) rfl
  have hs₀ : (calling 0).step = .ok none (calling 1) := rfl
  have hs₁ : (calling 1).step = .ok none (calling 2) := rfl
  have hs₂ : (calling 2).step = .ok none (calling 3) := rfl
  have h₁ : CodeRun .compatible callSource [6, 3, 0, 12, 9, 7, 1] (calling 1) [2] :=
    h₀.step (hcode _ (by decide)) hs₀ (by decide) fun hop => by cases hop
  have h₂ : CodeRun .compatible callSource [6, 3, 0, 12, 9, 7, 1] (calling 2) [2] :=
    h₁.step (hcode _ (by decide)) hs₁ (by decide) fun hop => by cases hop
  have h₃ : CodeRun .compatible callSource [6, 3, 0, 12, 9, 7, 1] (calling 3) [2] :=
    h₂.step (hcode _ (by decide)) hs₂ (by decide) fun _ => ⟨2, List.mem_cons_self, rfl⟩
  exact ⟨h, hj, h₃, programs_stay_aligned h hj h₃⟩

end CoolMachine.Assembly
