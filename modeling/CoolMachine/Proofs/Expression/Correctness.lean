import CoolMachine.Proofs.Expression.Execution

/-! Programs of arithmetic expressions compute what their trees say. The expressions are printed
one after the other until a division by zero stops the machine or the last value is its result. -/

namespace CoolMachine

namespace Ideal

/-- The machine is about to run the code of the printed expressions and of the last one. -/
structure HostsAll (printed : List Expr) (last : Expr) (e : Ideal) : Prop where
  running : e.halted = none
  code : e.Contains e.pc (Calculation.codeOf printed last)
  pc_nonneg : 0 ≤ e.pc
  room : ∀ tree ∈ printed ++ [last],
    e.pc + (Calculation.codeOf printed last).length + tree.depth ≤ 65536
  sp_eq : e.sp = 65536
  unlimited : e.out.room = none

/-- Within the given number of steps the run ends as the evaluation does, having printed the
text. -/
def Ends (steps : Nat) (e : Ideal) (text : List Char) (result : Except Nat Int) : Prop :=
  ∃ e₁ e₂, Run.Path step steps e e₁ ∧ e₂.out.contents = e.out.contents ++ text ∧
    match result with
    | .ok value =>
      ∃ word, step e₁ = .ok (some word) e₂ ∧ e₂.halted = some word ∧ word.signed.toInt = value
    | .error division =>
      step e₁ = .error ⟨division, some (Opcode.div.code, none), .arithmetic⟩ e₂

section Calculations

variable {e e' : Ideal} {printed rest : List Expr} {tree last : Expr} {address n k : Nat}
  {text text' : List Char} {result : Except Nat Int} {value : Int}

theorem Ends.of_path (hp : Run.Path step n e e') (ho : e'.out.contents = e.out.contents ++ text)
    (h : Ends k e' text' result) : Ends (n + k) e (text ++ text') result := by
  obtain ⟨e₁, e₂, hp', ho', hr⟩ := h
  refine ⟨e₁, e₂, hp.trans hp', ?_, hr⟩
  rw [ho', ho, List.append_assoc]

theorem Ends.mono (h : Ends n e text result) (hk : n ≤ k) : Ends k e text result := by
  obtain ⟨e₁, e₂, hp, hr⟩ := h
  exact ⟨e₁, e₂, hp.mono hk, hr⟩

theorem DividesByZero.ends {division : Nat} (h : DividesByZero n e division) :
    Ends n e [] (.error division) := by
  obtain ⟨e₁, e₂, hp, ho, hs⟩ := h
  exact ⟨e₁, e₂, hp, by rw [ho, List.append_nil], hs⟩

theorem codeOf_cons : Calculation.codeOf (tree :: rest) last =
    tree.code ++ (Opcode.printi.code :: Calculation.codeOf rest last) := by
  simp [Calculation.codeOf]

theorem hosts_last (h : HostsAll [] last e) : Hosts last e ∧
    e.Contains (e.pc + last.code.length) [Opcode.halt.code] := by
  obtain ⟨hcode, hhalt⟩ := contains_append.mp h.code
  have hroom := h.room last List.mem_cons_self
  have hsp := h.sp_eq
  simp only [Calculation.codeOf, List.length_append, List.flatMap_nil, List.nil_append] at hroom
  exact ⟨⟨h.running, hcode, h.pc_nonneg, by omega, by omega⟩, hhalt⟩

theorem hosts_first (h : HostsAll (tree :: rest) last e) : Hosts tree e ∧
    e.Contains (e.pc + tree.code.length) (Opcode.printi.code :: Calculation.codeOf rest last) := by
  have hcode := h.code
  rw [codeOf_cons, contains_append] at hcode
  have hroom := h.room tree List.mem_cons_self
  have hsp := h.sp_eq
  rw [codeOf_cons, List.length_append] at hroom
  exact ⟨⟨h.running, hcode.1, h.pc_nonneg, by omega, by omega⟩, hcode.2⟩

/-- What stands behind the code of an expression is still there after its evaluation, as long as
it lies below the stack. -/
theorem Evaluated.contains (he : Evaluated tree value e e') (h : Hosts tree e) {words : List Word}
    (hw : e.Contains (e.pc + tree.code.length) words)
    (hfit : e.pc + tree.code.length + words.length + tree.depth ≤ e.sp) :
    e'.Contains e'.pc words := by
  rw [he.pc_eq]
  have hpc := h.pc_nonneg
  have hsp := h.sp_le
  refine hw.of_look fun other h₀ h₁ => he.others_eq other ⟨by omega, by omega⟩ (.inl (by omega))

/-- Printing the value of an expression leads to the code of the others. -/
theorem prints_first (h : HostsAll (tree :: rest) last e) (he : Evaluated tree value e e') :
    ∃ e₁, step e' = .ok none e₁ ∧ e₁.pc = e.pc + tree.code.length + 1 ∧
      e₁.out.contents = e.out.contents ++ Decimal.ofInt value ∧ HostsAll rest last e₁ := by
  obtain ⟨htree, hbehind⟩ := hosts_first h
  have hroom := h.room
  simp only [codeOf_cons, List.length_append, List.length_cons] at hroom
  have hfirst := hroom tree List.mem_cons_self
  have hcode := he.contains htree hbehind (by
    rw [h.sp_eq, List.length_cons]
    omega)
  have hpc := he.pc_eq
  have hsp := he.sp_eq
  have hpc₀ := h.pc_nonneg
  have hsp₀ := h.sp_eq
  obtain ⟨e₁, hs, ⟨hpc₁, hsp₁, hh₁⟩, ho₁, hl₁⟩ := step_printi he.running hcode.1
    ⟨by omega, by omega⟩ ⟨by omega, by omega⟩ (he.out_eq ▸ h.unlimited)
  refine ⟨e₁, hs, by omega, ?_, hh₁, ?_, by omega, fun other ho => ?_, by omega, by rw [ho₁]⟩
  · rw [ho₁, he.value_eq, he.out_eq]
    simp only [Sink.contents, List.reverse_append, List.reverse_reverse]
  · rw [hpc₁]
    exact hcode.2.of_look fun other _ _ => hl₁ other
  · have hother := hroom other (List.mem_cons_of_mem _ ho)
    omega

/-- Behind the last expression the machine halts with its value. -/
theorem halts_last (h : HostsAll [] last e) (he : Evaluated last value e e') :
    ∃ e₁ word, step e' = .ok (some word) e₁ ∧ e₁.halted = some word ∧
      word.signed.toInt = value ∧ e₁.out = e.out := by
  obtain ⟨hlast, hbehind⟩ := hosts_last h
  have hroom := h.room last List.mem_cons_self
  simp only [Calculation.codeOf, List.length_append, List.flatMap_nil, List.nil_append,
    List.length_singleton] at hroom
  have hcode := he.contains hlast hbehind (by
    rw [h.sp_eq, List.length_singleton]
    omega)
  have hpc := he.pc_eq
  have hsp := he.sp_eq
  have hpc₀ := h.pc_nonneg
  have hsp₀ := h.sp_eq
  obtain ⟨e₁, hs, hh, ho⟩ := step_halt he.running hcode.1 ⟨by omega, by omega⟩ ⟨by omega, by omega⟩
  exact ⟨e₁, _, hs, hh, he.value_eq, ho.trans he.out_eq⟩

/-- The program ends as the evaluation of its expressions does, one after the other. -/
theorem ends_evalFrom (h : HostsAll printed last e) (hpc : e.pc = address) :
    Ends (Calculation.codeOf printed last).length e
      ((Calculation.evalFrom last address printed).1.flatMap Decimal.ofInt)
      (Calculation.evalFrom last address printed).2 := by
  -- Each printed value empties the stack again, so the rest runs under the same conditions.
  induction printed generalizing e address with
  | nil =>
      have heval := evaluates last (hosts_last h).1 hpc
      have hlen : last.code.length ≤ (Calculation.codeOf [] last).length := by
        simp [Calculation.codeOf]
      rw [Calculation.evalFrom, List.flatMap_nil]
      cases hv : last.eval address with
      | error division =>
          rw [hv] at heval
          exact heval.ends.mono hlen
      | ok value =>
          rw [hv] at heval
          obtain ⟨e', hp, he⟩ := heval
          obtain ⟨e₁, word, hs, hh, hword, ho⟩ := halts_last h he
          exact ⟨e', e₁, hp.mono hlen, by rw [ho, List.append_nil], word, hs, hh, hword⟩
  | cons tree rest ih =>
      have heval := evaluates tree (hosts_first h).1 hpc
      have hlen : (Calculation.codeOf (tree :: rest) last).length =
          tree.code.length + 1 + (Calculation.codeOf rest last).length := by
        rw [codeOf_cons, List.length_append, List.length_cons]
        omega
      rw [hlen, Calculation.evalFrom]
      cases hv : tree.eval address with
      | error division =>
          rw [hv] at heval
          exact heval.ends.mono (by omega)
      | ok value =>
          rw [hv] at heval
          obtain ⟨e', hp, he⟩ := heval
          obtain ⟨e₁, hs, hpc₁, ho, hrest⟩ := prints_first h he
          have hpc₂ : e₁.pc = (address + tree.code.length + 1 : Nat) := by omega
          have hends := ih hrest hpc₂
          simp only [List.flatMap_cons]
          exact hends.of_path (hp.trans (.single hs)) ho

end Calculations

/-- The image lies where loading puts it. -/
theorem contains_load {memory memory' : Memory} {image : List Word}
    (h : memory.load image = .ok memory') {e : Ideal} (he : e.memory = memory') :
    e.Contains 0 image := by
  have hlen : image.length ≤ 65536 := by
    unfold Memory.load at h
    split at h
    · assumption
    · cases h
  refine contains_of_getElem? fun i value hi => ?_
  have hlt := (List.getElem?_eq_some_iff.mp hi).1
  have hword : (word (0 + i)).toNat = i := by
    have hw := toNat_word (0 + i)
    omega
  rw [look, he, Memory.peek_load h, hword, hi, Option.getD_some]

end Ideal

/-! ### Programs -/

theorem Calculation.depth_le (c : Calculation) {tree : Expr}
    (h : tree ∈ c.printed ++ [c.last]) : tree.depth ≤ c.depth := by
  unfold depth
  generalize c.printed ++ [c.last] = trees at h ⊢
  induction trees with
  | nil => cases h
  | cons other rest ih =>
      rw [List.map_cons, List.foldr_cons]
      rcases List.mem_cons.mp h with rfl | h
      · exact Nat.le_max_left _ _
      · exact Nat.le_trans (ih h) (Nat.le_max_right _ _)

theorem Ideal.hostsAll_load (c : Calculation) {out : Sink Char} (hout : out.room = none)
    (hfit : c.code.length + c.depth ≤ 65536) {m : Machine}
    (hload : (Machine.powerOn .hardened out).load c.code = .ok m) :
    m.ideal.HostsAll c.printed c.last := by
  obtain ⟨memory, hmem, rfl⟩ := Machine.load_eq_ok hload
  refine ⟨rfl, contains_load hmem rfl, Int.le_refl 0, fun tree ht => ?_, rfl, hout⟩
  have hdepth := c.depth_le ht
  have hlen : (Calculation.codeOf c.printed c.last).length = c.code.length := rfl
  change (0 : Int) + _ + _ ≤ 65536
  omega

theorem FaultCause.eq_arithmetic_of_ideal {purpose : Purpose} {cause : FaultCause}
    (h : cause.ideal purpose = .arithmetic) : cause = .arithmetic := by
  cases cause with
  | arithmetic => rfl
  | address a => cases h
  | stackOverflow sp => cases h
  | stackUnderflow sp => cases h
  | illegalInstruction word => cases h
  | output error => cases h

/-- The machine is left as its run over the integers says. -/
theorem runToHalt_of_ends {m : Machine} (hm : m.Bounded) {steps : Nat}
    (hsteps : steps < Run.endless) {text : List Char} {result : Except Nat Int}
    (h : Ideal.Ends steps m.ideal text result) :
    match result with
    | .ok value => ∃ word m', m.runToHalt = .ok (some word) m' ∧
        (m'.halted = some word ∧ word.signed.toInt = value) ∧
        m'.out.contents = m.out.contents ++ text
    | .error division => ∃ fault m', m.runToHalt = .error fault m' ∧
        (fault.pc.toInt = division ∧ fault.instruction = some (Opcode.div.code, none) ∧
          fault.cause = .arithmetic) ∧
        m'.out.contents = m.out.contents ++ text := by
  obtain ⟨e₁, e₂, hp, ho, hr⟩ := h
  have hrun := hm.meets_runToHalt_ideal
  unfold Meets at hrun
  cases result with
  | ok value =>
      obtain ⟨word, hs, hh, hword⟩ := hr
      rw [hp.untilResult hsteps (by simp [hs]), hs] at hrun
      cases hx : m.runToHalt with
      | ok answer m' =>
          simp only [hx, EStateM.Result.ok.injEq] at hrun
          obtain ⟨rfl, rfl⟩ := hrun
          exact ⟨word, m', rfl, ⟨hh, hword⟩, ho⟩
      | error fault m' =>
          simp only [hx] at hrun
          obtain ⟨_, hrun⟩ := hrun
          cases hrun
  | error division =>
      rw [hp.untilResult hsteps (by simp [hr]), hr] at hrun
      cases hx : m.runToHalt with
      | ok answer m' =>
          simp only [hx] at hrun
          cases hrun
      | error fault m' =>
          simp only [hx, EStateM.Result.error.injEq, Fault.ideal, Ideal.Fault.mk.injEq] at hrun
          obtain ⟨purpose, ⟨hpc, hi, hcause⟩, rfl⟩ := hrun
          have harith := FaultCause.eq_arithmetic_of_ideal hcause.symm
          exact ⟨fault, m', rfl, ⟨hpc.symm, hi.symm, harith⟩, ho⟩

/-- A program whose code and stack fit in memory together prints the values of its expressions and
halts with the last one, all computed exactly and reduced to a signed word at every node. If a
division by zero comes first it faults there, with the values before it printed. -/
theorem calculation_runs (c : Calculation) (out : Sink Char) (hout : out.room = none)
    (hfit : c.code.length + c.depth ≤ 65536) :
    ∃ m, (Machine.powerOn .hardened out).load c.code = .ok m ∧
      match c.eval with
      | (values, .ok value) => ∃ result m', m.runToHalt = .ok (some result) m' ∧
          (m'.halted = some result ∧ result.signed.toInt = value) ∧
          m'.out.contents = out.contents ++ values.flatMap Decimal.ofInt
      | (values, .error division) => ∃ fault m', m.runToHalt = .error fault m' ∧
          (fault.pc.toInt = division ∧ fault.instruction = some (Opcode.div.code, none) ∧
            fault.cause = .arithmetic) ∧
          m'.out.contents = out.contents ++ values.flatMap Decimal.ofInt := by
  have hlen : c.code.length ≤ 65536 := by omega
  obtain ⟨m, hload⟩ := Machine.load_of_le (m := .powerOn .hardened out) hlen
  have hb := (Machine.bounded_powerOn out).load hload
  have hsteps : c.code.length < Run.endless := Nat.lt_of_le_of_lt hlen (by decide)
  have heval : Calculation.evalFrom c.last 0 c.printed = c.eval := rfl
  have hhosts := Ideal.hostsAll_load c hout hfit hload
  refine ⟨m, hload, ?_⟩
  obtain ⟨memory, hmem, rfl⟩ := Machine.load_eq_ok hload
  have hends := Ideal.ends_evalFrom hhosts Int.ofNat_zero.symm
  rw [heval] at hends
  rcases hc : c.eval with ⟨values, result⟩
  rw [hc] at hends
  have hrun := runToHalt_of_ends hb hsteps hends
  cases result with
  | ok value => exact hrun
  | error division => exact hrun

/-- Prints -32768 / -1, which wraps, and then divides by zero. -/
def overflowBeforeDivision : Calculation :=
  ⟨[.node .div (.const 0x8000) (.const 0xFFFF)], .node .div (.const 1) (.const 0)⟩

theorem calculation_runs_overflow_before_division :
    overflowBeforeDivision.code.length + overflowBeforeDivision.depth ≤ 65536 ∧
    overflowBeforeDivision.eval = ([-32768], .error 10) ∧
    ∃ m fault m', (Machine.powerOn .hardened {}).load overflowBeforeDivision.code = .ok m ∧
      m.runToHalt = .error fault m' ∧
      (fault.pc.toInt = 10 ∧ fault.instruction = some (5, none) ∧ fault.cause = .arithmetic) ∧
      m'.out.contents = "-32768".toList := by
  have hfit : overflowBeforeDivision.code.length + overflowBeforeDivision.depth ≤ 65536 := by decide
  have heval : overflowBeforeDivision.eval = ([-32768], .error 10) := rfl
  obtain ⟨m, hload, hrun⟩ := calculation_runs overflowBeforeDivision {} rfl hfit
  rw [heval] at hrun
  obtain ⟨fault, m', hx, hfault, hout⟩ := hrun
  exact ⟨hfit, heval, m, fault, m', hload, hx, hfault, hout⟩

end CoolMachine
