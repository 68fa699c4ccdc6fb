import CoolMachine.Proofs.Expression.Basic
import CoolMachine.Proofs.Ideal.Footprint
import CoolMachine.Proofs.Path
import CoolMachine.Proofs.Register.Range

/-! Running the code of arithmetic expressions. The code lies below the stack, and an evaluation
uses only as many cells below the stack pointer as the expression is deep, so neither the code nor
the operands that wait further up are overwritten. -/

namespace CoolMachine

namespace Ideal

/-- The words lie in consecutive cells from the address on. -/
def Contains (e : Ideal) : Int → List Word → Prop
  | _, [] => True
  | address, word :: words => e.look address = word ∧ Contains e (address + 1) words

section Code

variable {e e' : Ideal} {address : Int} {words : List Word}

theorem contains_append {words' : List Word} : e.Contains address (words ++ words') ↔
    e.Contains address words ∧ e.Contains (address + words.length) words' := by
  induction words generalizing address with
  | nil => simp [Contains]
  | cons word words ih =>
      have hlen : address + 1 + words.length = address + (word :: words).length := by
        rw [List.length_cons]
        omega
      rw [List.cons_append, Contains, Contains, ih, hlen, and_assoc]

theorem Contains.of_look (h : e.Contains address words)
    (hl : ∀ a, address ≤ a → a < address + words.length → e'.look a = e.look a) :
    e'.Contains address words := by
  induction words generalizing address with
  | nil => trivial
  | cons word words ih =>
      rw [List.length_cons] at hl
      refine ⟨(hl address (by omega) (by omega)).trans h.1, ih h.2 fun a h₀ h₁ => ?_⟩
      exact hl a (by omega) (by omega)

theorem contains_of_getElem?
    (h : ∀ (i : Nat) word, words[i]? = some word → e.look (address + i) = word) :
    e.Contains address words := by
  induction words generalizing address with
  | nil => trivial
  | cons word words ih =>
      refine ⟨by simpa using h 0 word rfl, ih fun i other hi => ?_⟩
      have hlook := h (i + 1) other hi
      have ha : address + 1 + i = address + (i + 1 : Nat) := by omega
      rwa [ha]

end Code

/-! ### Instructions -/

/-- A step that leaves the value on top of the stack at `sp` and goes on at `pc`. -/
structure Leaves (value : Word) (pc sp : Int) (e e' : Ideal) : Prop where
  pc_eq : e'.pc = pc
  sp_eq : e'.sp = sp
  running : e'.halted = none
  out_eq : e'.out = e.out
  value_eq : e'.look sp = value
  others_eq : ∀ address, InMemory address → address ≠ sp → e'.look address = e.look address

section Instructions

variable {e : Ideal}

/-- A push leaves its value, seen from any machine with the same cells and output. -/
theorem meets_push_leaves {e₁ : Ideal} (value : Word) (hsp₀ : 0 < e₁.sp) (hsp₁ : e₁.sp ≤ 65536)
    (hh : e₁.halted = none) (ho : e₁.out = e.out)
    (hl : ∀ address, e₁.look address = e.look address) :
    Meets (push value) e₁ (fun _ e' => e'.halted = none ∧ Leaves value e₁.pc (e₁.sp - 1) e e')
      fun _ _ => False := by
  have hsp : InMemory (e₁.sp - 1) := ⟨by omega, by omega⟩
  simp only [meets_push, meets_write]
  refine ⟨fun h => by omega, fun _ => ⟨fun _ => ⟨hh, rfl, rfl, hh, ho, ?_, ?_⟩, fun h => h hsp⟩⟩
  · rw [look, peek_store_word hsp hsp, if_pos rfl]
  · intro address ha hne
    rw [look, peek_store_word hsp ha, if_neg hne]
    exact hl address

/-- With two operands on the stack an operator takes both and then does what they make of it. -/
theorem meets_combine (operation : Int16 → Int16 → Option Int16) (hsp₀ : 0 ≤ e.sp)
    (hsp₁ : e.sp + 2 ≤ 65536) {after : Unit → Ideal → Prop} {failed : Cause → Ideal → Prop} :
    Meets (combine operation) e after failed ↔
      Meets (match operation (e.look (e.sp + 1)).signed (e.look e.sp).signed with
          | some value => push (Word.ofSigned value)
          | none => throw .arithmetic)
        { e with sp := e.sp + 1 + 1, memory := e.memory.countRead.countRead } after failed := by
  have hin : InMemory e.sp := ⟨hsp₀, by omega⟩
  have hin' : InMemory (e.sp + 1) := ⟨by omega, by omega⟩
  have h₀ : ¬ 65536 ≤ e.sp := by omega
  have h₁ : ¬ 65536 ≤ e.sp + 1 := by omega
  simp only [combine, meets_bind, meets_pop, meets_top, meets_read, h₀, h₁, hin, hin', hin.2,
    hin'.2, false_implies, forall_const, not_true, true_and, and_true]
  rfl

theorem step_pushc (hh : e.halted = none) {value : Word}
    (hcode : e.Contains e.pc [Opcode.pushc.code, value]) (hpc₀ : 0 ≤ e.pc)
    (hpc₁ : e.pc + 2 ≤ 65536) (hsp₀ : 0 < e.sp) (hsp₁ : e.sp ≤ 65536) :
    ∃ e', step e = .ok none e' ∧ Leaves value (e.pc + 2) (e.sp - 1) e e' := by
  have hpc : InMemory e.pc := ⟨hpc₀, by omega⟩
  have hpc' : InMemory (e.pc + 1) := ⟨by omega, by omega⟩
  have hvalue : e.fetched.look e.fetched.pc = value := hcode.2.1
  have hm : Meets step e
      (fun result e' => result = none ∧ Leaves value (e.pc + 1 + 1) (e.sp - 1) e e')
      fun _ _ => False := by
    simp only [meets_step_code hh hpc hcode.1, ofOpcode, meets_bind, meets_fetch, hvalue]
    exact ⟨fun _ => meets_push_leaves value hsp₀ hsp₁ hh rfl fun _ => rfl, fun h => h hpc'⟩
  obtain ⟨_, e', hs, rfl, hl⟩ := hm.exists_ok
  exact ⟨e', hs, by rwa [Int.add_assoc] at hl⟩

section Operators

variable {op : Operator}

theorem step_operator (hh : e.halted = none) (hcode : e.look e.pc = op.opcode.code)
    (hpc : InMemory e.pc) (hsp₀ : 0 ≤ e.sp) (hsp₁ : e.sp + 2 ≤ 65536) {value : Int16}
    (hv : op.onWords (e.look (e.sp + 1)).signed (e.look e.sp).signed = some value) :
    ∃ e', step e = .ok none e' ∧ Leaves (Word.ofSigned value) (e.pc + 1) (e.sp + 1) e e' := by
  have hv' : op.onWords (e.fetched.look (e.fetched.sp + 1)).signed
      (e.fetched.look e.fetched.sp).signed = some value := hv
  have hm : Meets step e (fun result e' => result = none ∧
      Leaves (Word.ofSigned value) (e.pc + 1) (e.sp + 1 + 1 - 1) e e') fun _ _ => False := by
    rw [meets_step_code hh hpc hcode, op.ofOpcode_opcode]
    refine (meets_combine (e := e.fetched) op.onWords hsp₀ hsp₁).mpr ?_
    rw [hv']
    have hsp₂ : 0 < e.sp + 1 + 1 := by omega
    have hsp₃ : e.sp + 1 + 1 ≤ 65536 := by omega
    exact meets_push_leaves _ hsp₂ hsp₃ hh rfl fun _ => rfl
  obtain ⟨_, e', hs, rfl, hl⟩ := hm.exists_ok
  exact ⟨e', hs, by rwa [Int.add_sub_cancel] at hl⟩

theorem step_division_by_zero (hh : e.halted = none) (hcode : e.look e.pc = op.opcode.code)
    (hpc : InMemory e.pc) (hsp₀ : 0 ≤ e.sp) (hsp₁ : e.sp + 2 ≤ 65536)
    (hv : op.onWords (e.look (e.sp + 1)).signed (e.look e.sp).signed = none) :
    ∃ e', step e = .error ⟨e.pc, some (op.opcode.code, none), .arithmetic⟩ e' ∧
      e'.out = e.out := by
  have hv' : op.onWords (e.fetched.look (e.fetched.sp + 1)).signed
      (e.fetched.look e.fetched.sp).signed = none := hv
  have ht : ∀ e' : Ideal, e'.operandBehind e.pc op.opcode.code = none := by
    intro e'
    simp only [operandBehind, Opcode.ofWord?_code]
    cases op <;> rfl
  have hm : Meets step e (fun _ _ => False) fun fault e' =>
      fault = ⟨e.pc, some (op.opcode.code, none), .arithmetic⟩ ∧ e'.out = e.out := by
    rw [meets_step_code hh hpc hcode, op.ofOpcode_opcode]
    refine (meets_combine (e := e.fetched) op.onWords hsp₀ hsp₁).mpr ?_
    rw [hv', meets_throw, ht]
    exact ⟨rfl, rfl⟩
  obtain ⟨_, e', hs, rfl, ho⟩ := hm.exists_error
  exact ⟨e', hs, ho⟩

end Operators

/-- The steps that use a value up. -/
theorem step_printi (hh : e.halted = none) (hcode : e.look e.pc = Opcode.printi.code)
    (hpc : InMemory e.pc) (hsp : InMemory e.sp) (hroom : e.out.room = none) :
    ∃ e', step e = .ok none e' ∧ (e'.pc = e.pc + 1 ∧ e'.sp = e.sp + 1 ∧ e'.halted = none) ∧
      e'.out = ⟨none, (Decimal.ofInt (e.look e.sp).signed.toInt).reverse ++ e.out.newestFirst⟩ ∧
      ∀ address, e'.look address = e.look address := by
  have hm : Meets step e (fun result e' => result = none ∧
      (e'.pc = e.pc + 1 ∧ e'.sp = e.sp + 1 ∧ e'.halted = none) ∧
      e'.out = ⟨none, (Decimal.ofInt (e.look e.sp).signed.toInt).reverse ++ e.out.newestFirst⟩ ∧
      ∀ address, e'.look address = e.look address) fun _ _ => False := by
    simp only [meets_step_code hh hpc hcode, ofOpcode, meets_bind, meets_pop, meets_top, meets_read,
      meets_print]
    refine ⟨fun h => absurd hsp.2 (Int.not_lt.mpr h), fun _ => ⟨fun _ => ?_, fun h => h hsp⟩⟩
    rw [Meets, Sink.write_unbounded (s := e.fetched.out) hroom]
    exact ⟨hh, ⟨rfl, rfl, hh⟩, rfl, fun _ => rfl⟩
  obtain ⟨_, e', hs, rfl, h⟩ := hm.exists_ok
  exact ⟨e', hs, h⟩

theorem step_halt (hh : e.halted = none) (hcode : e.look e.pc = Opcode.halt.code)
    (hpc : InMemory e.pc) (hsp : InMemory e.sp) :
    ∃ e', step e = .ok (some (e.look e.sp)) e' ∧ e'.halted = some (e.look e.sp) ∧
      e'.out = e.out := by
  have hm : Meets step e (fun result e' => result = some (e.look e.sp) ∧
      e'.halted = some (e.look e.sp) ∧ e'.out = e.out) fun _ _ => False := by
    simp only [meets_step_code hh hpc hcode, ofOpcode, halt, meets_bind, meets_top, meets_read,
      meets_modify]
    refine ⟨fun h => absurd hsp.2 (Int.not_lt.mpr h), fun _ => ⟨fun _ => ?_, fun h => h hsp⟩⟩
    exact ⟨rfl, rfl, rfl⟩
  obtain ⟨_, e', hs, rfl, ho⟩ := hm.exists_ok
  exact ⟨e', hs, ho⟩

end Instructions

/-! ### Expressions -/

/-- The machine is about to run the code of the expression, and the stack has room above it. -/
structure Hosts (tree : Expr) (e : Ideal) : Prop where
  running : e.halted = none
  code : e.Contains e.pc tree.code
  pc_nonneg : 0 ≤ e.pc
  room : e.pc + tree.code.length + tree.depth ≤ e.sp
  sp_le : e.sp ≤ 65536

/-- The code of the expression has run and left its value. Only the cells that the expression
needs for its stack may have changed. -/
structure Evaluated (tree : Expr) (value : Int) (e e' : Ideal) : Prop where
  pc_eq : e'.pc = e.pc + tree.code.length
  sp_eq : e'.sp = e.sp - 1
  running : e'.halted = none
  out_eq : e'.out = e.out
  value_eq : (e'.look e'.sp).signed.toInt = value
  others_eq : ∀ address, InMemory address → address < e.sp - tree.depth ∨ e.sp ≤ address →
    e'.look address = e.look address

/-- Within the given number of steps a division by zero at the address ends the run, with nothing
printed. -/
def DividesByZero (steps : Nat) (e : Ideal) (division : Nat) : Prop :=
  ∃ e₁ e₂, Run.Path step steps e e₁ ∧ e₂.out = e.out ∧
    step e₁ = .error ⟨division, some (Opcode.div.code, none), .arithmetic⟩ e₂

section Trees

variable {e e₁ e₂ : Ideal} {op : Operator} {left right : Expr} {a b : Int} {address : Nat}

theorem DividesByZero.mono {n k division : Nat} (h : DividesByZero n e division) (hk : n ≤ k) :
    DividesByZero k e division := by
  obtain ⟨e₁, e₂, hp, ho, hs⟩ := h
  exact ⟨e₁, e₂, hp.mono hk, ho, hs⟩

theorem DividesByZero.of_path {n k division : Nat} (hp : Run.Path step n e e₁)
    (ho : e₁.out = e.out) (h : DividesByZero k e₁ division) : DividesByZero (n + k) e division := by
  obtain ⟨e₂, e₃, hp', ho', hs⟩ := h
  exact ⟨e₂, e₃, hp.trans hp', ho'.trans ho, hs⟩

theorem evaluated_const {value : Word} (h : Hosts (.const value) e) :
    ∃ e', Run.Path step 2 e e' ∧ Evaluated (.const value) value.signed.toInt e e' := by
  have hroom : e.pc + 2 + 1 ≤ e.sp := h.room
  have hsp := h.sp_le
  have hpc := h.pc_nonneg
  obtain ⟨e', hs, hl⟩ := step_pushc h.running h.code hpc (by omega) (by omega) hsp
  have hp : Run.Path step 2 e e' := (Run.Path.single hs).mono (by omega)
  refine ⟨e', hp, hl.pc_eq, hl.sp_eq, hl.running, hl.out_eq, ?_, ?_⟩
  · rw [hl.sp_eq, hl.value_eq]
  · intro other ho hor
    have hdepth : (Expr.const value).depth = 1 := rfl
    exact hl.others_eq other ho (by omega)

theorem hosts_left (h : Hosts (.node op left right) e) : Hosts left e := by
  obtain ⟨hh, hcode, hpc, hroom, hsp⟩ := h
  have hd := Nat.le_max_left left.depth (right.depth + 1)
  simp only [Expr.code, Expr.depth, List.length_append] at hcode hroom
  refine ⟨hh, (contains_append.mp (contains_append.mp hcode).1).1, hpc, by omega, hsp⟩

/-- The code of the right operand is still there when the left one has been evaluated. -/
theorem hosts_right (h : Hosts (.node op left right) e) (hl : Evaluated left a e e₁) :
    Hosts right e₁ := by
  obtain ⟨hh, hcode, hpc, hroom, hsp⟩ := h
  have hd := Nat.le_max_left left.depth (right.depth + 1)
  have hd' := Nat.le_max_right left.depth (right.depth + 1)
  have hpc₁ := hl.pc_eq
  have hsp₁ := hl.sp_eq
  simp only [Expr.code, Expr.depth, List.length_append] at hcode hroom
  have hright := (contains_append.mp (contains_append.mp hcode).1).2
  rw [← hpc₁] at hright
  refine ⟨hl.running, hright.of_look fun other h₀ h₁ => ?_, by omega, by omega, by omega⟩
  exact hl.others_eq other ⟨by omega, by omega⟩ (.inl (by omega))

/-- Behind its operands the operator is still there, and both of them are on the stack. -/
theorem hosts_operator (h : Hosts (.node op left right) e) (hl : Evaluated left a e e₁)
    (hr : Evaluated right b e₁ e₂) : e₂.look e₂.pc = op.opcode.code ∧ InMemory e₂.pc ∧
      0 ≤ e₂.sp ∧ e₂.sp + 2 ≤ 65536 ∧ (e₂.look (e₂.sp + 1)).signed.toInt = a := by
  obtain ⟨hh, hcode, hpc, hroom, hsp⟩ := h
  have hd := Nat.le_max_left left.depth (right.depth + 1)
  have hd' := Nat.le_max_right left.depth (right.depth + 1)
  have hpc₁ := hl.pc_eq
  have hsp₁ := hl.sp_eq
  have hpc₂ := hr.pc_eq
  have hsp₂ := hr.sp_eq
  simp only [Expr.code, Expr.depth, List.length_append, List.length_singleton] at hcode hroom
  have hop := (contains_append.mp hcode).2.1
  have hpc₃ : e.pc + (left.code ++ right.code).length = e₂.pc := by
    rw [List.length_append]
    omega
  rw [hpc₃] at hop
  have hin : InMemory e₂.pc := ⟨by omega, by omega⟩
  refine ⟨?_, hin, by omega, by omega, ?_⟩
  · rw [hr.others_eq _ hin (.inl (by omega)), hl.others_eq _ hin (.inl (by omega)), hop]
  · have hsp₃ : e₂.sp + 1 = e₁.sp := by omega
    rw [hsp₃, hr.others_eq _ ⟨by omega, by omega⟩ (.inr (Int.le_refl _)), hl.value_eq]

theorem evaluated_node (hl : Evaluated left a e e₁)
    (hr : Evaluated right b e₁ e₂) {value : Word} {e₃ : Ideal}
    (hs : Leaves value (e₂.pc + 1) (e₂.sp + 1) e₂ e₃) :
    Evaluated (.node op left right) value.signed.toInt e e₃ := by
  have hd := Nat.le_max_left left.depth (right.depth + 1)
  have hd' := Nat.le_max_right left.depth (right.depth + 1)
  have hpc := hs.pc_eq
  have hsp := hs.sp_eq
  rw [hr.pc_eq, hl.pc_eq] at hpc
  rw [hr.sp_eq, hl.sp_eq] at hsp
  refine ⟨?_, by omega, hs.running, hs.out_eq.trans (hr.out_eq.trans hl.out_eq), ?_, ?_⟩
  · simp only [Expr.code, List.length_append, List.length_singleton]
    omega
  · rw [hs.sp_eq, hs.value_eq]
  · intro other ho hor
    have hsp₁ := hl.sp_eq
    have hsp₂ := hr.sp_eq
    simp only [Expr.depth] at hor
    rw [hs.others_eq other ho (by omega), hr.others_eq other ho (by omega),
      hl.others_eq other ho (by omega)]

/-- The operator replaces the values of its operands by its own, or divides by zero. -/
theorem operator_step (h : Hosts (.node op left right) e) (hl : Evaluated left a e e₁)
    (hr : Evaluated right b e₁ e₂) :
    match op.result? a b with
    | some exact => ∃ e₃, step e₂ = .ok none e₃ ∧
        Evaluated (.node op left right) (exact.bmod 65536) e e₃
    | none => ∃ e₃, e₃.out = e₂.out ∧
        step e₂ = .error ⟨e₂.pc, some (Opcode.div.code, none), .arithmetic⟩ e₃ := by
  obtain ⟨hcode, hin, hsp₀, hsp₁, hva⟩ := hosts_operator h hl hr
  have hwords := op.onWords_eq (e₂.look (e₂.sp + 1)).signed (e₂.look e₂.sp).signed
  rw [hva, hr.value_eq] at hwords
  cases hx : op.result? a b with
  | some exact =>
      rw [hx, Option.map_some, Option.map_eq_some_iff] at hwords
      obtain ⟨value, hv, hexact⟩ := hwords
      obtain ⟨e₃, hs, hleaves⟩ := step_operator hr.running hcode hin hsp₀ hsp₁ hv
      have hvalue : (Word.ofSigned value).signed.toInt = exact.bmod 65536 := hexact
      exact ⟨e₃, hs, hvalue ▸ evaluated_node hl hr hleaves⟩
  | none =>
      rw [hx, Option.map_none, Option.map_eq_none_iff] at hwords
      obtain ⟨e₃, hs, ho⟩ := step_division_by_zero hr.running hcode hin hsp₀ hsp₁ hwords
      obtain rfl := Operator.eq_div_of_result?_eq_none hx
      exact ⟨e₃, ho, hs⟩

/-- The code of an expression leaves its value, or stops at its first division by zero. -/
theorem evaluates (tree : Expr) (h : Hosts tree e) (hpc : e.pc = address) :
    match tree.eval address with
    | .ok value => ∃ e', Run.Path step tree.code.length e e' ∧ Evaluated tree value e e'
    | .error division => DividesByZero tree.code.length e division := by
  -- The right operand runs on the machine that the left one leaves, hence any machine that hosts.
  induction tree generalizing e address with
  | const value => exact evaluated_const h
  | node op left right ihl ihr =>
      have hlen : (Expr.node op left right).code.length =
          left.code.length + right.code.length + 1 := by
        simp only [Expr.code, List.length_append, List.length_singleton]
      have hleft := ihl (hosts_left h) hpc
      rw [hlen, Expr.eval]
      cases ha : left.eval address with
      | error division =>
          rw [ha] at hleft
          exact hleft.mono (by omega)
      | ok a =>
          rw [ha] at hleft
          obtain ⟨e₁, hp₁, hl⟩ := hleft
          have hpc₁ : e₁.pc = (address + left.code.length : Nat) := by
            rw [hl.pc_eq, hpc]
            rfl
          have hright := ihr (hosts_right h hl) hpc₁
          simp only [bind, Except.bind]
          cases hb : right.eval (address + left.code.length) with
          | error division =>
              rw [hb] at hright
              exact (hright.of_path hp₁ hl.out_eq).mono (by omega)
          | ok b =>
              rw [hb] at hright
              obtain ⟨e₂, hp₂, hr⟩ := hright
              have hp := hp₁.trans hp₂
              have hop := operator_step h hl hr
              cases hx : op.result? a b with
              | some exact =>
                  simp only [hx] at hop ⊢
                  obtain ⟨e₃, hs, he⟩ := hop
                  exact ⟨e₃, hp.trans (.single hs), he⟩
              | none =>
                  simp only [hx] at hop ⊢
                  obtain ⟨e₃, ho, hs⟩ := hop
                  have hpc₂ : e₂.pc =
                      (address + left.code.length + right.code.length : Nat) := by
                    rw [hr.pc_eq, hpc₁]
                    rfl
                  rw [hpc₂] at hs
                  have hout := ho.trans (hr.out_eq.trans hl.out_eq)
                  exact ⟨e₂, e₃, hp.mono (Nat.le_add_right _ 1), hout, hs⟩

end Trees

end Ideal

end CoolMachine
