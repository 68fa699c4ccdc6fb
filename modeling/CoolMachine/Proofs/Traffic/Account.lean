import CoolMachine.Proofs.Machine.History
import CoolMachine.Proofs.Machine.Operation
import CoolMachine.Proofs.Traffic.Charge

/-! The counters of memory traffic over whole runs: they are the sum of what the instructions
executed have added, and nothing that the host does to memory adds to them. -/

namespace CoolMachine

/-- The counters that the charges lead to from power on. -/
def Traffic.ofCharges (charges : List Charge) : Traffic := ({} : Traffic).charged charges.sum

theorem Traffic.ofCharges_cons (charge : Charge) (charges : List Charge) :
    ofCharges (charge :: charges) = (ofCharges charges).charged charge := by
  rw [ofCharges, ofCharges, List.sum_cons, add_comm, charged_add]

namespace Machine

/-! ### Runs without a fault -/

/-- The machines that a run of `n` steps lets execute an instruction, in order and up to its first
fault. -/
def executing : Nat → Machine → List Machine
  | 0, _ => []
  | n + 1, m =>
    match m.halted, m.step with
    | none, .ok _ m' => m :: executing n m'
    | _, _ => []

theorem executing_of_halted {m : Machine} {result : Word} (h : m.halted = some result) (n : Nat) :
    executing n m = [] := by
  cases n with
  | zero => rfl
  | succ n => simp only [executing, h]

theorem executing_succ {m m' : Machine} {result : Option Word} (h : m.halted = none)
    (hs : m.step = .ok result m') (n : Nat) : executing (n + 1) m = m :: executing n m' := by
  simp only [executing, h, hs]

theorem history_of_halted {m : Machine} {result : Word} (h : m.halted = some result) (n : Nat) :
    (Run.history step n m).2 = m := by
  induction n with
  | zero => rfl
  | succ n ih => rw [Run.history_succ_of_ok (step_of_halted h), ih]

theorem traffic_history {m : Machine} {n : Nat}
    (h : ∀ fault, .error fault ∉ (Run.history step n m).1) :
    (Run.history step n m).2.memory.traffic =
      m.memory.traffic.charged ((executing n m).map charge).sum := by
  induction n generalizing m with
  | zero => rfl
  | succ n ih =>
      cases hh : m.halted with
      | some result =>
          rw [history_of_halted hh, executing_of_halted hh]
          rfl
      | none =>
          cases hs : m.step with
          | error fault m' =>
              rw [Run.history_succ_of_error hs] at h
              exact absurd List.mem_cons_self (h fault)
          | ok result m' =>
              have hm : m'.memory.traffic = m.memory.traffic.charged m.charge :=
                (step_spends hh).of_ok hs
              rw [Run.history_succ_of_ok hs] at h ⊢
              rw [executing_succ hh hs, List.map_cons, List.sum_cons, Traffic.charged_add, ← hm]
              exact ih fun fault hf => h fault (List.mem_cons_of_mem _ hf)

/-! ### Reachable machines -/

/-- A machine that operations have led to, beside the charges of the steps that it has taken since
power on or the last reset, newest first. Loading an image is not charged, and looking at memory
leaves the machine as it is. -/
inductive Accounted (mode : Mode) : Machine → List Charge → Prop where
  | powerOn (out : Sink Char) : Accounted mode (powerOn mode out) []
  | load {m m' : Machine} {charges : List Charge} {image : List Word} :
      Accounted mode m charges → m.load image = .ok m' → Accounted mode m' charges
  | reset {m : Machine} {charges : List Charge} : Accounted mode m charges →
      Accounted mode m.reset []
  | attach {m : Machine} {charges : List Charge} (out : Sink Char) : Accounted mode m charges →
      Accounted mode { m with out } charges
  | succeed {m m' : Machine} {charges : List Charge} {result : Option Word} :
      Accounted mode m charges → m.halted = none → m.step = .ok result m' →
      Accounted mode m' (m.charge :: charges)
  | fail {m m' : Machine} {charges : List Charge} {fault : Fault} {part : Charge} :
      Accounted mode m charges → m.step = .error fault m' → part ≤ m.chargeLimit →
      m'.memory.traffic = m.memory.traffic.charged part → Accounted mode m' (part :: charges)

theorem Accounted.traffic {mode : Mode} {m : Machine} {charges : List Charge}
    (h : Accounted mode m charges) : m.memory.traffic = .ofCharges charges := by
  induction h with
  | powerOn out => rfl
  | load _ hl ih =>
      obtain ⟨memory, hm, rfl⟩ := load_eq_ok hl
      exact (Memory.traffic_load hm).trans ih
  | reset _ _ => rfl
  | attach out _ ih => exact ih
  | succeed _ hh hs ih => rw [(step_spends hh).of_ok hs, ih, Traffic.ofCharges_cons]
  | fail _ _ _ ht ih => rw [ht, ih, Traffic.ofCharges_cons]

theorem Accounted.step {mode : Mode} {m : Machine} {charges : List Charge}
    (h : Accounted mode m charges) :
    Meets step m (fun _ m' => ∃ charges, Accounted mode m' charges)
      fun _ m' => ∃ charges, Accounted mode m' charges := by
  unfold Meets
  cases hh : m.halted with
  | some result =>
      rw [step_of_halted hh]
      exact ⟨charges, h⟩
  | none =>
      cases hs : m.step with
      | ok result m' => exact ⟨_, h.succeed hh hs⟩
      | error fault m' =>
          obtain ⟨part, hp, ht⟩ := (step_spends hh).of_error hs
          exact ⟨_, h.fail hs (hp.trans m.charge_le) ht⟩

theorem Reachable.accounted {mode : Mode} {m : Machine} (h : Reachable mode m) :
    ∃ charges, Accounted mode m charges := by
  induction h with
  | powerOn out => exact ⟨[], .powerOn out⟩
  | perform op _ ih =>
      refine (keeps_perform (I := fun m => ∃ charges, Accounted mode m charges)
        (F := fun _ m => ∃ charges, Accounted mode m charges) ?_ ?_ ?_ ?_ ih op).same
      · intro m m' image hm hl
        obtain ⟨charges, hm⟩ := hm
        exact ⟨charges, hm.load hl⟩
      · intro m hm
        obtain ⟨charges, hm⟩ := hm
        exact ⟨[], hm.reset⟩
      · intro m out hm
        obtain ⟨charges, hm⟩ := hm
        exact ⟨charges, hm.attach out⟩
      · intro m hm
        obtain ⟨charges, hm⟩ := hm
        exact hm.step

/-- Nothing is ever counted for the cache. -/
theorem Reachable.uncached {mode : Mode} {m : Machine} (h : Reachable mode m) :
    m.memory.traffic.hits = 0 ∧ m.memory.traffic.misses = 0 := by
  obtain ⟨charges, ha⟩ := h.accounted
  rw [ha.traffic]
  exact ⟨rfl, rfl⟩

/-- The traffic of a running machine is that of its instructions. A step adds what its instruction
is charged, a step that faults no more than its opcode allows, and one that cannot fetch its
instruction the read that it has tried. So a run without a fault adds the sum over the instructions
that it executes, and whatever is done to a machine, its counters are the sum over the steps since
power on or the last reset, and the cache has none. -/
theorem traffic_accounted :
    (∀ m : Machine, m.halted = none →
      Meets step m (fun _ m' => m'.memory.traffic = m.memory.traffic.charged m.charge)
        (fun _ m' => ∃ part ≤ m.chargeLimit,
          m'.memory.traffic = m.memory.traffic.charged part) ∧
      (m.memory.mode.resolve m.pc = none → ∃ m',
        m.step = .error ⟨m.pc, none, .address m.pc⟩ m' ∧
          m'.memory.traffic = m.memory.traffic.charged (1, 0))) ∧
    (∀ (m : Machine) (n : Nat), (∀ fault, .error fault ∉ (Run.history step n m).1) →
      (Run.history step n m).2.memory.traffic =
        m.memory.traffic.charged ((executing n m).map charge).sum) ∧
    (∀ mode m, Reachable mode m → ∃ charges, Accounted mode m charges ∧
      m.memory.traffic = ⟨charges.sum.1, charges.sum.2, 0, 0⟩) := by
  refine ⟨fun m hm => ⟨?_, fun hr => ⟨_, step_unfetched hm hr, rfl⟩⟩,
    fun m n h => traffic_history h, fun mode m h => ?_⟩
  · refine (step_spends hm).mono (fun _ _ ht => ht) fun _ _ ht => ?_
    obtain ⟨part, hp, ht⟩ := ht
    exact ⟨part, hp.trans m.charge_le, ht⟩
  · obtain ⟨charges, ha⟩ := h.accounted
    refine ⟨charges, ha, ?_⟩
    rw [ha.traffic, Traffic.ofCharges, Traffic.charged]
    simp only [Nat.zero_add]

/-- Before a push, a jump that is not taken and a pop from the empty stack. -/
def beforeUnderflow : Machine := ((powerOn .hardened {}).perform (.load [12, 1, 9, 0, 10])).2

theorem traffic_accounted_underflow :
    beforeUnderflow.halted = none ∧
    Meets step beforeUnderflow (fun _ m' => m'.memory.traffic = ⟨2, 1, 0, 0⟩)
      (fun _ m' => ∃ part ≤ (2, 1), m'.memory.traffic = ({} : Traffic).charged part) ∧
    (∀ fault, .error fault ∉ (Run.history step 2 beforeUnderflow).1) ∧
    (executing 2 beforeUnderflow).map charge = [(2, 1), (2, 0)] ∧
    (Run.history step 2 beforeUnderflow).2.memory.traffic = ⟨4, 1, 0, 0⟩ ∧
    Reachable .hardened (beforeUnderflow.perform (.advance 3)).2 ∧
    (beforeUnderflow.perform (.advance 3)).1 = some ⟨4, some (10, none), .stackUnderflow 65536⟩ ∧
    ∃ charges, Accounted .hardened (beforeUnderflow.perform (.advance 3)).2 charges ∧
      charges.sum = (5, 1) := by
  have hh : beforeUnderflow.halted = none := rfl
  have hf : ∀ fault, .error fault ∉ (Run.history step 2 beforeUnderflow).1 := by
    have hr : (Run.history step 2 beforeUnderflow).1 = [.ok none, .ok none] := rfl
    simp [hr]
  have he : (executing 2 beforeUnderflow).map charge = [(2, 1), (2, 0)] := rfl
  have hm : Reachable .hardened (beforeUnderflow.perform (.advance 3)).2 :=
    .perform (.advance 3) (.perform (.load [12, 1, 9, 0, 10]) (.powerOn {}))
  obtain ⟨hstep, hrun, hall⟩ := traffic_accounted
  have ht := hrun beforeUnderflow 2 hf
  rw [he] at ht
  obtain ⟨charges, ha, hc⟩ := hall _ _ hm
  have h₅ : (beforeUnderflow.perform (.advance 3)).2.memory.traffic = ⟨5, 1, 0, 0⟩ := rfl
  rw [h₅, Traffic.mk.injEq] at hc
  exact ⟨hh, (hstep _ hh).1, hf, he, ht, hm, rfl, charges, ha, Prod.ext hc.1.symm hc.2.1.symm⟩

end Machine

end CoolMachine
