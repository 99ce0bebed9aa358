import PCode.Proofs.Failure
import PCode.Proofs.Machine.Steps
import Mathlib.Logic.Relation

namespace PCode.Machine

/-- Any number of steps lead from one state to the other. -/
abbrev Reaches (code : Array Instruction) : Machine → Machine → Prop :=
  Relation.ReflTransGen fun m m' => m.step code = .ok m'

/-- The run comes to a state with a property, or faults because its memory has fewer cells than the
bound. -/
inductive Leads (code : Array Instruction) (bound : Nat) (Q : Machine → Prop) : Machine → Prop where
  | done {m} : Q m → Leads code bound Q m
  | step {m m'} : m.step code = .ok m' → Leads code bound Q m' → Leads code bound Q m
  | overflow {m} : m.memory.capacity < bound → m.Faults code → Leads code bound Q m

/-- The run does not halt within this number of steps. -/
inductive Lasts (code : Array Instruction) : Nat → Machine → Prop where
  | zero {m} : Lasts code 0 m
  | step {m m' n} : m.step code = .ok m' → Lasts code n m' → Lasts code (n + 1) m
  | fault {m n} : m.Faults code → Lasts code n m

variable {code : Array Instruction} {m m' : Machine} {bound n k : Nat} {P P' Q Q' : Machine → Prop}

theorem Leads.trans (h : Leads code bound Q m) (hQ : ∀ m', Q m' → Leads code bound Q' m') :
    Leads code bound Q' m := by
  induction h with
  | done h => exact hQ _ h
  | step hstep _ ih => exact .step hstep ih
  | overflow hsmall hfault => exact .overflow hsmall hfault

theorem Lasts.mono (h : Lasts code n m) (hk : k ≤ n) : Lasts code k m := by
  induction h generalizing k with
  | zero =>
    obtain rfl : k = 0 := by omega
    exact .zero
  | step hstep _ ih =>
    cases k with
    | zero => exact .zero
    | succ k => exact .step hstep (ih (by omega))
  | fault hfault => exact .fault hfault

theorem Leads.lasts (h : Leads code bound Q m) (hQ : ∀ m', Q m' → Lasts code n m') :
    Lasts code n m := by
  induction h with
  | done h => exact hQ _ h
  | step hstep _ ih => exact (Lasts.step hstep ih).mono (by omega)
  | overflow _ hfault => exact .fault hfault

/-- What no instruction changes. -/
structure Keeps (m m' : Machine) : Prop where
  capacity : m'.memory.capacity = m.memory.capacity
  steps : m'.steps = m.steps

theorem Keeps.trans {m₁ : Machine} (h : Keeps m m₁) (h' : Keeps m₁ m') : Keeps m m' :=
  ⟨h'.capacity.trans h.capacity, h'.steps.trans h.steps⟩

theorem push_keeps {c : Cell} (h : m.push c = .ok m') : Keeps m m' := by
  rw [push_eq] at h
  split at h
  · cases h
    exact ⟨by simp, rfl⟩
  · cases h

theorem pop_keeps {c : Cell} (h : m.pop = .ok (c, m')) : Keeps m m' := by
  unfold pop at h
  split at h
  · cases h
  · simp only [bind_eq_ok_iff, Except.ok.injEq, Prod.mk.injEq] at h
    obtain ⟨_, _, _, rfl⟩ := h
    exact ⟨rfl, rfl⟩

theorem execute_keeps {i : Instruction} (h : m.execute i = .ok m') : Keeps m m' := by
  have hadvance {x : Except Fault Machine} (h : advance <$> x = .ok m')
      (hx : ∀ {m₁}, x = .ok m₁ → Keeps m m₁) : Keeps m m' := by
    cases x with
    | error => cases h
    | ok m₁ =>
      have hkeeps := hx rfl
      cases h
      exact ⟨hkeeps.capacity, hkeeps.steps⟩
  unfold execute at h
  split at h
  case h_1 => exact hadvance h push_keeps
  case h_2 =>
    refine hadvance h fun h => ?_
    simp only [operate, bind_eq_ok_iff, Prod.exists] at h
    obtain ⟨operator, _, right, m₁, hpop, h⟩ := h
    split at h
    · exact (pop_keeps hpop).trans (push_keeps h)
    · simp only [bind_eq_ok_iff, Prod.exists] at h
      obtain ⟨left, m₂, hpop', h⟩ := h
      exact ((pop_keeps hpop).trans (pop_keeps hpop')).trans (push_keeps h)
  case h_3 =>
    refine hadvance h fun h => ?_
    simp only [load, bind_eq_ok_iff] at h
    obtain ⟨_, _, _, _, h⟩ := h
    exact push_keeps h
  case h_4 =>
    refine hadvance h fun h => ?_
    simp only [store, bind_eq_ok_iff, Prod.exists] at h
    obtain ⟨c, m₁, hpop, base, _, h⟩ := h
    split at h
    · cases h
      exact (pop_keeps hpop).trans ⟨by simp, rfl⟩
    · cases h
  case h_5 =>
    refine hadvance h fun h => ?_
    unfold resize at h
    simp only at h
    split at h
    · cases h
    · cases h
      exact ⟨by simp, rfl⟩
  case h_6 =>
    refine hadvance h fun h => ?_
    simp only [openFrame, bind_eq_ok_iff] at h
    obtain ⟨_, _, m₁, h₁, m₂, h₂, m₃, h₃, h⟩ := h
    cases h
    exact ((push_keeps h₁).trans (push_keeps h₂)).trans
      ⟨(push_keeps h₃).capacity, (push_keeps h₃).steps⟩
  case h_7 =>
    unfold call at h
    simp only at h
    split at h
    · cases h
    · cases h
      exact ⟨by simp, rfl⟩
  case h_8 =>
    unfold leave at h
    simp only at h
    split at h
    · split at h
      · cases h
        exact ⟨by simp, rfl⟩
      · cases h
    · cases h
  case h_9 =>
    cases h
    exact ⟨rfl, rfl⟩
  case h_10 =>
    simp only [jumpUnless, bind_eq_ok_iff, Prod.exists] at h
    obtain ⟨c, m₁, hpop, h⟩ := h
    have hkeeps := pop_keeps hpop
    split at h <;> cases h <;> exact ⟨hkeeps.capacity, hkeeps.steps⟩

theorem step_keeps (h : m.step code = .ok m') :
    m'.memory.capacity = m.memory.capacity ∧ m'.steps = m.steps + 1 := by
  unfold step at h
  split at h
  · cases h
  · split at h
    · cases h
    · rename_i m₁ hexecute
      cases h
      have hkeeps := execute_keeps hexecute
      exact ⟨hkeeps.capacity, by rw [hkeeps.steps]⟩

theorem Leads.reaches (h : Leads code bound Q m) (hcapacity : bound ≤ m.memory.capacity) :
    ∃ m', Reaches code m m' ∧ Q m' := by
  induction h with
  | @done m h => exact ⟨m, .refl, h⟩
  | step hstep _ ih =>
    obtain ⟨hcap, -⟩ := step_keeps hstep
    obtain ⟨m', hreaches, h⟩ := ih (by omega)
    exact ⟨m', .head hstep hreaches, h⟩
  | overflow hsmall _ => omega

theorem Leads.halts (h : Leads code bound Q m) (hcapacity : bound ≤ m.memory.capacity)
    (hQ : ∀ m', Q m' → code.size ≤ m'.pc) :
    ∃ n m', m.runFor code n = .halted m'.exit m'.memory ∧ Q m' ∧ m'.steps = m.steps + n := by
  induction h with
  | @done m h =>
    refine ⟨0, m, ?_, h, rfl⟩
    rw [runFor, if_neg (Nat.not_lt.mpr (hQ m h))]
  | @step m m₁ hstep _ ih =>
    obtain ⟨hcap, hsteps⟩ := step_keeps hstep
    obtain ⟨n, m', hrun, h, hsteps'⟩ := ih (by omega)
    refine ⟨n + 1, m', ?_, h, by omega⟩
    rw [runFor, hstep]
    exact hrun
  | overflow hsmall _ => omega

theorem step_behind (h : code.size ≤ m.pc) :
    m.step code = .error (.halted m.exit m.memory) := by
  unfold step
  rw [Array.getElem?_eq_none h]

theorem lt_size_of_step (h : m.step code = .ok m') : m.pc < code.size := by
  by_cases hpc : m.pc < code.size
  · exact hpc
  · rw [step_behind (by omega)] at h
    cases h

theorem Faults.lt_size (h : m.Faults code) : m.pc < code.size := by
  obtain ⟨memory, h⟩ := h
  by_cases hpc : m.pc < code.size
  · exact hpc
  · rw [step_behind (by omega)] at h
    cases h

section Halted

variable {exit : Exit} {memory : Memory}

theorem halted_cases (h : m.runFor code n = .halted exit memory) :
    (code.size ≤ m.pc ∧ exit = m.exit ∧ memory = m.memory) ∨
      ∃ k m₁, n = k + 1 ∧ m.step code = .ok m₁ ∧ m₁.runFor code k = .halted exit memory := by
  by_cases hpc : code.size ≤ m.pc
  · refine .inl ⟨hpc, ?_⟩
    cases n with
    | zero =>
      rw [runFor, if_neg (Nat.not_lt.mpr hpc)] at h
      cases h
      exact ⟨rfl, rfl⟩
    | succ n =>
      rw [runFor, step_behind hpc] at h
      cases h
      exact ⟨rfl, rfl⟩
  · refine .inr ?_
    cases n with
    | zero =>
      rw [runFor, if_pos (by omega)] at h
      cases h
    | succ n =>
      have hlt : m.pc < code.size := by omega
      have hget : code[m.pc]? = some code[m.pc] := Array.getElem?_eq_getElem hlt
      have hstep := step_eq hget
      cases hexecute : m.execute code[m.pc] with
      | error fault =>
        rw [runFor, hstep, hexecute] at h
        cases h
      | ok m₁ =>
        rw [hexecute] at hstep
        rw [runFor, hstep] at h
        exact ⟨n, _, rfl, hstep, h⟩

theorem halted_step (h : m.runFor code n = .halted exit memory) (hstep : m.step code = .ok m') :
    ∃ k, n = k + 1 ∧ m'.runFor code k = .halted exit memory := by
  rcases halted_cases h with ⟨hpc, _⟩ | ⟨k, m₁, hk, hstep', hrun⟩
  · have := lt_size_of_step hstep
    omega
  · rw [hstep] at hstep'
    cases hstep'
    exact ⟨k, hk, hrun⟩

theorem halted_behind (h : m.runFor code n = .halted exit memory) (hpc : code.size ≤ m.pc) :
    exit = m.exit := by
  rcases halted_cases h with ⟨_, hexit, _⟩ | ⟨k, m₁, _, hstep, _⟩
  · exact hexit
  · have := lt_size_of_step hstep
    omega

theorem runFor_succ (hstep : m.step code = .ok m') : m.runFor code (n + 1) = m'.runFor code n := by
  rw [runFor, hstep]

theorem runFor_behind (hpc : code.size ≤ m.pc) : m.runFor code n = .halted m.exit m.memory := by
  cases n with
  | zero => rw [runFor, if_neg (Nat.not_lt.mpr hpc)]
  | succ n => rw [runFor, step_behind hpc]

theorem halted_mono (h : m.runFor code n = .halted exit memory) (hle : n ≤ k) :
    m.runFor code k = .halted exit memory := by
  induction n generalizing m k with
  | zero =>
    rcases halted_cases h with ⟨hpc, rfl, rfl⟩ | ⟨_, _, hk, _⟩
    · cases k with
      | zero => exact h
      | succ k => rw [runFor, step_behind hpc]
    · omega
  | succ n ih =>
    obtain ⟨k, rfl⟩ : ∃ k', k = k' + 1 := ⟨k - 1, by omega⟩
    rcases halted_cases h with ⟨hpc, rfl, rfl⟩ | ⟨n', m₁, hn, hstep, hrun⟩
    · rw [runFor, step_behind hpc]
    · obtain rfl : n = n' := by omega
      rw [runFor, hstep]
      exact ih hrun (by omega)

theorem run_eq_halted_iff : m.run code = .halted exit memory ↔
    m.runFor code stepLimit = .halted exit memory := by
  unfold run
  cases m.runFor code stepLimit <;> simp

theorem Leads.of_halted (h : Leads code bound Q m) (hQ : ∀ m', Q m' → code.size ≤ m'.pc)
    (hrun : m.runFor code n = .halted exit memory) : ∃ m', Q m' ∧ exit = m'.exit := by
  induction h generalizing n with
  | @done m h =>
    rcases halted_cases hrun with ⟨_, rfl, _⟩ | ⟨k, m₁, _, hstep, _⟩
    · exact ⟨m, h, rfl⟩
    · have := lt_size_of_step hstep
      have := hQ m h
      omega
  | @step m m₁ hstep _ ih =>
    rcases halted_cases hrun with ⟨hpc, _⟩ | ⟨k, m₂, _, hstep', hrun⟩
    · have := lt_size_of_step hstep
      omega
    · rw [hstep] at hstep'
      cases hstep'
      exact ih hrun
  | @overflow m _ hfault =>
    rcases halted_cases hrun with ⟨hpc, _⟩ | ⟨k, m₂, _, hstep', _⟩
    · have := hfault.lt_size
      omega
    · obtain ⟨memory', hfault⟩ := hfault
      rw [hfault] at hstep'
      cases hstep'

theorem Lasts.lt_size (h : Lasts code (n + 1) m) : m.pc < code.size := by
  cases h with
  | step hstep _ => exact lt_size_of_step hstep
  | fault hfault => exact hfault.lt_size

theorem Lasts.not_halted (h : Lasts code (n + 1) m) : m.runFor code n ≠ .halted exit memory := by
  intro hrun
  induction n generalizing m with
  | zero =>
    rcases halted_cases hrun with ⟨hpc, _⟩ | ⟨k, m₁, hk, _⟩
    · have := h.lt_size
      omega
    · omega
  | succ n ih =>
    rcases halted_cases hrun with ⟨hpc, _⟩ | ⟨k, m₁, hk, hstep', hrun⟩
    · have := h.lt_size
      omega
    · obtain rfl : n = k := by omega
      cases h with
      | step hstep hlasts =>
        rw [hstep] at hstep'
        cases hstep'
        exact ih hlasts hrun
      | fault hfault =>
        obtain ⟨memory', hfault⟩ := hfault
        rw [hfault] at hstep'
        cases hstep'

end Halted

end PCode.Machine
