import PCode.Proofs.Machine.Runs

namespace PCode

/-- Both runs have halted with the same result, both have faulted, or both go on. -/
inductive Outcome.Alike : Outcome → Outcome → Prop where
  | halted {exit memory memory'} : Alike (.halted exit memory) (.halted exit memory')
  | faulted {memory memory'} : Alike (.faulted memory) (.faulted memory')
  | running {m m'} : Alike (.running m) (.running m')

namespace Machine

variable {code : Array Instruction} {m m' : Machine} {R : Machine → Machine → Prop}

theorem step_tracks (hpc : m'.pc = m.pc)
    (h : ∀ i, code[m.pc]? = some i → Tracks R (m.execute i) (m'.execute i))
    (hsteps : ∀ a b, R a b → R { a with steps := a.steps + 1 } { b with steps := b.steps + 1 }) :
    Tracks R (m.step code) (m'.step code) := by
  unfold step
  rw [hpc]
  cases hi : code[m.pc]? with
  | none => exact .error
  | some i =>
    intro a ha
    dsimp only at ha ⊢
    cases hm : m.execute i with
    | error fault => simp [hm] at ha
    | ok m₁ =>
      obtain ⟨m₁', hm', hR⟩ := h i hi m₁ hm
      rw [hm] at ha
      cases ha
      rw [hm']
      exact ⟨_, rfl, hsteps _ _ hR⟩

theorem halted_of_tracks (hstep : ∀ {m m'}, R m m' → Tracks R (m.step code) (m'.step code))
    (hpc : ∀ {m m'}, R m m' → m'.pc = m.pc) {n : Nat} {exit : Exit} {memory : Memory} (hR : R m m')
    (h : m.runFor code n = .halted exit memory) : ∃ last last', R last last' ∧ exit = last.exit ∧
      memory = last.memory ∧ m'.runFor code n = .halted last'.exit last'.memory := by
  induction n generalizing m m' with
  | zero =>
    rcases halted_cases h with ⟨hbehind, rfl, rfl⟩ | ⟨_, _, hn, _⟩
    · refine ⟨m, m', hR, rfl, rfl, ?_⟩
      rw [runFor, hpc hR, if_neg (Nat.not_lt.mpr hbehind)]
    · omega
  | succ n ih =>
    rcases halted_cases h with ⟨hbehind, rfl, rfl⟩ | ⟨k, m₁, hn, hm, hrest⟩
    · refine ⟨m, m', hR, rfl, rfl, ?_⟩
      rw [runFor, step_behind (by rw [hpc hR]; exact hbehind)]
    · obtain ⟨m₁', hm', hR₁⟩ := hstep hR m₁ hm
      obtain rfl : n = k := by omega
      rw [runFor, hm']
      exact ih hR₁ hrest

theorem step_error_cases {outcome : Outcome} (h : m.step code = .error outcome) :
    (code.size ≤ m.pc ∧ outcome = .halted m.exit m.memory) ∨
      m.pc < code.size ∧ ∃ memory, outcome = .faulted memory := by
  by_cases hpc : m.pc < code.size
  · right
    rw [step_eq (Array.getElem?_eq_getElem hpc)] at h
    split at h
    · cases h
      exact ⟨hpc, _, rfl⟩
    · cases h
  · left
    rw [step_behind (Nat.not_lt.mp hpc)] at h
    cases h
    exact ⟨Nat.not_lt.mp hpc, rfl⟩

section Alike

variable (hstep : ∀ {m m'}, R m m' → Tracks R (m.step code) (m'.step code))
  (hsymm : ∀ {m m'}, R m m' → R m' m) (hpc : ∀ {m m'}, R m m' → m'.pc = m.pc)
  (hexit : ∀ {m m'}, R m m' → m'.exit = m.exit)
include hstep hsymm hpc hexit

/-- Two runs that follow each other come to the same end. -/
theorem runFor_alike (hR : R m m') (n : Nat) : (m.runFor code n).Alike (m'.runFor code n) := by
  induction n generalizing m m' with
  | zero =>
    rw [runFor, runFor, hpc hR, hexit hR]
    by_cases hlt : m.pc < code.size
    · rw [if_pos hlt, if_pos hlt]
      exact .running
    · rw [if_neg hlt, if_neg hlt]
      exact .halted
  | succ n ih =>
    rw [runFor, runFor]
    cases hm : m.step code with
    | ok m₁ =>
      obtain ⟨m₁', hm', hR₁⟩ := hstep hR m₁ hm
      rw [hm']
      exact ih hR₁
    | error outcome =>
      cases hm' : m'.step code with
      | ok m₁' =>
        -- the first run would have to follow the second
        obtain ⟨m₁, hm₁, -⟩ := hstep (hsymm hR) m₁' hm'
        rw [hm] at hm₁
        cases hm₁
      | error outcome' =>
        have hsame := hpc hR
        rcases step_error_cases hm with ⟨hbehind, rfl⟩ | ⟨hlt, _, rfl⟩ <;>
          rcases step_error_cases hm' with ⟨hbehind', rfl⟩ | ⟨hlt', _, rfl⟩
        · rw [hexit hR]
          exact .halted
        · omega
        · omega
        · exact .faulted

theorem run_alike (hR : R m m') : (m.run code).Alike (m'.run code) := by
  unfold run
  have halike := runFor_alike hstep hsymm hpc hexit hR stepLimit
  revert halike
  generalize m.runFor code stepLimit = outcome
  generalize m'.runFor code stepLimit = outcome'
  intro halike
  cases halike with
  | halted => exact .halted
  | faulted => exact .faulted
  | running => exact .faulted

end Alike

end Machine

end PCode
