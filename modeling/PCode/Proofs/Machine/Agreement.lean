import PCode.Proofs.Machine.Tracking

namespace PCode

/-- Memories of one size that hold the same up to a limit. -/
structure Memory.AgreesBelow (limit : Nat) (memory memory' : Memory) : Prop where
  capacity : memory'.capacity = memory.capacity
  cells : ∀ i < limit, memory'.cell i = memory.cell i

namespace Memory.AgreesBelow

variable {memory memory' : Memory} {limit index start count : Nat} {c : Cell}

section

variable (h : AgreesBelow limit memory memory')
include h

theorem symm : AgreesBelow limit memory' memory :=
  ⟨h.capacity.symm, fun i hi => (h.cells i hi).symm⟩

theorem mono {limit' : Nat} (hle : limit' ≤ limit) : AgreesBelow limit' memory memory' :=
  ⟨h.capacity, fun i hi => h.cells i (Nat.lt_of_lt_of_le hi hle)⟩

theorem get? (hindex : index < limit) : memory'.get? index = memory.get? index := by
  rw [get?_eq, get?_eq, h.capacity, h.cells index hindex]

theorem put (index : Nat) (c : Cell) :
    AgreesBelow limit (memory.put index c) (memory'.put index c) := by
  refine ⟨by simp [h.capacity], fun i hi => ?_⟩
  rw [cell_put, cell_put, h.cells i hi]

theorem put_limit (c : Cell) :
    AgreesBelow (limit + 1) (memory.put limit c) (memory'.put limit c) := by
  refine ⟨by simp [h.capacity], fun i hi => ?_⟩
  rw [cell_put, cell_put]
  by_cases hlast : i = limit
  · rw [if_pos hlast, if_pos hlast]
  · rw [if_neg hlast, if_neg hlast, h.cells i (by omega)]

end

theorem write (cs : List Cell) {memory memory' : Memory} {limit start : Nat}
    (h : AgreesBelow limit memory memory') (hstart : start ≤ limit) :
    AgreesBelow (max limit (start + cs.length)) (memory.write start cs)
      (memory'.write start cs) := by
  induction cs generalizing memory memory' limit start with
  | nil => exact h.mono (by simp [hstart])
  | cons c cs ih =>
    have hput : AgreesBelow (max limit (start + 1)) (memory.put start c) (memory'.put start c) := by
      by_cases hlast : start = limit
      · subst hlast
        exact (h.put_limit c).mono (by omega)
      · exact (h.put start c).mono (by omega)
    have hrest := ih hput (Nat.le_max_right _ _)
    rw [Memory.write, Memory.write]
    apply hrest.mono
    rw [List.length_cons]
    omega

theorem read (h : AgreesBelow limit memory memory') (hcount : start + count ≤ limit) :
    memory'.read start count = memory.read start count := by
  apply read_congr
  intro i hi
  exact h.cells _ (by omega)

end Memory.AgreesBelow

namespace Machine

variable {code : Array Instruction} {m m' : Machine} {level limit : Nat}

/-- All links that are followed on the way to a level stand below a limit. -/
def LinksBelow (m : Machine) (level limit : Nat) : Prop :=
  ∀ k < level, ∀ base, follow? m.memory k m.base = some base → base < limit

/-- The instruction looks at cells of the stack only. -/
def LooksBelow (m : Machine) (i : Instruction) : Prop :=
  match i.op with
  | .lod => m.LinksBelow i.level m.top ∧ ∀ base, follow? m.memory i.level m.base = some base →
      base + i.operand.toAddress < m.top
  | .sto => m.LinksBelow i.level (m.top - 1)
  | .cap => m.LinksBelow i.level m.top
  | .cal => m.next + 2 < m.top
  | .ret => m.base + 2 < m.top
  | _ => True

/-- Two states that differ in what lies above the stack only. -/
structure SameStack (m m' : Machine) : Prop where
  registers : m' = { m with memory := m'.memory }
  memory : m.memory.AgreesBelow m.top m'.memory

theorem follow?_agrees {memory memory' : Memory} {base : Nat}
    (h : memory.AgreesBelow limit memory')
    (hlinks : ∀ k < level, ∀ link, follow? memory k base = some link → link < limit) :
    follow? memory' level base = follow? memory level base := by
  induction level generalizing base with
  | zero => rfl
  | succ level ih =>
    have hbase := hlinks 0 (Nat.succ_pos level) base rfl
    rw [follow?, follow?, h.get? hbase]
    cases hcell : memory.get? base with
    | none => rfl
    | some cell =>
      apply ih
      intro k hk link hlink
      apply hlinks (k + 1) (Nat.succ_lt_succ hk)
      rw [follow?, hcell]
      exact hlink

namespace SameStack

variable (h : SameStack m m')
include h

theorem top : m'.top = m.top := by
  rw [h.registers]

theorem base : m'.base = m.base := by
  rw [h.registers]

theorem next : m'.next = m.next := by
  rw [h.registers]

theorem pc : m'.pc = m.pc := by
  rw [h.registers]

theorem symm : SameStack m' m := by
  refine ⟨?_, ?_⟩
  · rw [h.registers]
  · rw [h.top]
    exact h.memory.symm

theorem exit : m'.exit = m.exit := by
  unfold Machine.exit
  rw [h.top, h.memory.read (by omega)]
  rw [h.registers]

theorem push (c : Cell) : Tracks SameStack (m.push c) (m'.push c) := by
  rw [push_eq, push_eq, h.top, h.memory.capacity]
  by_cases hroom : m.top < m.memory.capacity
  · rw [if_pos hroom, if_pos hroom]
    apply Tracks.ok
    refine ⟨?_, h.memory.put_limit c⟩
    rw [h.registers]
  · rw [if_neg hroom]
    exact .error

theorem pop : Tracks
    (fun p q : Cell × Machine => p.1 = q.1 ∧ SameStack p.2 q.2 ∧ p.2 = { m with top := m.top - 1 })
    m.pop m'.pop := by
  unfold Machine.pop
  rw [h.top]
  cases htop : m.top with
  | zero => exact .error
  | succ top =>
    dsimp only
    rw [h.memory.get? (by omega)]
    cases m.memory.get? top with
    | none => exact .error
    | some cell =>
      apply Tracks.ok
      refine ⟨rfl, ⟨?_, h.memory.mono (htop ▸ Nat.le_succ top)⟩, rfl⟩
      rw [h.registers]

theorem frame (hlinks : m.LinksBelow level m.top) :
    Tracks (fun a b => a = b ∧ follow? m.memory level m.base = some a) (m.frame level)
      (m'.frame level) := by
  unfold Machine.frame
  rw [h.base, follow?_agrees h.memory hlinks]
  cases hbase : follow? m.memory level m.base with
  | none => exact .error
  | some base => exact .ok ⟨rfl, rfl⟩

theorem operate (operand : Cell) : Tracks SameStack (m.operate operand) (m'.operate operand) := by
  unfold Machine.operate
  cases Operator.ofOperand? operand with
  | none => exact .error
  | some operator =>
    apply h.pop.bind
    rintro ⟨right, m₁⟩ ⟨_, m₁'⟩ ⟨rfl, h₁, -⟩
    dsimp only
    cases operator.isUnary with
    | true => exact h₁.push _
    | false =>
      apply h₁.pop.bind
      rintro ⟨left, m₂⟩ ⟨_, m₂'⟩ ⟨rfl, h₂, -⟩
      exact h₂.push _

theorem load {operand : Cell} (hlinks : m.LinksBelow level m.top)
    (hcell : ∀ base, follow? m.memory level m.base = some base → base + operand.toAddress < m.top) :
    Tracks SameStack (m.load level operand) (m'.load level operand) := by
  apply (h.frame hlinks).bind
  rintro base _ ⟨rfl, hbase⟩
  rw [h.memory.get? (hcell base hbase)]
  cases m.memory.get? (base + operand.toAddress) with
  | none => exact .error
  | some cell => exact h.push cell

theorem store {operand : Cell} (hlinks : m.LinksBelow level (m.top - 1)) :
    Tracks SameStack (m.store level operand) (m'.store level operand) := by
  apply h.pop.bind
  rintro ⟨cell, m₁⟩ ⟨_, m₁'⟩ ⟨rfl, h₁, hm₁⟩
  dsimp only at h₁ hm₁ ⊢
  -- the links are followed after the value is popped, from a stack that is lower by a cell
  have hlinks₁ : m₁.LinksBelow level m₁.top := by
    rw [hm₁]
    exact hlinks
  apply (h₁.frame hlinks₁).bind
  rintro base _ ⟨rfl, -⟩
  rw [h₁.memory.capacity]
  by_cases hroom : base + operand.toAddress < m₁.memory.capacity
  · rw [if_pos hroom, if_pos hroom]
    apply Tracks.ok
    refine ⟨?_, h₁.memory.put _ cell⟩
    rw [h₁.registers]
  · rw [if_neg hroom]
    exact .error

theorem resize (amount : Cell) : Tracks SameStack (m.resize amount) (m'.resize amount) := by
  unfold Machine.resize
  dsimp only
  rw [h.top, h.memory.capacity]
  split
  · exact .error
  · apply Tracks.ok
    refine ⟨?_, (h.memory.write _ (Nat.le_refl _)).mono ?_⟩
    · rw [h.registers]
    · rw [List.length_replicate]
      dsimp only
      omega

theorem openFrame (hlinks : m.LinksBelow level m.top) :
    Tracks SameStack (m.openFrame level) (m'.openFrame level) := by
  apply (h.frame hlinks).bind
  rintro link _ ⟨rfl, -⟩
  rw [h.base, h.next]
  apply (h.push _).bind
  intro m₁ m₁' h₁
  apply (h₁.push _).bind
  intro m₂ m₂' h₂
  apply (h₂.push _).bind
  intro m₃ m₃' h₃
  apply Tracks.ok
  refine ⟨?_, h₃.memory⟩
  rw [h₃.registers]

theorem call (hnext : m.next + 2 < m.top) (entry : Nat) :
    Tracks SameStack (m.call entry) (m'.call entry) := by
  unfold Machine.call
  dsimp only
  rw [h.next, h.pc, h.memory.get? hnext]
  cases m.memory.get? (m.next + 2) with
  | none => exact .error
  | some saved =>
    apply Tracks.ok
    refine ⟨?_, h.memory.put _ _⟩
    rw [h.registers]

theorem leave (hheader : m.base + 2 < m.top) (size : Nat) :
    Tracks SameStack (m.leave size) (m'.leave size) := by
  unfold Machine.leave
  dsimp only
  rw [h.base, h.top, h.memory.capacity, h.memory.get? (show m.base + 1 < m.top by omega),
    h.memory.get? hheader]
  cases m.memory.get? (m.base + 1) with
  | none => exact .error
  | some caller =>
    cases m.memory.get? (m.base + 2) with
    | none => exact .error
    | some address =>
      dsimp only
      split
      · rename_i hsize
        simp only [Bool.and_eq_true, decide_eq_true_eq] at hsize
        rw [h.memory.read (show m.top - size + size ≤ m.top by omega)]
        apply Tracks.ok
        refine ⟨?_, (h.memory.write _ (by omega)).mono ?_⟩
        · rw [h.registers]
        · rw [Memory.length_read]
          exact Nat.le_max_right _ _
      · exact .error

theorem jumpUnless (target : Nat) :
    Tracks SameStack (m.jumpUnless target) (m'.jumpUnless target) := by
  apply h.pop.bind
  rintro ⟨cell, m₁⟩ ⟨_, m₁'⟩ ⟨rfl, h₁, -⟩
  dsimp only at h₁ ⊢
  apply Tracks.ok
  by_cases hzero : cell = 0
  · rw [if_pos hzero, if_pos hzero]
    refine ⟨?_, h₁.memory⟩
    rw [h₁.registers]
  · rw [if_neg hzero, if_neg hzero]
    refine ⟨?_, h₁.memory⟩
    rw [h₁.registers]
    rfl

/-- An instruction that looks at the stack only does not see what lies above it. -/
theorem execute {i : Instruction} (hlooks : m.LooksBelow i) :
    Tracks SameStack (m.execute i) (m'.execute i) := by
  have hadvance : ∀ a b, SameStack a b → SameStack a.advance b.advance := by
    intro a b hab
    refine ⟨?_, hab.memory⟩
    rw [hab.registers]
    rfl
  unfold LooksBelow at hlooks
  unfold Machine.execute
  cases hop : i.op with
  | lit => exact (h.push _).map hadvance
  | opr => exact (h.operate _).map hadvance
  | lod =>
    rw [hop] at hlooks
    exact (h.load hlooks.1 hlooks.2).map hadvance
  | sto =>
    rw [hop] at hlooks
    exact (h.store hlooks).map hadvance
  | ini => exact (h.resize _).map hadvance
  | cap =>
    rw [hop] at hlooks
    exact (h.openFrame hlooks).map hadvance
  | cal =>
    rw [hop] at hlooks
    exact h.call hlooks _
  | ret =>
    rw [hop] at hlooks
    exact h.leave hlooks _
  | jmp =>
    apply Tracks.ok
    refine ⟨?_, h.memory⟩
    rw [h.registers]
  | jpc => exact h.jumpUnless _

theorem step (hlooks : ∀ i, code[m.pc]? = some i → m.LooksBelow i) :
    Tracks SameStack (m.step code) (m'.step code) := by
  apply step_tracks
  · exact h.pc
  · intro i hi
    exact h.execute (hlooks i hi)
  · intro a b hab
    refine ⟨?_, hab.memory⟩
    rw [hab.registers]

end SameStack

end Machine

end PCode
