import PCode.Proofs.Machine.Tracking

namespace PCode

namespace Memory

variable {memory : Memory} {capacity index start count : Nat} {c : Cell}

/-- The same cells with room for another number of them. -/
def withCapacity (memory : Memory) (capacity : Nat) : Memory :=
  { memory with capacity }

@[simp] theorem capacity_withCapacity : (memory.withCapacity capacity).capacity = capacity := rfl

@[simp] theorem put_withCapacity : (memory.withCapacity capacity).put index c
    = (memory.put index c).withCapacity capacity := by
  obtain ⟨_, cells⟩ := memory
  unfold put withCapacity
  dsimp only
  by_cases h : index < cells.size
  · rw [if_pos h, if_pos h]
  · rw [if_neg h, if_neg h]

@[simp] theorem write_withCapacity (cs : List Cell) : (memory.withCapacity capacity).write start cs
    = (memory.write start cs).withCapacity capacity := by
  induction cs generalizing memory start with
  | nil => rfl
  | cons c cs ih => rw [write, write, put_withCapacity, ih]

@[simp] theorem read_withCapacity : (memory.withCapacity capacity).read start count
    = memory.read start count := by
  apply read_congr
  intro i _
  rfl

theorem get?_withCapacity (hle : memory.capacity ≤ capacity) (h : memory.get? index = some c) :
    (memory.withCapacity capacity).get? index = some c := by
  unfold get? at h ⊢
  split at h
  · rw [if_pos (by simp only [withCapacity]; omega)]
    exact h
  · cases h

end Memory

namespace Machine

variable {code : Array Instruction} {m m' : Machine} {capacity level : Nat} {c : Cell}

/-- The same state with more room behind the cells in use. -/
structure Widened (capacity : Nat) (m m' : Machine) : Prop where
  eq : m' = { m with memory := m.memory.withCapacity capacity }
  le : m.memory.capacity ≤ capacity

namespace Widened

section

variable (h : Widened capacity m m')
include h

theorem memory : m'.memory = m.memory.withCapacity capacity := by
  rw [h.eq]

theorem top : m'.top = m.top := by
  rw [h.eq]

theorem base : m'.base = m.base := by
  rw [h.eq]

theorem next : m'.next = m.next := by
  rw [h.eq]

theorem capacity_eq : m'.memory.capacity = capacity := by
  rw [h.memory, Memory.capacity_withCapacity]

theorem get? {index : Nat} (hc : m.memory.get? index = some c) : m'.memory.get? index = some c := by
  rw [h.memory]
  exact Memory.get?_withCapacity h.le hc

theorem push (c : Cell) : Tracks (Widened capacity) (m.push c) (m'.push c) := by
  rw [push_eq, push_eq]
  by_cases hroom : m.top < m.memory.capacity
  · have hroom' : m'.top < m'.memory.capacity := by
      rw [h.top, h.capacity_eq]
      exact Nat.lt_of_lt_of_le hroom h.le
    rw [if_pos hroom, if_pos hroom']
    apply Tracks.ok
    refine ⟨?_, by rw [Memory.capacity_put]; exact h.le⟩
    simp only [h.eq, Memory.put_withCapacity]
  · rw [if_neg hroom]
    exact .error

end

theorem demand {α : Type} {x y : Option α} (hxy : ∀ a, x = some a → y = some a) :
    Tracks (fun a b => a = b) (m.demand x) (m'.demand y) := by
  cases x with
  | none => exact .error
  | some a =>
    rw [hxy a rfl]
    exact .ok rfl

theorem pop (h : Widened capacity m m') : Tracks
    (fun p q : Cell × Machine => p.1 = q.1 ∧ Widened capacity p.2 q.2) m.pop m'.pop := by
  unfold Machine.pop
  rw [h.top]
  cases m.top with
  | zero => exact .error
  | succ top =>
    apply (demand fun a => h.get?).bind
    rintro a _ rfl
    apply Tracks.ok
    exact ⟨rfl, by simp only [h.eq], h.le⟩

theorem follow? {memory : Memory} (hle : memory.capacity ≤ capacity) {base link : Nat}
    (h : Machine.follow? memory level base = some link) :
    Machine.follow? (memory.withCapacity capacity) level base = some link := by
  induction level generalizing base with
  | zero => exact h
  | succ level ih =>
    rw [Machine.follow?] at h ⊢
    cases hcell : memory.get? base with
    | none => simp [hcell] at h
    | some cell =>
      rw [hcell] at h
      rw [Memory.get?_withCapacity hle hcell]
      exact ih h

variable (h : Widened capacity m m')
include h

theorem frame (level : Nat) : Tracks (fun a b => a = b) (m.frame level) (m'.frame level) := by
  apply demand
  intro base hbase
  rw [h.memory, h.base]
  exact follow? h.le hbase

theorem operate (operand : Cell) :
    Tracks (Widened capacity) (m.operate operand) (m'.operate operand) := by
  apply (demand fun _ => id).bind
  rintro operator _ rfl
  apply h.pop.bind
  rintro ⟨right, m₁⟩ ⟨_, m₁'⟩ ⟨rfl, h₁⟩
  cases operator.isUnary with
  | true => exact h₁.push _
  | false =>
    apply h₁.pop.bind
    rintro ⟨left, m₂⟩ ⟨_, m₂'⟩ ⟨rfl, h₂⟩
    exact h₂.push _

theorem load (level : Nat) (operand : Cell) :
    Tracks (Widened capacity) (m.load level operand) (m'.load level operand) := by
  apply (h.frame level).bind
  rintro base _ rfl
  apply (demand fun a => h.get?).bind
  rintro cell _ rfl
  exact h.push cell

theorem store (level : Nat) (operand : Cell) :
    Tracks (Widened capacity) (m.store level operand) (m'.store level operand) := by
  apply h.pop.bind
  rintro ⟨cell, m₁⟩ ⟨_, m₁'⟩ ⟨rfl, h₁⟩
  apply (h₁.frame level).bind
  rintro base _ rfl
  dsimp only at h₁ ⊢
  by_cases hroom : base + operand.toAddress < m₁.memory.capacity
  · have hroom' : base + operand.toAddress < m₁'.memory.capacity := by
      rw [h₁.capacity_eq]
      exact Nat.lt_of_lt_of_le hroom h₁.le
    rw [if_pos hroom, if_pos hroom']
    apply Tracks.ok
    refine ⟨?_, by rw [Memory.capacity_put]; exact h₁.le⟩
    simp only [h₁.eq, Memory.put_withCapacity]
  · rw [if_neg hroom]
    exact .error

theorem resize (amount : Cell) :
    Tracks (Widened capacity) (m.resize amount) (m'.resize amount) := by
  have hle := h.le
  unfold Machine.resize
  dsimp only
  rw [h.capacity_eq, h.top]
  by_cases hsize : ((m.top : Int) + amount.toInt < 0 ||
      (m.memory.capacity : Int) < m.top + amount.toInt) = true
  · rw [if_pos hsize]
    exact .error
  · -- a top that lies within the smaller memory lies within the larger one
    have hsize' : ¬ ((m.top : Int) + amount.toInt < 0 ||
        (capacity : Int) < m.top + amount.toInt) = true := by
      simp only [Bool.or_eq_true, decide_eq_true_eq] at hsize ⊢
      omega
    rw [if_neg hsize, if_neg hsize']
    apply Tracks.ok
    refine ⟨?_, by rw [Memory.capacity_write]; exact h.le⟩
    simp only [h.eq, Memory.write_withCapacity]

theorem openFrame (level : Nat) :
    Tracks (Widened capacity) (m.openFrame level) (m'.openFrame level) := by
  apply (h.frame level).bind
  rintro link _ rfl
  rw [h.base, h.next]
  apply (h.push _).bind
  intro m₁ m₁' h₁
  apply (h₁.push _).bind
  intro m₂ m₂' h₂
  apply (h₂.push _).bind
  intro m₃ m₃' h₃
  obtain ⟨rfl, hle⟩ := h₃
  exact .ok ⟨rfl, hle⟩

theorem call (entry : Nat) : Tracks (Widened capacity) (m.call entry) (m'.call entry) := by
  unfold Machine.call
  dsimp only
  rw [h.next]
  cases hsaved : m.memory.get? (m.next + 2) with
  | none => exact .error
  | some saved =>
    rw [h.get? hsaved]
    apply Tracks.ok
    refine ⟨?_, by rw [Memory.capacity_put]; exact h.le⟩
    simp only [h.eq, Memory.put_withCapacity]

theorem leave (size : Nat) : Tracks (Widened capacity) (m.leave size) (m'.leave size) := by
  unfold Machine.leave
  dsimp only
  rw [h.base, h.top, h.capacity_eq]
  cases hcaller : m.memory.get? (m.base + 1) with
  | none => exact .error
  | some caller =>
    cases haddress : m.memory.get? (m.base + 2) with
    | none => exact .error
    | some address =>
      rw [h.get? hcaller, h.get? haddress]
      dsimp only
      by_cases hsize : (decide (size ≤ m.top) && decide (m.base + size ≤ m.memory.capacity)) = true
      · have hsize' : (decide (size ≤ m.top) && decide (m.base + size ≤ capacity)) = true := by
          simp only [Bool.and_eq_true, decide_eq_true_eq] at hsize ⊢
          exact ⟨hsize.1, Nat.le_trans hsize.2 h.le⟩
        rw [if_pos hsize, if_pos hsize']
        apply Tracks.ok
        refine ⟨?_, by rw [Memory.capacity_write]; exact h.le⟩
        simp only [h.eq, Memory.read_withCapacity, Memory.write_withCapacity]
      · rw [if_neg hsize]
        exact .error

theorem jumpUnless (target : Nat) :
    Tracks (Widened capacity) (m.jumpUnless target) (m'.jumpUnless target) := by
  apply h.pop.bind
  rintro ⟨cell, m₁⟩ ⟨_, m₁'⟩ ⟨rfl, h₁⟩
  apply Tracks.ok
  dsimp only at h₁ ⊢
  obtain ⟨rfl, hle⟩ := h₁
  by_cases hzero : cell = 0
  · rw [if_pos hzero, if_pos hzero]
    exact ⟨rfl, hle⟩
  · rw [if_neg hzero, if_neg hzero]
    exact ⟨rfl, hle⟩

/-- What an instruction does in a memory, it does in a larger one. -/
theorem execute (i : Instruction) : Tracks (Widened capacity) (m.execute i) (m'.execute i) := by
  have hadvance : ∀ a b, Widened capacity a b → Widened capacity a.advance b.advance := by
    rintro a _ ⟨rfl, hle⟩
    exact ⟨rfl, hle⟩
  unfold Machine.execute
  cases i.op with
  | lit => exact (h.push _).map hadvance
  | opr => exact (h.operate _).map hadvance
  | lod => exact (h.load _ _).map hadvance
  | sto => exact (h.store _ _).map hadvance
  | ini => exact (h.resize _).map hadvance
  | cap => exact (h.openFrame _).map hadvance
  | cal => exact h.call _
  | ret => exact h.leave _
  | jmp =>
    obtain ⟨rfl, hle⟩ := h
    exact .ok ⟨rfl, hle⟩
  | jpc => exact h.jumpUnless _

theorem exit : m'.exit = m.exit := by
  rw [h.eq]
  simp only [Machine.exit, Memory.read_withCapacity]

theorem step : Tracks (Widened capacity) (m.step code) (m'.step code) := by
  apply step_tracks
  · rw [h.eq]
  · intro i _
    exact h.execute i
  · rintro a _ ⟨rfl, hle⟩
    exact ⟨rfl, hle⟩

theorem run {exit : Exit} {memory : Memory} (hrun : m.run code = .halted exit memory) :
    m'.run code = .halted exit (memory.withCapacity capacity) := by
  rw [run_eq_halted_iff] at hrun ⊢
  obtain ⟨last, last', hlast, rfl, rfl, hrun'⟩ :=
    halted_of_tracks (fun h => h.step) (fun h => by rw [h.eq]) h hrun
  rw [hrun', hlast.exit, hlast.memory]

theorem pushAll (cells : List Cell) :
    Tracks (Widened capacity) (m.pushAll cells) (m'.pushAll cells) := by
  induction cells generalizing m m' with
  | nil => exact .ok h
  | cons c cells ih =>
    apply (h.push c).bind
    intro m₁ m₁' h₁
    exact ih h₁

end Widened

theorem start_widened {small large : Nat} (hle : small ≤ large) :
    Widened large (start (.blank small)) (start (.blank large)) :=
  ⟨rfl, hle⟩

end Machine

namespace Image

variable {image : Image} {small large : Nat}

theorem enter_widened (hle : small ≤ large) (entry : Nat) (args : List Cell) :
    Tracks (Machine.Widened large) (image.enter (.blank small) entry args)
      (image.enter (.blank large) entry args) := by
  apply ((Machine.start_widened hle).pushAll _).bind
  rintro m _ ⟨rfl, hm⟩
  exact .ok ⟨rfl, hm⟩

/-- Whatever halts in a fresh memory halts in a larger one with the same stack after as many steps,
be it the program or one of its functions. -/
theorem halts_of_capacity_le (image : Image) (hle : small ≤ large) :
    (∀ exit memory, image.run (.blank small) = .halted exit memory →
      image.run (.blank large) = .halted exit (memory.withCapacity large)) ∧
    ∀ name args exit memory, image.invoke? (.blank small) name args = some (.halted exit memory) →
      image.invoke? (.blank large) name args
        = some (.halted exit (memory.withCapacity large)) := by
  constructor
  · intro exit memory hrun
    exact (Machine.start_widened hle).run hrun
  · intro name args exit memory hrun
    obtain ⟨entry, hentry, hrun⟩ := Option.map_eq_some_iff.mp hrun
    rw [invoke?, hentry, Option.map_some]
    cases henter : image.enter (.blank small) entry args with
    | error fault => simp [henter] at hrun
    | ok m =>
      obtain ⟨m', henter', hm⟩ := enter_widened hle entry args m henter
      rw [henter] at hrun
      rw [henter']
      exact congrArg some (hm.run hrun)

/-- Code that stores below its stack, drops cells and jumps to a negative address. -/
def strayImage : Image where
  code := #[⟨.lit, 0, 7⟩, ⟨.ini, 0, 1⟩, ⟨.lit, 0, 9⟩, ⟨.sto, 0, 0⟩, ⟨.ini, 0, -1⟩, ⟨.jmp, 0, -1⟩]
  functions := [("f", 2)]

theorem strayImage_halts : strayImage.run (.blank 3) = .halted ⟨[9], 6⟩ ⟨3, #[9, 0, 9]⟩ ∧
    strayImage.run (.blank 64) = .halted ⟨[9], 6⟩ ⟨64, #[9, 0, 9]⟩ ∧
    strayImage.invoke? (.blank 5) "f" [4] = some (.halted ⟨[9, 0, 6], 4⟩ ⟨5, #[9, 0, 6, 4, 9]⟩) ∧
    strayImage.invoke? (.blank 64) "f" [4]
      = some (.halted ⟨[9, 0, 6], 4⟩ ⟨64, #[9, 0, 6, 4, 9]⟩) := by
  have hrun : strayImage.run (.blank 3) = .halted ⟨[9], 6⟩ ⟨3, #[9, 0, 9]⟩ := by
    rfl
  have hinvoke : strayImage.invoke? (.blank 5) "f" [4]
      = some (.halted ⟨[9, 0, 6], 4⟩ ⟨5, #[9, 0, 6, 4, 9]⟩) := by
    rfl
  exact ⟨hrun, (halts_of_capacity_le strayImage (by decide)).1 _ _ hrun, hinvoke,
    (halts_of_capacity_le strayImage (by decide)).2 _ _ _ _ hinvoke⟩

end Image

end PCode
