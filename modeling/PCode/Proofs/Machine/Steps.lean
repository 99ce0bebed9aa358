import PCode.Machine.Run
import PCode.Proofs.Machine.Memory

namespace PCode

theorem Operator.ofOperand?_operand (operator : Operator) :
    ofOperand? operator.operand = some operator := by
  cases operator <;> decide

namespace Machine

variable {code : Array Instruction} {m : Machine} {level : Nat} {c : Cell}

/-- The next step faults. -/
def Faults (code : Array Instruction) (m : Machine) : Prop :=
  ∃ memory, m.step code = .error (.faulted memory)

/-- The state behind an instruction that leaves this memory and this many cells on the stack. -/
def moved (m : Machine) (memory : Memory) (top : Nat) : Machine :=
  { m with memory, top, pc := m.pc + 1, steps := m.steps + 1 }

section Moved

variable (memory : Memory) (top : Nat)

@[simp] theorem moved_memory : (m.moved memory top).memory = memory := rfl
@[simp] theorem moved_top : (m.moved memory top).top = top := rfl
@[simp] theorem moved_base : (m.moved memory top).base = m.base := rfl
@[simp] theorem moved_next : (m.moved memory top).next = m.next := rfl
@[simp] theorem moved_pc : (m.moved memory top).pc = m.pc + 1 := rfl

end Moved

theorem step_eq {i : Instruction} (h : code[m.pc]? = some i) : m.step code =
    match m.execute i with
    | .error fault => .error (.faulted fault.memory)
    | .ok m => .ok { m with steps := m.steps + 1 } := by
  cases hexecute : m.execute i <;> simp only [step, h, hexecute]

theorem push_eq (m : Machine) (c : Cell) : m.push c = if m.top < m.memory.capacity then
    .ok { m with memory := m.memory.put m.top c, top := m.top + 1 } else .error ⟨m.memory⟩ := rfl

theorem pop_eq {top : Nat} (htop : m.top = top + 1) (h : top < m.memory.capacity) :
    m.pop = .ok (m.memory.cell top, { m with top }) := by
  unfold pop
  rw [htop]
  simp only [Memory.get?_eq, if_pos h]
  rfl

theorem step_lit (h : code[m.pc]? = some ⟨.lit, level, c⟩) (hroom : m.top < m.memory.capacity) :
    m.step code = .ok (m.moved (m.memory.put m.top c) (m.top + 1)) := by
  rw [step_eq h]
  simp only [execute, push_eq, if_pos hroom]
  rfl

theorem faults_lit (h : code[m.pc]? = some ⟨.lit, level, c⟩) (hroom : m.memory.capacity ≤ m.top) :
    m.Faults code := by
  refine ⟨m.memory, ?_⟩
  rw [step_eq h]
  simp only [execute, push_eq, if_neg (Nat.not_lt.mpr hroom)]
  rfl

section Frame

variable {base : Nat} (hbase : follow? m.memory level m.base = some base)
include hbase

theorem frame_eq : m.frame level = .ok base := by
  unfold frame
  rw [hbase]
  rfl

theorem load_eq (ha : base + c.toAddress < m.memory.capacity) :
    m.load level c = m.push (m.memory.cell (base + c.toAddress)) := by
  unfold load
  simp only [frame_eq hbase, bind, Except.bind, Memory.get?_eq, if_pos ha]
  rfl

theorem step_lod (h : code[m.pc]? = some ⟨.lod, level, c⟩)
    (ha : base + c.toAddress < m.memory.capacity) (hroom : m.top < m.memory.capacity) :
    m.step code
      = .ok (m.moved (m.memory.put m.top (m.memory.cell (base + c.toAddress))) (m.top + 1)) := by
  rw [step_eq h]
  simp only [execute, load_eq hbase ha, push_eq, if_pos hroom]
  rfl

theorem faults_lod (h : code[m.pc]? = some ⟨.lod, level, c⟩)
    (ha : base + c.toAddress < m.memory.capacity) (hroom : m.memory.capacity ≤ m.top) :
    m.Faults code := by
  refine ⟨m.memory, ?_⟩
  rw [step_eq h]
  simp only [execute, load_eq hbase ha, push_eq, if_neg (Nat.not_lt.mpr hroom)]
  rfl

theorem step_sto {top : Nat} (h : code[m.pc]? = some ⟨.sto, level, c⟩) (htop : m.top = top + 1)
    (hcell : top < m.memory.capacity) (ha : base + c.toAddress < m.memory.capacity) :
    m.step code = .ok (m.moved (m.memory.put (base + c.toAddress) (m.memory.cell top)) top) := by
  rw [step_eq h]
  have hframe : ({ m with top } : Machine).frame level = .ok base := frame_eq hbase
  simp only [execute, store, pop_eq htop hcell]
  simp only [bind, Except.bind, hframe, if_pos ha]
  rfl

theorem step_cap (h : code[m.pc]? = some ⟨.cap, level, c⟩)
    (hroom : m.top + 3 ≤ m.memory.capacity) : m.step code = .ok { m.moved
      (((m.memory.put m.top (.ofAddress base)).put (m.top + 1) (.ofAddress m.base)).put (m.top + 2)
        (.ofAddress m.next)) (m.top + 3) with next := m.top } := by
  rw [step_eq h]
  simp only [execute, openFrame, frame_eq hbase, push_eq, bind, Except.bind]
  rw [if_pos (by omega)]
  simp only [Memory.capacity_put]
  rw [if_pos (by omega)]
  simp only [Memory.capacity_put]
  rw [if_pos (by omega)]
  rfl

theorem faults_cap (h : code[m.pc]? = some ⟨.cap, level, c⟩)
    (hroom : m.memory.capacity < m.top + 3) : m.Faults code := by
  unfold Faults
  rw [step_eq h]
  simp only [execute, openFrame, frame_eq hbase, push_eq, bind, Except.bind]
  by_cases h₁ : m.top < m.memory.capacity
  · simp only [if_pos h₁, Memory.capacity_put]
    by_cases h₂ : m.top + 1 < m.memory.capacity
    · simp only [if_pos h₂, Memory.capacity_put]
      rw [if_neg (by omega)]
      exact ⟨_, rfl⟩
    · simp only [if_neg h₂]
      exact ⟨_, rfl⟩
  · simp only [if_neg h₁]
    exact ⟨_, rfl⟩

end Frame

theorem step_unary {operator : Operator} {top : Nat} (h : code[m.pc]? = some ⟨.opr, level, c⟩)
    (hoperator : Operator.ofOperand? c = some operator) (hunary : operator.isUnary = true)
    (htop : m.top = top + 1) (hcell : top < m.memory.capacity) :
    m.step code
      = .ok (m.moved (m.memory.put top (operator.apply 0 (m.memory.cell top))) (top + 1)) := by
  rw [step_eq h]
  simp only [execute, operate, hoperator, demand, pop_eq htop hcell, bind, Except.bind, hunary,
    if_true, push_eq, if_pos hcell]
  rfl

theorem step_binary {operator : Operator} {top : Nat} (h : code[m.pc]? = some ⟨.opr, level, c⟩)
    (hoperator : Operator.ofOperand? c = some operator) (hbinary : operator.isUnary = false)
    (htop : m.top = top + 2) (hcell : top + 1 < m.memory.capacity) : m.step code
      = .ok (m.moved (m.memory.put top
          (operator.apply (m.memory.cell top) (m.memory.cell (top + 1)))) (top + 1)) := by
  have hsecond : ({ m with top := top + 1 } : Machine).pop
      = .ok (m.memory.cell top, { m with top }) :=
    pop_eq rfl (Nat.lt_of_succ_lt hcell)
  rw [step_eq h]
  simp only [execute, operate, hoperator, demand, pop_eq htop hcell, bind, Except.bind, hbinary,
    Bool.false_eq_true, if_false, hsecond, push_eq, if_pos (Nat.lt_of_succ_lt hcell)]
  rfl

section

variable (h : code[m.pc]? = some ⟨.ini, level, c⟩)
include h

theorem step_reserve {n : Nat} (hc : c.toInt = n) (hroom : m.top + n ≤ m.memory.capacity) :
    m.step code = .ok (m.moved (m.memory.write m.top (List.replicate n 0)) (m.top + n)) := by
  obtain ⟨memory, top, base, next, pc, steps⟩ := m
  rw [step_eq h]
  simp only at hroom
  have hsize : ¬ ((top : Int) + n < 0 ∨ (memory.capacity : Int) < top + n) := by omega
  simp only [execute, resize, hc, Bool.or_eq_true, decide_eq_true_eq, if_neg hsize]
  have hnat : ((top : Int) + n).toNat = top + n := by omega
  rw [hnat, Nat.add_sub_cancel_left]
  rfl

theorem faults_reserve {n : Nat} (hc : c.toInt = n) (hroom : m.memory.capacity < m.top + n) :
    m.Faults code := by
  obtain ⟨memory, top, base, next, pc, steps⟩ := m
  refine ⟨memory, ?_⟩
  rw [step_eq h]
  simp only at hroom
  have hsize : (top : Int) + n < 0 ∨ (memory.capacity : Int) < top + n := by omega
  simp only [execute, resize, hc, Bool.or_eq_true, decide_eq_true_eq, if_pos hsize]
  rfl

theorem step_discard {n top : Nat} (hc : c.toInt = -n) (htop : m.top = top + n)
    (hroom : m.top ≤ m.memory.capacity) : m.step code = .ok (m.moved m.memory top) := by
  obtain ⟨memory, _, base, next, pc, steps⟩ := m
  rw [step_eq h]
  simp only at htop hroom
  subst htop
  have hsize : ¬ (((top + n : Nat) : Int) + -n < 0 ∨
      (memory.capacity : Int) < (top + n : Nat) + -n) := by omega
  simp only [execute, resize, hc, Bool.or_eq_true, decide_eq_true_eq, if_neg hsize]
  have hnat : (((top + n : Nat) : Int) + -n).toNat = top := by omega
  rw [hnat, Nat.sub_eq_zero_of_le (Nat.le_add_right top n)]
  rfl

end

theorem step_cal (h : code[m.pc]? = some ⟨.cal, level, c⟩)
    (hnext : m.next + 2 < m.memory.capacity) : m.step code = .ok
      { memory := m.memory.put (m.next + 2) (.ofAddress (m.pc + 1))
        top := m.top
        base := m.next
        next := (m.memory.cell (m.next + 2)).toAddress
        pc := c.toAddress
        steps := m.steps + 1 } := by
  rw [step_eq h]
  simp only [execute, call, Memory.get?_eq, if_pos hnext]

theorem step_ret (h : code[m.pc]? = some ⟨.ret, level, c⟩)
    (hheader : m.base + 2 < m.memory.capacity) (hsize : c.toAddress ≤ m.top)
    (hroom : m.base + c.toAddress ≤ m.memory.capacity) : m.step code = .ok
      { memory := m.memory.write m.base (m.memory.read (m.top - c.toAddress) c.toAddress)
        top := m.base + c.toAddress
        base := (m.memory.cell (m.base + 1)).toAddress
        next := m.next
        pc := (m.memory.cell (m.base + 2)).toAddress
        steps := m.steps + 1 } := by
  have hheader' : m.base + 1 < m.memory.capacity := by omega
  rw [step_eq h]
  simp only [execute, leave, Memory.get?_eq, if_pos hheader, if_pos hheader', hsize, hroom,
    decide_true, Bool.and_true, if_true]

theorem faults_ret (h : code[m.pc]? = some ⟨.ret, level, c⟩)
    (hheader : m.base + 2 < m.memory.capacity)
    (hroom : ¬ (c.toAddress ≤ m.top ∧ m.base + c.toAddress ≤ m.memory.capacity)) :
    m.Faults code := by
  have hheader' : m.base + 1 < m.memory.capacity := by omega
  refine ⟨m.memory, ?_⟩
  rw [step_eq h]
  simp only [execute, leave, Memory.get?_eq, if_pos hheader, if_pos hheader', Bool.and_eq_true,
    decide_eq_true_eq, if_neg hroom]

theorem step_jmp (h : code[m.pc]? = some ⟨.jmp, level, c⟩) :
    m.step code = .ok { m with pc := c.toAddress, steps := m.steps + 1 } := by
  rw [step_eq h]
  rfl

theorem step_jpc {top : Nat} (h : code[m.pc]? = some ⟨.jpc, level, c⟩) (htop : m.top = top + 1)
    (hcell : top < m.memory.capacity) : m.step code = .ok
      { m with
        top
        pc := if m.memory.cell top = 0 then c.toAddress else m.pc + 1
        steps := m.steps + 1 } := by
  rw [step_eq h]
  simp only [execute, jumpUnless, pop_eq htop hcell, bind, Except.bind]
  by_cases hzero : m.memory.cell top = 0
  · simp [hzero]
  · simp [hzero, advance]

end Machine

end PCode
