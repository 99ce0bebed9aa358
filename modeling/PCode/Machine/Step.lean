import PCode.Machine.Image
import PCode.Machine.Memory

namespace PCode

/-- The state of a run: the memory, the number of cells in use, the base of the current frame and of
the frame under construction, the address of the next instruction, and the steps taken. -/
structure Machine where
  memory : Memory
  top : Nat := 0
  base : Nat := 0
  next : Nat := 0
  pc : Nat := 0
  steps : Nat := 0

/-- A step that touched a cell outside the memory or the stack, with the memory it left. -/
structure Fault where
  memory : Memory

namespace Machine

def start (memory : Memory) : Machine :=
  { memory }

def demand {α : Type} (m : Machine) : Option α → Except Fault α
  | some value => .ok value
  | none => .error ⟨m.memory⟩

def push (m : Machine) (cell : Cell) : Except Fault Machine :=
  let ⟨memory, top, base, next, pc, steps⟩ := m
  if top < memory.capacity then .ok ⟨memory.put top cell, top + 1, base, next, pc, steps⟩
  else .error ⟨memory⟩

def pop (m : Machine) : Except Fault (Cell × Machine) :=
  match m.top with
  | 0 => .error ⟨m.memory⟩
  | top + 1 => do
    let cell ← m.demand (m.memory.get? top)
    .ok (cell, { m with top })

def follow? (memory : Memory) : Nat → Nat → Option Nat
  | 0, base => some base
  | level + 1, base =>
    match memory.get? base with
    | some link => follow? memory level link.toAddress
    | none => none

/-- The base of the frame at a level above the current one. -/
def frame (m : Machine) (level : Nat) : Except Fault Nat :=
  m.demand (follow? m.memory level m.base)

/-- Goes on with the instruction behind the current one. -/
def advance (m : Machine) : Machine :=
  { m with pc := m.pc + 1 }

def resize (m : Machine) (amount : Cell) : Except Fault Machine :=
  let ⟨memory, top, base, next, pc, steps⟩ := m
  let size : Int := top + amount.toInt
  if size < 0 || memory.capacity < size then .error ⟨memory⟩
  else
    let zeros := List.replicate (size.toNat - top) 0
    .ok ⟨memory.write top zeros, size.toNat, base, next, pc, steps⟩

/-- Starts a frame. The base of the frame under construction is kept in the cell of the return
address until the call. -/
def openFrame (m : Machine) (level : Nat) : Except Fault Machine := do
  let link ← m.frame level
  let base := m.base
  let next := m.next
  let m ← m.push (.ofAddress link)
  let m ← m.push (.ofAddress base)
  let m ← m.push (.ofAddress next)
  .ok { m with next := m.top - 3 }

/-- Enters the frame under construction. The addresses of `call`, `load` and `store` follow the
build with overflow checks: a sum past `2 ^ 64` is no address of a cell and faults. -/
def call (m : Machine) (entry : Nat) : Except Fault Machine :=
  let ⟨memory, top, _, next, pc, steps⟩ := m
  match memory.get? (next + 2) with
  | none => .error ⟨memory⟩
  | some saved =>
    let memory := memory.put (next + 2) (.ofAddress (pc + 1))
    .ok ⟨memory, top, next, saved.toAddress, entry, steps⟩

/-- Leaves the current frame: the topmost cells move to its base and stay as the result. -/
def leave (m : Machine) (size : Nat) : Except Fault Machine :=
  let ⟨memory, top, base, next, _, steps⟩ := m
  match memory.get? (base + 1), memory.get? (base + 2) with
  | some caller, some address =>
    if size ≤ top && base + size ≤ memory.capacity then
      let memory := memory.write base (memory.read (top - size) size)
      .ok ⟨memory, base + size, caller.toAddress, next, address.toAddress, steps⟩
    else .error ⟨memory⟩
  | _, _ => .error ⟨memory⟩

/-- Replaces the topmost cells by the result of an operator on them. -/
def operate (m : Machine) (operand : Cell) : Except Fault Machine := do
  let operator ← m.demand (Operator.ofOperand? operand)
  let (right, m) ← m.pop
  if operator.isUnary then m.push (operator.apply 0 right)
  else
    let (left, m) ← m.pop
    m.push (operator.apply left right)

/-- Pushes a variable; the sum of base and operand is checked for overflow. -/
def load (m : Machine) (level : Nat) (operand : Cell) : Except Fault Machine := do
  let base ← m.frame level
  let cell ← m.demand (m.memory.get? (base + operand.toAddress))
  m.push cell

/-- Pops a cell into a variable; the sum of base and operand is checked for overflow. -/
def store (m : Machine) (level : Nat) (operand : Cell) : Except Fault Machine := do
  let (cell, m) ← m.pop
  let base ← m.frame level
  let ⟨memory, top, b, next, pc, steps⟩ := m
  if base + operand.toAddress < memory.capacity then
    .ok ⟨memory.put (base + operand.toAddress) cell, top, b, next, pc, steps⟩
  else .error ⟨memory⟩

def jumpUnless (m : Machine) (target : Nat) : Except Fault Machine := do
  let (cell, m) ← m.pop
  .ok (if cell = 0 then { m with pc := target } else m.advance)

def execute (m : Machine) (i : Instruction) : Except Fault Machine :=
  match i.op with
  | .lit => advance <$> m.push i.operand
  | .opr => advance <$> m.operate i.operand
  | .lod => advance <$> m.load i.level i.operand
  | .sto => advance <$> m.store i.level i.operand
  | .ini => advance <$> m.resize i.operand
  | .cap => advance <$> m.openFrame i.level
  | .cal => m.call i.operand.toAddress
  | .ret => m.leave i.operand.toAddress
  | .jmp => .ok { m with pc := i.operand.toAddress }
  | .jpc => m.jumpUnless i.operand.toAddress

end Machine

end PCode
