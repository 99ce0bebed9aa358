import PCode.Machine.Operator

namespace PCode

structure Memory where
  capacity : Nat
  cells : Array Cell

namespace Memory

def blank (capacity : Nat) : Memory :=
  ⟨capacity, #[]⟩

def get? (memory : Memory) (index : Nat) : Option Cell :=
  if index < memory.capacity then some (memory.cells.getD index 0) else none

/-- Writes a cell, whether or not its index is below the capacity. -/
def put (memory : Memory) (index : Nat) (cell : Cell) : Memory :=
  let ⟨capacity, cells⟩ := memory
  if index < cells.size then ⟨capacity, cells.setIfInBounds index cell⟩
  else ⟨capacity, (cells ++ Array.replicate (index - cells.size) 0).push cell⟩

def read (memory : Memory) (start : Nat) : Nat → List Cell
  | 0 => []
  | count + 1 => memory.cells.getD start 0 :: memory.read (start + 1) count

def write (memory : Memory) (start : Nat) : List Cell → Memory
  | [] => memory
  | cell :: cells => (memory.put start cell).write (start + 1) cells

end Memory

end PCode
