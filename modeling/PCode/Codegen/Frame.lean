import PCode.Codegen.Fault
import PCode.Machine.Image

namespace PCode.Codegen

/-- The cells at the start of a frame before its variables: static link, base of the caller and
return address. -/
def headerSize : Nat := 3

/-- A variable: the nesting level of its function, and its place in that function's frame. -/
structure Slot where
  level : Nat
  offset : Nat
  ty : Ty

/-- The names in scope: variables, and the levels at which functions are defined; `path` names the
function whose body is generated and those around it, innermost first. -/
structure Env where
  context : Context
  vars : Table Slot := []
  funs : Table Nat := []
  path : List String := []

/-- The nesting level of the function whose body is generated. -/
def Env.level (env : Env) : Nat :=
  env.path.length

/-- What generation has collected: the strings, the entries of the functions so far, and the number
of cells given out in the current frame. -/
structure Frame where
  strings : Pool := []
  functions : Table Nat := []
  size : Nat := headerSize

/-- An instruction with the function it belongs to and those around that one, innermost first. The
return that a block body runs into at its end is `closing`. -/
structure Line where
  owner : List String
  instruction : Instruction
  closing : Bool := false

/-- A line of the code, or a call of a function whose entry is not known yet. -/
inductive Item where
  | line (l : Line)
  | forward (owner : List String) (level : Nat) (name : String) (span : Span)

abbrev Gen := StateT Frame (Except CodegenError)

def fail {α : Type} (fault : CodegenFault) (span : Span) : Gen α := fun _ =>
  .error ⟨fault, some span⟩

def allocate (size : Nat) : Gen Nat := fun frame =>
  .ok (frame.size, { frame with size := frame.size + size })

def intern (text : String) : Gen Nat := fun frame =>
  let (index, strings) := frame.strings.intern text
  .ok (index, { frame with strings })

def knownEntry (name : String) : Gen (Option Nat) := fun frame =>
  .ok (frame.functions.get? name, frame)

namespace Env

def emit (env : Env) (op : Opcode) (level : Nat) (operand : Cell) : Item :=
  .line { owner := env.path, instruction := ⟨op, level, operand⟩ }

def item (env : Env) (op : Opcode) (level : Nat) (operand : Int) : Item :=
  env.emit op level (Int64.ofInt operand)

def loadCells (env : Env) (level offset size : Nat) : List Item :=
  (List.range size).map fun cell => env.item .lod level (offset + cell : Nat)

def storeCells (env : Env) (level offset size : Nat) : List Item :=
  (List.range size).reverse.map fun cell => env.item .sto level (offset + cell : Nat)

def bind (env : Env) (name : String) (offset : Nat) (ty : Ty) : Env :=
  { env with vars := env.vars.insert name ⟨env.level, offset, ty⟩ }

def load (env : Env) (slot : Slot) : List Item :=
  env.loadCells (env.level - slot.level) slot.offset slot.ty.size

def store (env : Env) (slot : Slot) : List Item :=
  env.storeCells (env.level - slot.level) slot.offset slot.ty.size

def slot (env : Env) (name : String) (span : Span) : Gen Slot :=
  match env.vars.get? name with
  | some slot => pure slot
  | none => fail (.notInScope name) span

end Env

end PCode.Codegen
