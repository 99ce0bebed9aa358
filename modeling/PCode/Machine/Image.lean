import PCode.Machine.Operator
import PCode.Symbols

namespace PCode

inductive Opcode where
  | lit
  | opr
  | lod
  | sto
  | ini
  | cap
  | cal
  | ret
  | jmp
  | jpc
deriving DecidableEq, Repr

namespace Opcode

def all : List Opcode :=
  [.lit, .opr, .lod, .sto, .ini, .cap, .cal, .ret, .jmp, .jpc]

def name : Opcode → String
  | .lit => "lit"
  | .opr => "opr"
  | .lod => "lod"
  | .sto => "sto"
  | .ini => "ini"
  | .cap => "cap"
  | .cal => "cal"
  | .ret => "ret"
  | .jmp => "jmp"
  | .jpc => "jpc"

def ofName? (name : String) : Option Opcode :=
  all.find? fun op => op.name == name

def isJump : Opcode → Bool
  | .jmp | .jpc | .cal => true
  | _ => false

end Opcode

/-- An instruction. The level counts static links to follow. -/
structure Instruction where
  op : Opcode
  level : Nat
  operand : Cell
deriving DecidableEq

def Instruction.render (i : Instruction) : String :=
  i.op.name ++ "  " ++ toString i.level ++ "  " ++ toString i.operand.toInt

abbrev Pool := List String

/-- The index of a string in the pool, which it joins at the end if it is new. -/
def Pool.intern (pool : Pool) (text : String) : Nat × Pool :=
  match pool.findIdx? (· == text) with
  | some index => (index, pool)
  | none => (pool.length, pool ++ [text])

structure Image where
  code : Array Instruction := #[]
  strings : Pool := []
  functions : Table Nat := []

namespace Image

def here (image : Image) : Nat :=
  image.code.size

def emit (image : Image) (instruction : Instruction) : Image :=
  { image with code := image.code.push instruction }

/-- Replaces the operand of an instruction, if there is one at the index. -/
def patch? (image : Image) (index : Nat) (operand : Cell) : Option (Instruction × Image) :=
  (image.code[index]?).map fun instruction =>
    let patched := { instruction with operand }
    (patched, { image with code := image.code.setIfInBounds index patched })

/-- The index of a string, and the image with the string in its pool. -/
def intern (image : Image) (text : String) : Nat × Image :=
  let (index, strings) := image.strings.intern text
  (index, { image with strings })

/-- Names the entry of a function; a later entry for the name takes its place. -/
def define (image : Image) (name : String) (entry : Nat) : Image :=
  { image with functions := image.functions.insert name entry }

def entry? (image : Image) (name : String) : Option Nat :=
  image.functions.get? name

def dump (image : Image) : String :=
  String.join (image.code.toList.mapIdx fun index instruction =>
    toString index ++ "  " ++ instruction.render ++ "\n")

end Image

end PCode
