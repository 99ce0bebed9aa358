import PCode.Machine.Step

namespace PCode

/-- What is left of a run that halted: the stack, bottom first, and the number of steps. -/
structure Exit where
  stack : List Cell
  steps : Nat
deriving DecidableEq

def Exit.top? (exit : Exit) : Option Cell :=
  exit.stack.getLast?

/-- Where a run has come to. -/
inductive Outcome where
  | halted (exit : Exit) (memory : Memory)
  | faulted (memory : Memory)
  | running (machine : Machine)

namespace Machine

def exit (m : Machine) : Exit :=
  ⟨m.memory.read 0 m.top, m.steps⟩

def step (code : Array Instruction) (m : Machine) : Except Outcome Machine :=
  match code[m.pc]? with
  | none => .error (.halted m.exit m.memory)
  | some instruction =>
    match m.execute instruction with
    | .error fault => .error (.faulted fault.memory)
    | .ok m => .ok { m with steps := m.steps + 1 }

def runFor (code : Array Instruction) : Nat → Machine → Outcome
  | 0, m => if m.pc < code.size then .running m else .halted m.exit m.memory
  | fuel + 1, m =>
    match m.step code with
    | .error outcome => outcome
    | .ok m => m.runFor code fuel

def stepLimit : Nat := 0xffffffffffffffff

/-- Runs to the end. A run whose steps can no longer be counted faults. -/
def run (code : Array Instruction) (m : Machine) : Outcome :=
  match m.runFor code stepLimit with
  | .running m => .faulted m.memory
  | outcome => outcome

def pushAll (m : Machine) : List Cell → Except Fault Machine
  | [] => .ok m
  | cell :: cells => do (← m.push cell).pushAll cells

end Machine

namespace Image

def run (image : Image) (memory : Memory) : Outcome :=
  (Machine.start memory).run image.code

/-- The state in which a function is entered with these arguments; it will return behind the
code. -/
def enter (image : Image) (memory : Memory) (entry : Nat) (args : List Cell) :
    Except Fault Machine := do
  let m ← (Machine.start memory).pushAll (0 :: 0 :: .ofAddress image.code.size :: args)
  .ok { m with pc := entry }

/-- Runs one function of an image, if there is one of this name. -/
def invoke? (image : Image) (memory : Memory) (name : String) (args : List Cell) :
    Option Outcome :=
  (image.entry? name).map fun entry =>
    match image.enter memory entry args with
    | .error fault => .faulted fault.memory
    | .ok m => m.run image.code

end Image

end PCode
