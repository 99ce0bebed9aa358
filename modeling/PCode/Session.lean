import PCode.Diagnostic
import PCode.Machine.Run

namespace PCode

/-- The context, the current program with its source, and the last image. -/
structure Session where
  context : Context := {}
  source : Source := ⟨Source.defaultPath, ""⟩
  program : Program := []
  image : Image := {}

/-- The capacity of a memory unless another is asked for. -/
def defaultCapacity : Nat := 65536

namespace Session

def load (session : Session) (source : Source) : Except ParseError Session := do
  let program ← Program.parse source.text
  return { session with source, program }

/-- Checks the current program. The annotations and the entries made before an error stay. -/
def check (session : Session) : Option TypeError × Session :=
  match session.program.check session.context with
  | .ok (program, context) => (none, { session with program, context })
  | .error stopped =>
    (some stopped.error, { session with program := stopped.tree, context := stopped.context })

def compile (session : Session) : Except CodegenError Session := do
  let image ← session.program.compile session.context
  return { session with image }

def run (session : Session) : Outcome :=
  session.image.run (.blank defaultCapacity)

def reset (session : Session) : Session :=
  { session with context := .empty }

end Session

end PCode
