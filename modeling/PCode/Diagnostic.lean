import PCode.Codegen.Statement
import PCode.Grammar.Statement
import PCode.Typing.Statement

namespace PCode

/-- An error of one of the stages of compilation. -/
inductive Diagnostic where
  | parse (error : ParseError)
  | type (error : TypeError)
  | codegen (error : CodegenError)

namespace Diagnostic

def span? : Diagnostic → Option Span
  | .parse error => some (.point error.offset)
  | .type error => some error.span
  | .codegen error => error.span

def summary : Diagnostic → String
  | .parse error => "Parse Error: no match past offset " ++ toString error.offset
  | .type error => "Type Error (" ++ error.fault.kind.name ++ "): " ++ error.fault.detail
  | .codegen error => "Codegen Error (" ++ error.fault.kind.name ++ "): " ++ error.fault.detail

/-- The error with its excerpt, if its place lies in the source. -/
def message? (d : Diagnostic) (source : Source) : Option String :=
  match d.span? with
  | none => some d.summary
  | some span => (source.excerpt? span).map fun excerpt => excerpt.render ++ d.summary

end Diagnostic

def parseText (text : String) : Except Diagnostic Program :=
  (Program.parse text).mapError .parse

def checkText (text : String) : Except Diagnostic (Program × Context) := do
  let program ← parseText text
  (program.check .empty).mapError fun stopped => .type stopped.error

def compileText (text : String) : Except Diagnostic Image := do
  let (program, context) ← checkText text
  (program.compile context).mapError .codegen

end PCode
