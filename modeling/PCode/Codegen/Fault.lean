import PCode.Source.Excerpt
import PCode.Ty

namespace PCode

/-- Parts of the language for which there is no code. -/
inductive Feature where
  | lambda
  | array
  | index
  | functionValue

inductive CodegenFault where
  | notInScope (name : String)
  | notAssignable
  | topLevelStatement
  | noMain
  | mainParameters
  | neverDefined (name : String)
  | notDefinedHere (name : String)
  | noSignature (name : String)
  | noSuchMember (ty : Ty)
  | unsupported (feature : Feature)

/-- The kinds into which faults fall. -/
inductive CodegenErrorKind where
  | unknownVariable
  | unknownFunction
  | unknownField
  | typeMismatch
  | invalidArgumentCount
  | notImplemented
deriving DecidableEq, Repr

def CodegenErrorKind.name : CodegenErrorKind → String
  | .unknownVariable => "UnknownVariable"
  | .unknownFunction => "UnknownFunction"
  | .unknownField => "UnknownField"
  | .typeMismatch => "TypeMismatch"
  | .invalidArgumentCount => "InvalidArgumentCount"
  | .notImplemented => "NotImplemented"

def Feature.describe : Feature → String
  | .lambda => "lambdas"
  | .array => "array literals"
  | .index => "indexing"
  | .functionValue => "calls through function values"

namespace CodegenFault

def kind : CodegenFault → CodegenErrorKind
  | .notInScope _ => .unknownVariable
  | .notAssignable => .typeMismatch
  | .topLevelStatement | .unsupported _ => .notImplemented
  | .noMain | .neverDefined _ | .notDefinedHere _ | .noSignature _ => .unknownFunction
  | .mainParameters => .invalidArgumentCount
  | .noSuchMember _ => .unknownField

def detail : CodegenFault → String
  | .notInScope name => "`" ++ name ++ "` is not in scope"
  | .notAssignable => "only variables can be assigned to"
  | .topLevelStatement => "statements outside of functions can not be compiled"
  | .noMain => "no `main` function is defined"
  | .mainParameters => "`main` can not take parameters"
  | .neverDefined name => "`" ++ name ++ "` is declared but never defined"
  | .notDefinedHere name => "`" ++ name ++ "` is declared but never defined in scope"
  | .noSignature name => "`" ++ name ++ "` has no signature"
  | .noSuchMember ty => ty.render ++ " has no such member"
  | .unsupported feature => feature.describe ++ " are not supported by the bytecode backend"

end CodegenFault

/-- A fault and where it is, unless it is about the whole program. -/
structure CodegenError where
  fault : CodegenFault
  span : Option Span

end PCode
