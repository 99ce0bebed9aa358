import PCode.Source.Excerpt
import PCode.Ty

namespace PCode

/-- A place that demands a type of the expression in it. -/
inductive Place where
  | ifCondition
  | whileCondition
  | elseBranch
  | index
  | assignment
  | array
  | argument (number : Nat) (callee : String)
  | lambda
  | ret

/-- A violation of the typing rules. -/
inductive TypeFault where
  | unknownType (name : String)
  | varargOutside
  | varargNotLast
  | notAType (ty : Ty)
  | unbound (name : String)
  | undeclared (name : String)
  | unexpected (place : Place) (expected found : Ty)
  | badOperand (symbol : String) (ty : Ty)
  | unequalOperands (symbol : String) (left right : Ty)
  | lambdaAlone
  | notAnArray (ty : Ty)
  | notAssignable
  | noMemberName
  | noMembers (ty : Ty)
  | unknownMember (ty : Ty) (name : String)
  | emptyArray
  | notAFunction (name : String) (ty : Ty)
  | argumentCount (name : String) (expected found : Nat)
  | lambdaCount (found expected : Nat)
  | memberTwice (name : String)
  | boundTwice (name : String)
  | returnOutside
  | alreadyDeclared (name : String)
  | alreadyDefined (name : String)
  | neverDeclared (name : String)
  | declaredAs (name : String) (ty : Ty)
  | parameterCount (name : String) (declared defined : Nat)
  | wrongBody (name : String) (ret found : Ty)

/-- The kinds into which faults fall. -/
inductive TypeErrorKind where
  | unknownType
  | duplicateDeclaration
  | duplicateDefinition
  | typeMismatch
  | parameterCountMismatch
  | unknownVariable
  | unknownMember
  | varargNotLast
deriving DecidableEq, Repr

def TypeErrorKind.name : TypeErrorKind → String
  | .unknownType => "UnknownType"
  | .duplicateDeclaration => "DuplicateDeclaration"
  | .duplicateDefinition => "DuplicateDefinition"
  | .typeMismatch => "TypeMismatch"
  | .parameterCountMismatch => "ParameterCountMismatch"
  | .unknownVariable => "UnknownVariable"
  | .unknownMember => "UnknownMember"
  | .varargNotLast => "VarargNotLast"

def Place.describe : Place → String
  | .ifCondition => "an `if` condition"
  | .whileCondition => "a `while` condition"
  | .elseBranch => "the `else` branch"
  | .index => "an index"
  | .assignment => "the assignment"
  | .array => "the array"
  | .argument number callee => "argument " ++ toString number ++ " of `" ++ callee ++ "`"
  | .lambda => "the lambda"
  | .ret => "`return`"

namespace TypeFault

def kind : TypeFault → TypeErrorKind
  | .unknownType _ | .notAType _ | .emptyArray => .unknownType
  | .varargOutside | .varargNotLast => .varargNotLast
  | .unbound _ | .undeclared _ | .neverDeclared _ => .unknownVariable
  | .unexpected .. | .badOperand .. | .unequalOperands .. | .lambdaAlone | .notAnArray _
  | .notAssignable | .noMemberName | .noMembers _ | .notAFunction .. | .returnOutside
  | .declaredAs .. | .wrongBody .. => .typeMismatch
  | .unknownMember .. => .unknownMember
  | .argumentCount .. | .lambdaCount .. | .parameterCount .. => .parameterCountMismatch
  | .memberTwice _ | .alreadyDeclared _ => .duplicateDeclaration
  | .boundTwice _ | .alreadyDefined _ => .duplicateDefinition

def detail : TypeFault → String
  | .unknownType name => "unknown type `" ++ name ++ "`"
  | .varargOutside => "`...` can only end a parameter list"
  | .varargNotLast => "`...` must be the last parameter"
  | .notAType ty => "`" ++ ty.render ++ "` is not a type"
  | .unbound name => "`" ++ name ++ "` is not bound"
  | .undeclared name => "`" ++ name ++ "` is not declared"
  | .unexpected place expected found =>
    place.describe ++ " expects " ++ expected.render ++ ", found " ++ found.render
  | .badOperand symbol ty => "`" ++ symbol ++ "` can not be applied to " ++ ty.render
  | .unequalOperands symbol left right =>
    "operands of `" ++ symbol ++ "` must have the same type, found " ++ left.render ++ " and "
      ++ right.render
  | .lambdaAlone => "the type of a lambda can only be inferred from the parameter it is passed to"
  | .notAnArray ty => "only arrays can be indexed, found " ++ ty.render
  | .notAssignable => "only variables can be assigned to"
  | .noMemberName => "`.` must be followed by a member name"
  | .noMembers ty => ty.render ++ " has no members"
  | .unknownMember ty name => ty.render ++ " has no member `" ++ name ++ "`"
  | .emptyArray => "the element type of an empty array can not be inferred"
  | .notAFunction name ty => "`" ++ name ++ "` is " ++ ty.render ++ ", not a function"
  | .argumentCount name expected found =>
    "`" ++ name ++ "` takes " ++ toString expected ++ " arguments, found " ++ toString found
  | .lambdaCount found expected =>
    "the lambda takes " ++ toString found ++ " parameters, but " ++ toString expected
      ++ " are expected"
  | .memberTwice name | .boundTwice name => "`" ++ name ++ "` is bound twice"
  | .returnOutside => "`return` outside of a function"
  | .alreadyDeclared name => "`" ++ name ++ "` is already declared"
  | .alreadyDefined name => "`" ++ name ++ "` is already defined"
  | .neverDeclared name => "`" ++ name ++ "` is defined but never declared"
  | .declaredAs name ty => "`" ++ name ++ "` is " ++ ty.render
  | .parameterCount name declared defined =>
    "`" ++ name ++ "` is declared with " ++ toString declared ++ " parameters, but defined with "
      ++ toString defined
  | .wrongBody name ret found =>
    "`" ++ name ++ "` returns " ++ ret.render ++ ", but its body is " ++ found.render

end TypeFault

/-- A fault and where it is. -/
structure TypeError where
  fault : TypeFault
  span : Span

end PCode
