import PCode.Symbols
import PCode.Typing.Fault

namespace PCode

namespace Ty

mutual

def resolve (context : Context) : Ty → Except TypeFault Ty
  | .i64 => .ok .i64
  | .real => .ok .real
  | .string => .ok .string
  | .bool => .ok .bool
  | .array element =>
    match resolve context element with
    | .ok element => .ok (.array element)
    | .error fault => .error fault
  | .function params _ ret =>
    match resolveParams context params with
    | .error fault => .error fault
    | .ok (params, variadic) =>
      match resolve context ret with
      | .error fault => .error fault
      | .ok ret => .ok (.function params variadic ret)
  | .record name [] =>
    match context.record? name with
    | some ty => .ok ty
    | none => .error (.unknownType name)
  | .record name (first :: members) => .ok (.record name (first :: members))
  | .vararg => .error .varargOutside
  | .list types => .error (.notAType (.list types))
  | .unknown => .error (.notAType .unknown)

def resolveParams (context : Context) : List Ty → Except TypeFault (List Ty × Bool)
  | [] => .ok ([], false)
  | .vararg :: params => if params.isEmpty then .ok ([], true) else .error .varargNotLast
  | ty :: params =>
    match resolve context ty with
    | .error fault => .error fault
    | .ok ty =>
      match resolveParams context params with
      | .error fault => .error fault
      | .ok (params, variadic) => .ok (ty :: params, variadic)

end

/-- The types of a record's members. If one can not be resolved, the members before it are. -/
def resolveMembers (context : Context) : List (String × Ty) →
    Except (TypeFault × List (String × Ty)) (List (String × Ty))
  | [] => .ok []
  | (name, ty) :: members =>
    match ty.resolve context with
    | .error fault => .error (fault, (name, ty) :: members)
    | .ok ty =>
      match resolveMembers context members with
      | .error (fault, members) => .error (fault, (name, ty) :: members)
      | .ok members => .ok ((name, ty) :: members)

end Ty

/-- The first name that stands in a list a second time. -/
def repeated? (names : List String) : Option String :=
  go [] names
where
  go (seen : List String) : List String → Option String
    | [] => none
    | name :: names => if seen.contains name then some name else go (name :: seen) names

end PCode
