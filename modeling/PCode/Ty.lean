namespace PCode

/-- A type. A `record` without members is the name of one that is not resolved yet, `vararg` stands
last in a parameter list, `list` collects the outcomes of statements, and `unknown` is the type of
what is not checked yet. -/
inductive Ty where
  | i64
  | real
  | string
  | bool
  | vararg
  | array (element : Ty)
  | function (params : List Ty) (variadic : Bool) (ret : Ty)
  | record (name : String) (members : List (String × Ty))
  | list (types : List Ty)
  | unknown

/-- Before checking, a type is not known. -/
instance : Inhabited Ty := ⟨.unknown⟩

namespace Ty

mutual

def same : Ty → Ty → Bool
  | .i64, .i64 => true
  | .real, .real => true
  | .string, .string => true
  | .bool, .bool => true
  | .vararg, .vararg => true
  | .array a, .array b => same a b
  | .function ps v r, .function qs w s => sameList ps qs && v == w && same r s
  | .record n ms, .record k ls => n == k && sameMembers ms ls
  | .list ts, .list us => sameList ts us
  | .unknown, .unknown => true
  | _, _ => false

def sameList : List Ty → List Ty → Bool
  | [], [] => true
  | a :: as, b :: bs => same a b && sameList as bs
  | _, _ => false

def sameMembers : List (String × Ty) → List (String × Ty) → Bool
  | [], [] => true
  | (m, a) :: as, (n, b) :: bs => m == n && same a b && sameMembers as bs
  | _, _ => false

end

mutual

theorem eq_of_same : ∀ {a b : Ty}, same a b = true → a = b
  | .i64, b, h => by cases b <;> simp [same] at h ⊢
  | .real, b, h => by cases b <;> simp [same] at h ⊢
  | .string, b, h => by cases b <;> simp [same] at h ⊢
  | .bool, b, h => by cases b <;> simp [same] at h ⊢
  | .vararg, b, h => by cases b <;> simp [same] at h ⊢
  | .unknown, b, h => by cases b <;> simp [same] at h ⊢
  | .array a, b, h => by
    cases b <;> simp [same] at h ⊢
    exact eq_of_same h
  | .function ps v r, b, h => by
    cases b <;> simp [same] at h ⊢
    exact ⟨eq_of_sameList h.1.1, h.1.2, eq_of_same h.2⟩
  | .record n ms, b, h => by
    cases b <;> simp [same] at h ⊢
    exact ⟨h.1, eq_of_sameMembers h.2⟩
  | .list ts, b, h => by
    cases b <;> simp [same] at h ⊢
    exact eq_of_sameList h

theorem eq_of_sameList : ∀ {as bs : List Ty}, sameList as bs = true → as = bs
  | [], [], _ => rfl
  | [], _ :: _, h => by simp [sameList] at h
  | _ :: _, [], h => by simp [sameList] at h
  | a :: as, b :: bs, h => by
    simp [sameList] at h
    rw [eq_of_same h.1, eq_of_sameList h.2]

theorem eq_of_sameMembers : ∀ {as bs : List (String × Ty)}, sameMembers as bs = true → as = bs
  | [], [], _ => rfl
  | [], _ :: _, h => by simp [sameMembers] at h
  | _ :: _, [], h => by simp [sameMembers] at h
  | (m, a) :: as, (n, b) :: bs, h => by
    simp [sameMembers] at h
    rw [h.1.1, eq_of_same h.1.2, eq_of_sameMembers h.2]

end

mutual

theorem same_self : ∀ a : Ty, same a a = true
  | .i64 | .real | .string | .bool | .vararg | .unknown => rfl
  | .array a => by simpa [same] using same_self a
  | .function ps v r => by simp [same, sameList_self ps, same_self r]
  | .record n ms => by simp [same, sameMembers_self ms]
  | .list ts => by simp [same, sameList_self ts]

theorem sameList_self : ∀ as : List Ty, sameList as as = true
  | [] => rfl
  | a :: as => by simp [sameList, same_self a, sameList_self as]

theorem sameMembers_self : ∀ as : List (String × Ty), sameMembers as as = true
  | [] => rfl
  | (_, a) :: as => by simp [sameMembers, same_self a, sameMembers_self as]

end

instance : DecidableEq Ty := fun a b =>
  decidable_of_iff (same a b = true) ⟨eq_of_same, fun h => h ▸ same_self a⟩

def named (name : String) : Ty :=
  .record name []

def isUnknown (ty : Ty) : Bool :=
  ty == .unknown

def isNumeric (ty : Ty) : Bool :=
  ty == .i64 || ty == .real

mutual

def size : Ty → Nat
  | .i64 | .real | .string | .bool | .array _ | .function .. => 1
  | .record _ members => sizeMembers members
  | .vararg | .list _ | .unknown => 0

def sizeMembers : List (String × Ty) → Nat
  | [] => 0
  | (_, ty) :: members => size ty + sizeMembers members

end

/-- The ordinal and the type of the first member of this name. -/
def member? (ty : Ty) (name : String) : Option (Nat × Ty) :=
  match ty with
  | .record _ members =>
    (members.findIdx? (·.1 == name)).bind fun index =>
      (members[index]?).map fun member => (index, member.2)
  | _ => none

/-- The number of cells before the member of this ordinal. -/
def memberOffset? (ty : Ty) (index : Nat) : Option Nat :=
  match ty with
  | .record _ members =>
    if index < members.length then some (sizeMembers (members.take index)) else none
  | _ => none

/-- The types that statements may return, collected in a `list`. -/
def outcomes : Ty → List Ty
  | .list types => types
  | _ => []

mutual

def render : Ty → String
  | .i64 => "i64"
  | .real => "real"
  | .string => "string"
  | .bool => "bool"
  | .vararg => "..."
  | .array element => "[" ++ render element ++ "]"
  | .function params variadic ret =>
    "(" ++ renderParams params ++ (if variadic then "... " else "") ++ "-> " ++ render ret ++ ")"
  | .record name _ => name
  | .list types => "\x7b" ++ renderList types ++ "\x7d"
  | .unknown => "unknown"

def renderParams : List Ty → String
  | [] => ""
  | ty :: types => render ty ++ " " ++ renderParams types

def renderList : List Ty → String
  | [] => ""
  | [ty] => render ty
  | ty :: types => render ty ++ ", " ++ renderList types

end

instance : ToString Ty := ⟨render⟩

end Ty

end PCode
