import PCode.Proofs.Evaluation.Evaluator
import PCode.Proofs.Failure
import PCode.Proofs.Records.Tiling

namespace PCode

namespace Ty

/-- The part of a value at a path of ordinals: the number of cells before it, and its type. -/
def part? : Ty → List Nat → Option (Nat × Ty)
  | ty, [] => some (0, ty)
  | ty, i :: path => do
    let offset ← ty.memberOffset? i
    let member ← ty.memberTy? i
    let (inner, part) ← member.part? path
    return (offset + inner, part)

/-- The cells of a member of a member, and so on along a path: at each step the cells of the member
are cut out of those of the record. -/
def slice? : Ty → List Nat → List Cell → Option (List Cell)
  | _, [], cells => some cells
  | ty, i :: path, cells => do
    let offset ← ty.memberOffset? i
    let member ← ty.memberTy? i
    member.slice? path ((cells.drop offset).take member.size)

section Paths

variable {ty τ : Ty} {path : List Nat} {offset : Nat} {cells : List Cell}

theorem part?_cons {i : Nat} (h : ty.part? (i :: path) = some (offset, τ)) :
    ∃ before member inner, ty.memberOffset? i = some before ∧ ty.memberTy? i = some member ∧
      member.part? path = some (inner, τ) ∧ offset = before + inner := by
  simp only [part?, Option.bind_eq_bind, Option.bind_eq_some_iff] at h
  obtain ⟨before, hbefore, member, hmember, ⟨inner, part⟩, hpart, heq⟩ := h
  cases heq
  exact ⟨before, member, inner, hbefore, hmember, hpart, rfl⟩

theorem part?_add_le (h : ty.part? path = some (offset, τ)) : offset + τ.size ≤ ty.size := by
  induction path generalizing ty offset with
  | nil =>
    cases h
    omega
  | cons i path ih =>
    obtain ⟨before, member, inner, hbefore, hmember, hpart, rfl⟩ := part?_cons h
    have hinner := ih hpart
    have houter := memberOffset?_add_le hbefore hmember
    omega

/-- Cutting along a path comes to the same as one cut at the sum of the offsets. -/
theorem slice?_eq_of_part? (h : ty.part? path = some (offset, τ)) (hsize : cells.length = ty.size) :
    ty.slice? path cells = some ((cells.drop offset).take τ.size) := by
  induction path generalizing ty offset cells with
  | nil =>
    cases h
    rw [slice?, List.drop_zero, List.take_of_length_le (by omega)]
  | cons i path ih =>
    obtain ⟨before, member, inner, hbefore, hmember, hpart, rfl⟩ := part?_cons h
    have hinner := part?_add_le hpart
    have houter := memberOffset?_add_le hbefore hmember
    have hlength : ((cells.drop before).take member.size).length = member.size := by
      rw [List.length_take, List.length_drop]
      omega
    simp only [slice?, hbefore, hmember, Option.bind_eq_bind, Option.bind_some]
    rw [ih hpart hlength, List.drop_take, List.take_take, List.drop_drop,
      Nat.min_eq_left (by omega)]

end Paths

end Ty

/-- The cells of a value by the members that it is made of, as deep as they are known. -/
inductive Parts where
  | row (cells : List Cell)
  | record (members : List Parts)

namespace Parts

mutual

/-- All cells, those of the members of a record one after the other. -/
def flat : Parts → List Cell
  | .row cells => cells
  | .record members => (flats members).flatten

def flats : List Parts → List (List Cell)
  | [] => []
  | p :: ps => p.flat :: flats ps

end

mutual

/-- A value of a type, made of parts that have the sizes of their types. -/
def Fits : Parts → Ty → Prop
  | .row cells, ty => cells.length = ty.size
  | .record ps, .record _ members => FitEach ps members
  | .record _, _ => False

def FitEach : List Parts → List (String × Ty) → Prop
  | [], [] => True
  | p :: ps, (_, ty) :: members => p.Fits ty ∧ FitEach ps members
  | _, _ => False

end

/-- The part at a path of ordinals. -/
def at? : Parts → List Nat → Option Parts
  | p, [] => some p
  | .record members, i :: path => do (← members[i]?).at? path
  | .row _, _ :: _ => none

mutual

theorem length_flat : ∀ {p : Parts} {ty : Ty}, p.Fits ty → p.flat.length = ty.size
  | .row _, _, h => h
  | .record ps, ty, h => by
    cases ty with
    | record name members => exact Ty.length_flatten (map_length_flats h)
    | _ => cases h

theorem map_length_flats : ∀ {ps : List Parts} {members : List (String × Ty)},
    FitEach ps members → (flats ps).map List.length = members.map fun m => m.2.size
  | [], [], _ => rfl
  | p :: ps, (_, ty) :: members, h => by
    rw [flats, List.map_cons, List.map_cons, length_flat h.1, map_length_flats h.2]

end

variable {p q : Parts} {ps : List Parts} {members : List (String × Ty)} {path : List Nat} {i : Nat}

theorem getElem?_flats (ps : List Parts) (i : Nat) : (flats ps)[i]? = ps[i]?.map flat := by
  induction ps generalizing i with
  | nil => rfl
  | cons p ps ih =>
    cases i with
    | zero => rfl
    | succ i => exact ih i

theorem FitEach.getElem? (h : FitEach ps members) (hp : ps[i]? = some p) :
    ∃ field τ, members[i]? = some (field, τ) ∧ p.Fits τ := by
  induction ps generalizing members i with
  | nil => cases hp
  | cons first ps ih =>
    cases members with
    | nil => cases h
    | cons member members =>
      cases i with
      | zero =>
        cases hp
        exact ⟨member.1, member.2, rfl, h.1⟩
      | succ i =>
        have hrest := ih h.2 hp
        exact hrest

theorem FitEach.member (name : String) (h : FitEach ps members) (hp : ps[i]? = some p) :
    ∃ offset τ, (Ty.record name members).memberOffset? i = some offset ∧
      (Ty.record name members).memberTy? i = some τ ∧ p.Fits τ ∧
      ((Parts.record ps).flat.drop offset).take τ.size = p.flat := by
  obtain ⟨field, τ, hfield, hfits⟩ := h.getElem? hp
  obtain ⟨hlt, -⟩ := List.getElem?_eq_some_iff.mp hfield
  refine ⟨_, τ, Ty.memberOffset?_eq_some_iff.mpr ⟨hlt, rfl⟩,
    Ty.memberTy?_eq_some_iff.mpr ⟨_, hfield⟩, hfits, ?_⟩
  have hslice := Ty.slice_flatten (map_length_flats h) hfield
  rw [getElem?_flats, hp] at hslice
  exact (Option.some.inj hslice).symm

theorem slice?_flat {ty : Ty} (h : p.Fits ty) (hq : p.at? path = some q) :
    (ty.part? path).isSome ∧ ty.slice? path p.flat = some q.flat := by
  induction path generalizing p ty with
  | nil =>
    cases hq
    exact ⟨rfl, rfl⟩
  | cons i path ih =>
    cases p with
    | row cells => cases hq
    | record ps =>
      cases ty with
      | record name members =>
        obtain ⟨first, hfirst, hrest⟩ := Option.bind_eq_some_iff.mp hq
        obtain ⟨offset, τ, hoffset, hτ, hfits, hcells⟩ := FitEach.member name h hfirst
        obtain ⟨hpart, hslice⟩ := ih hfits hrest
        constructor
        · obtain ⟨part, hpart⟩ := Option.isSome_iff_exists.mp hpart
          simp [Ty.part?, hoffset, hτ, hpart]
        · simp only [Ty.slice?, hoffset, hτ, Option.bind_eq_bind, Option.bind_some]
          rw [hcells, hslice]
      | _ => cases h

end Parts

/-- An expression takes a member of another, of that a member, and so on along a path, and carries
the types of the members. -/
inductive Expr.Takes : Expr → List Nat → Expr → Prop
  | here {e} : Takes e [] e
  | member {e a field i path n} : e.ty.memberTy? i = some n.ty →
      Takes (.member e field (some i) n) path a → Takes e (i :: path) a

namespace Evaluation

variable {S : Setting} {call : Caller} {ρ : Scope} {σ σ' : Store} {e a : Expr} {path : List Nat}
  {v w : Value}

theorem expr_takes (h : e.Takes path a) (hv : expr S call ρ e σ = .ok (v, σ'))
    (hw : e.ty.slice? path v = some w) : expr S call ρ a σ = .ok (w, σ') := by
  induction h generalizing v with
  | here =>
    cases hw
    exact hv
  | @member e a field i path n hτ _ ih =>
    simp only [Ty.slice?, hτ, Option.bind_eq_bind, Option.bind_eq_some_iff] at hw
    obtain ⟨offset, hoffset, τ, heq, hw⟩ := hw
    cases heq
    refine ih ?_ hw
    simp only [expr, Option.bind_some, hoffset, require, bind_apply_eq_ok_iff, pure_apply_eq_ok_iff]
    exact ⟨v, σ', hv, offset, σ', ⟨rfl, rfl⟩, rfl, rfl⟩

theorem expr_construct {f : String} {args : List Expr} {n : Note} {vs : List Value}
    (hvar : ρ.var? f = none) (hcon : S.context.isConstructor f = true)
    (hargs : exprs S call ρ args σ = .ok (vs, σ')) :
    expr S call ρ (.call f args n) σ = .ok (vs.flatten, σ') := by
  simp only [expr, hvar, hcon, Option.isSome_none, Bool.false_eq_true, if_false, if_true,
    bind_apply_eq_ok_iff, pure_apply_eq_ok_iff]
  exact ⟨vs, σ', hargs, rfl, rfl⟩

end Evaluation

/-- The members of a record fill its cells one behind the other, and its offsets and sizes cut every
member out of the cells of all of them. So does cutting again and again along a path of nested
members, which comes to one cut at the sum of the offsets; and of a record that a constructor
builds, whose value are the cells of the arguments, every path of members has the value that was
given for it. -/
theorem Ty.record_members_tile (name : String) (members : List (String × Ty)) :
    (Ty.record name members).Tiled members.length ∧
    (∀ cells : List (List Cell), cells.map List.length = members.map (fun m => m.2.size) →
      ∀ i offset τ, (Ty.record name members).memberOffset? i = some offset →
        (Ty.record name members).memberTy? i = some τ →
        cells[i]? = some ((cells.flatten.drop offset).take τ.size)) ∧
    (∀ path offset τ, (Ty.record name members).part? path = some (offset, τ) →
      ∀ cells : List Cell, cells.length = (Ty.record name members).size →
        (Ty.record name members).slice? path cells = some ((cells.drop offset).take τ.size)) ∧
    ∀ ps, Parts.FitEach ps members → ∀ path q, (Parts.record ps).at? path = some q →
      ((Ty.record name members).part? path).isSome ∧
      (Ty.record name members).slice? path (Parts.flats ps).flatten = some q.flat ∧
      ∀ {S : Evaluation.Setting} {call : Evaluation.Caller} {ρ : Evaluation.Scope}
        {σ σ' : Evaluation.Store} {f : String} {args : List Expr} {n : Note} {a : Expr},
        n.ty = .record name members → ρ.var? f = none → S.context.isConstructor f = true →
        Evaluation.exprs S call ρ args σ = .ok (Parts.flats ps, σ') →
        (Expr.call f args n).Takes path a → Evaluation.expr S call ρ a σ = .ok (q.flat, σ') := by
  refine ⟨Ty.tiled_record name members, ?_, ?_, ?_⟩
  · intro cells hsizes i offset τ hoffset hτ
    obtain ⟨-, rfl⟩ := Ty.memberOffset?_eq_some_iff.mp hoffset
    obtain ⟨field, hfield⟩ := Ty.memberTy?_eq_some_iff.mp hτ
    exact Ty.slice_flatten hsizes hfield
  · intro path offset τ hpart cells hsize
    exact Ty.slice?_eq_of_part? hpart hsize
  · intro ps hfits path q hq
    have hrecord : (Parts.record ps).Fits (.record name members) := hfits
    obtain ⟨hpart, hslice⟩ := Parts.slice?_flat hrecord hq
    refine ⟨hpart, hslice, ?_⟩
    intro S call ρ σ σ' f args n a hty hvar hcon hargs htakes
    apply Evaluation.expr_takes htakes (Evaluation.expr_construct hvar hcon hargs)
    rw [show (Expr.call f args n).ty = .record name members from hty]
    exact hslice

namespace Records

def pointTy : Ty :=
  .record "point" [("x", .i64), ("y", .real)]

def lineMembers : List (String × Ty) :=
  [("from", pointTy), ("to", pointTy), ("solid", .bool)]

def lineTy : Ty :=
  .record "line" lineMembers

def point (x y : Int64) : Expr :=
  .call "point" [.integer x ⟨.point 0, .i64⟩, .real y ⟨.point 0, .real⟩] ⟨.point 0, pointTy⟩

/-- The arguments of `line (point 1 2) (point 3 4) true`. -/
def lineArgs : List Expr :=
  [point 1 2, point 3 4, .boolean true ⟨.point 0, .bool⟩]

/-- The member `to.y` of that line. -/
def lineEnd : Expr :=
  .member (.member (.call "line" lineArgs ⟨.point 0, lineTy⟩) (.name "to" ⟨.point 0, pointTy⟩)
    (some 1) ⟨.point 0, pointTy⟩) (.name "y" ⟨.point 0, .real⟩) (some 1) ⟨.point 0, .real⟩

/-- The members of that line, and those of its points. -/
def lineParts : List Parts :=
  [.record [.row [1], .row [2]], .record [.row [3], .row [4]], .row [1]]

def lineSetting : Evaluation.Setting :=
  ⟨⟨⟨[], [("line", lineTy), ("point", pointTy)]⟩, [], none⟩, []⟩

end Records

open Records in
theorem Ty.record_members_tile_line :
    lineTy.memberOffset? 2 = some 4 ∧ lineTy.memberOffset? 3 = none ∧
      ([[1, 2], [3, 4], [1]] : List (List Cell))[1]? =
        some ((([1, 2, 3, 4, 1] : List Cell).drop 2).take 2) ∧
      lineTy.part? [1, 1] = some (3, .real) ∧ lineTy.slice? [1, 1] [1, 2, 3, 4, 1] = some [4] ∧
      Evaluation.expr lineSetting (fun _ _ => Evaluation.stop .stuck) [] lineEnd [] =
        .ok ([4], []) := by
  obtain ⟨htiled, hcells, hcut, htaken⟩ := Ty.record_members_tile "line" lineMembers
  have hfits : Parts.FitEach lineParts lineMembers :=
    ⟨⟨rfl, rfl, trivial⟩, ⟨rfl, rfl, trivial⟩, rfl, trivial⟩
  obtain ⟨-, -, hvalue⟩ := htaken lineParts hfits [1, 1] (.row [4]) rfl
  refine ⟨rfl, (htiled.none_iff 3).mpr (by decide), ?_, rfl, ?_, ?_⟩
  · exact hcells [[1, 2], [3, 4], [1]] rfl 1 2 pointTy rfl rfl
  · exact hcut [1, 1] 3 .real rfl [1, 2, 3, 4, 1] rfl
  · exact hvalue rfl rfl rfl rfl (.member rfl (.member rfl .here))

end PCode
