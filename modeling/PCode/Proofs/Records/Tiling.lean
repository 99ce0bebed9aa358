import PCode.Ty

namespace PCode

namespace Ty

/-- The type of the member of this ordinal. -/
def memberTy? : Ty → Nat → Option Ty
  | .record _ members, i => members[i]?.map Prod.snd
  | _, _ => none

/-- The cell `k` of a record belongs to its member `i`. -/
def HasCell (ty : Ty) (i k : Nat) : Prop :=
  ∃ offset τ, ty.memberOffset? i = some offset ∧ ty.memberTy? i = some τ ∧
    offset ≤ k ∧ k < offset + τ.size

/-- The members of a record lie one behind the other, without gaps, and fill its cells. -/
structure Tiled (ty : Ty) (count : Nat) : Prop where
  none_iff : ∀ i, ty.memberOffset? i = none ↔ count ≤ i
  first : (ty.memberOffset? 0).getD ty.size = 0
  /-- Behind a member comes the next one, and behind the last one the end. -/
  next : ∀ i offset τ, ty.memberOffset? i = some offset → ty.memberTy? i = some τ →
    (ty.memberOffset? (i + 1)).getD ty.size = offset + τ.size
  disjoint : ∀ i j k, ty.HasCell i k → ty.HasCell j k → i = j
  cover : ∀ k, (∃ i, ty.HasCell i k) ↔ k < ty.size

section Members

variable {name : String} {members : List (String × Ty)} {member : String × Ty} {i j k : Nat}

theorem sizeMembers_append (as bs : List (String × Ty)) :
    sizeMembers (as ++ bs) = sizeMembers as + sizeMembers bs := by
  induction as with
  | nil => simp [sizeMembers]
  | cons a as ih => simp [sizeMembers, ih, Nat.add_assoc]

theorem sizeMembers_take_succ (h : members[i]? = some member) :
    sizeMembers (members.take (i + 1)) = sizeMembers (members.take i) + member.2.size := by
  rw [List.take_add_one, h, sizeMembers_append]
  rfl

theorem sizeMembers_take_le (members : List (String × Ty)) (i : Nat) :
    sizeMembers (members.take i) ≤ sizeMembers members := by
  have hsplit := sizeMembers_append (members.take i) (members.drop i)
  rw [List.take_append_drop] at hsplit
  omega

theorem sizeMembers_take_mono (h : i ≤ j) :
    sizeMembers (members.take i) ≤ sizeMembers (members.take j) := by
  have hle := sizeMembers_take_le (members.take j) i
  rwa [List.take_take, Nat.min_eq_left h] at hle

theorem memberOffset?_record (name : String) (members : List (String × Ty)) (i : Nat) :
    (record name members).memberOffset? i =
      if i < members.length then some (sizeMembers (members.take i)) else none :=
  rfl

theorem memberOffset?_eq_some_iff {offset : Nat} :
    (record name members).memberOffset? i = some offset ↔
      i < members.length ∧ sizeMembers (members.take i) = offset := by
  rw [memberOffset?_record]
  by_cases hlt : i < members.length
  · simp [hlt]
  · simp [hlt]

theorem memberTy?_eq_some_iff {τ : Ty} :
    (record name members).memberTy? i = some τ ↔ ∃ field, members[i]? = some (field, τ) := by
  simp [memberTy?, Option.map_eq_some_iff]

theorem hasCell_iff : (record name members).HasCell i k ↔ i < members.length ∧
    sizeMembers (members.take i) ≤ k ∧ k < sizeMembers (members.take (i + 1)) := by
  constructor
  · rintro ⟨offset, τ, hoffset, hτ, hlow, hhigh⟩
    obtain ⟨hlt, rfl⟩ := memberOffset?_eq_some_iff.mp hoffset
    obtain ⟨field, hfield⟩ := memberTy?_eq_some_iff.mp hτ
    rw [sizeMembers_take_succ hfield]
    exact ⟨hlt, hlow, hhigh⟩
  · rintro ⟨hlt, hlow, hhigh⟩
    have hfield := List.getElem?_eq_getElem hlt
    rw [sizeMembers_take_succ hfield] at hhigh
    exact ⟨_, _, memberOffset?_eq_some_iff.mpr ⟨hlt, rfl⟩, memberTy?_eq_some_iff.mpr ⟨_, hfield⟩,
      hlow, hhigh⟩

theorem le_of_hasCell (hi : (record name members).HasCell i k)
    (hj : (record name members).HasCell j k) : i ≤ j := by
  rw [hasCell_iff] at hi hj
  apply Nat.le_of_not_lt
  intro hlt
  have hle : sizeMembers (members.take (j + 1)) ≤ sizeMembers (members.take i) :=
    sizeMembers_take_mono hlt
  omega

theorem exists_hasCell_iff :
    (∃ i, (record name members).HasCell i k) ↔ k < (record name members).size := by
  simp only [hasCell_iff, size]
  constructor
  · rintro ⟨i, -, -, hhigh⟩
    exact Nat.lt_of_lt_of_le hhigh (sizeMembers_take_le members (i + 1))
  · intro hk
    -- Members are left out from the end as long as `k` lies before them.
    have hstep : ∀ n, n ≤ members.length → k < sizeMembers (members.take n) →
        ∃ i, i < members.length ∧ sizeMembers (members.take i) ≤ k ∧
          k < sizeMembers (members.take (i + 1)) := by
      intro n hn hlt
      induction n with
      | zero => simp [sizeMembers] at hlt
      | succ n ih =>
        by_cases hbefore : k < sizeMembers (members.take n)
        · exact ih (by omega) hbefore
        · exact ⟨n, hn, by omega, hlt⟩
    apply hstep members.length (Nat.le_refl _)
    rwa [List.take_length]

theorem memberOffset?_succ {offset : Nat} {τ : Ty}
    (hoffset : (record name members).memberOffset? i = some offset)
    (hτ : (record name members).memberTy? i = some τ) :
    ((record name members).memberOffset? (i + 1)).getD (record name members).size =
      offset + τ.size := by
  obtain ⟨hlt, rfl⟩ := memberOffset?_eq_some_iff.mp hoffset
  obtain ⟨field, hfield⟩ := memberTy?_eq_some_iff.mp hτ
  rw [memberOffset?_record, ← @sizeMembers_take_succ _ (field, τ) _ hfield]
  by_cases hnext : i + 1 < members.length
  · rw [if_pos hnext, Option.getD_some]
  · rw [if_neg hnext, Option.getD_none, List.take_of_length_le (by omega), size]

theorem tiled_record (name : String) (members : List (String × Ty)) :
    (record name members).Tiled members.length := by
  refine ⟨fun i => ?_, ?_, fun i offset τ => memberOffset?_succ, fun i j k hi hj => ?_,
    fun k => exists_hasCell_iff⟩
  · rw [memberOffset?_record]
    by_cases hlt : i < members.length
    · simp [hlt]
    · simp [hlt, Nat.le_of_not_lt hlt]
  · cases members with
    | nil => rfl
    | cons first members => rfl
  · exact Nat.le_antisymm (le_of_hasCell hi hj) (le_of_hasCell hj hi)

theorem slice_flatten {α : Type} {cells : List (List α)}
    (hsizes : cells.map List.length = members.map fun m => m.2.size)
    (hmember : members[i]? = some member) :
    cells[i]? =
      some ((cells.flatten.drop (sizeMembers (members.take i))).take member.2.size) := by
  induction members generalizing cells i with
  | nil => cases hmember
  | cons first members ih =>
    cases cells with
    | nil => cases hsizes
    | cons row cells =>
      rw [List.map_cons, List.map_cons] at hsizes
      obtain ⟨hrow, hrest⟩ := List.cons.inj hsizes
      cases i with
      | zero =>
        cases hmember
        rw [List.take_zero, sizeMembers, List.drop_zero, List.flatten_cons, ← hrow, List.take_left]
        rfl
      | succ i =>
        rw [List.take_succ_cons, sizeMembers, ← hrow, List.flatten_cons, ← List.drop_drop,
          List.drop_left]
        exact ih hrest hmember

theorem length_flatten {α : Type} {cells : List (List α)}
    (hsizes : cells.map List.length = members.map fun m => m.2.size) :
    cells.flatten.length = sizeMembers members := by
  induction members generalizing cells with
  | nil =>
    rw [List.map_eq_nil_iff.mp hsizes]
    rfl
  | cons first members ih =>
    cases cells with
    | nil => cases hsizes
    | cons row cells =>
      rw [List.map_cons, List.map_cons] at hsizes
      obtain ⟨hrow, hrest⟩ := List.cons.inj hsizes
      rw [List.flatten_cons, List.length_append, ih hrest, hrow, sizeMembers]

end Members

theorem memberOffset?_add_le {ty τ : Ty} {i offset : Nat}
    (hoffset : ty.memberOffset? i = some offset) (hτ : ty.memberTy? i = some τ) :
    offset + τ.size ≤ ty.size := by
  cases ty with
  | record name members =>
    obtain ⟨-, rfl⟩ := memberOffset?_eq_some_iff.mp hoffset
    obtain ⟨field, hfield⟩ := memberTy?_eq_some_iff.mp hτ
    have hle := sizeMembers_take_le members (i + 1)
    rwa [sizeMembers_take_succ hfield] at hle
  | _ => cases hτ

end Ty

end PCode
