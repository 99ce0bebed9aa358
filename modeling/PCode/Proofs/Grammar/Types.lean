import PCode.Proofs.Grammar.Lexemes

namespace PCode

mutual

/-- A type as text. -/
def Ty.written : Ty → List Char
  | .i64 => "i64".toList
  | .real => "real".toList
  | .string => "string".toList
  | .bool => "bool".toList
  | .vararg => "...".toList
  | .array element => '[' :: (element.written ++ [']'])
  | .function params _ ret =>
    '(' :: (Ty.writtenList params ++ (" ->".toList ++ (' ' :: ret.written ++ [')'])))
  | .record name _ => name.toList
  | .list _ | .unknown => []

/-- Types with a space before each. -/
def Ty.writtenList : List Ty → List Char
  | [] => []
  | t :: ts => ' ' :: t.written ++ Ty.writtenList ts

end

theorem Ty.writtenList_eq_flatMap (ts : List Ty) :
    Ty.writtenList ts = ts.flatMap fun t => ' ' :: t.written := by
  induction ts with
  | nil => rfl
  | cons t ts ih => rw [List.flatMap_cons, ← ih]; rfl

theorem Ty.written_array (element : Ty) :
    (Ty.array element).written = '[' :: (element.written ++ [']']) := rfl

theorem Ty.written_function (params : List Ty) (variadic : Bool) (ret : Ty) :
    (Ty.function params variadic ret).written = '(' ::
      (params.flatMap (fun t => ' ' :: t.written) ++
        (" ->".toList ++ (' ' :: ret.written ++ [')']))) := by
  rw [← Ty.writtenList_eq_flatMap]
  rfl

theorem length_le_flatMap {α : Type} {x : α} {xs : List α} (f : α → List Char) (h : x ∈ xs) :
    (f x).length ≤ (xs.flatMap f).length := by
  obtain ⟨front, back, rfl⟩ := List.append_of_mem h
  simp only [List.flatMap_append, List.flatMap_cons, List.length_append]
  omega

namespace Grammar

open PCode.Parser

section Types

/-- No type goes on here. -/
def TypeEnds (rest : List Char) : Prop :=
  WordEnds rest ∧ OpEnds rest

theorem typeEnds_cons {c : Char} (rest : List Char) (hword : isWordChar c = false)
    (hop : extendsOperator c = false) : TypeEnds (c :: rest) :=
  ⟨wordEnds_cons rest hword, opEnds_cons rest hop⟩

/-- The characters with which a type can start. -/
def typeStart (c : Char) : Bool :=
  isWordChar c || ['.', '[', '('].contains c

theorem type_begins (fuel : Nat) : Begins (type fuel) typeStart := by
  cases fuel with
  | zero => exact .reject
  | succ fuel =>
    apply Begins.choice
    simp only [List.forall_mem_cons]
    refine ⟨?_, ?_, ?_, ?_, nofun⟩
    · exact ((op_begins (by decide)).mono (of_starts (by decide))).map _
    · exact ((punct_begins (by decide)).mono (of_starts (by decide))).bind _
    · exact ((punct_begins (by decide)).mono (of_starts (by decide))).bind _
    · exact (ident_begins.mono fun c hc => by simp [typeStart, hc]).map _

theorem type_skips (fuel : Nat) : Skips (type fuel) := by
  cases fuel with
  | zero => exact fun _ => rfl
  | succ fuel =>
    apply Skips.choice
    simp only [List.forall_mem_cons]
    exact ⟨(op_skips _).map _, (punct_skips _).bind _, (punct_skips _).bind _, ident_skips.map _,
      nofun⟩

theorem type_reads_name (name : String) (h : IsName name) (fuel : Nat) {rest : List Char}
    (hrest : WordEnds rest) :
    Reads (type (fuel + 1)) (fun a => a = typeNamed name) name.toList rest := by
  have hword := isWord_of_isName h
  refine Reads.alt_right ((op_fails_word hword (by decide) (by decide)).map _) ?_
  refine Reads.alt_right ((punct_fails_word hword (by decide) (by decide)).bind _) ?_
  refine Reads.alt_right ((punct_fails_word hword (by decide) (by decide)).bind _) ?_
  exact Reads.alt_left ((ident_reads h hrest).map fun a ha => by rw [ha])

theorem type_reads_array {t : Ty} {fuel : Nat} {rest : List Char}
    (h : Reads (type fuel) (fun a => a = t) t.written ([']'] ++ rest)) :
    Reads (type (fuel + 1)) (fun a => a = .array t) (Ty.array t).written rest := by
  refine Reads.alt_right (((op_begins (by decide)).fails_cons rfl (by decide)).map _) ?_
  refine Reads.alt_left ?_
  refine Reads.bind (s := ['[']) (punct_reads rfl (by decide)) fun _ _ => ?_
  refine Reads.bind h fun element helement => ?_
  refine Reads.last (punct_reads rfl (by decide)) fun _ _ => Reads.pure ?_
  rw [helement]

theorem type_reads_function {params : List Ty} {ret : Ty} {fuel : Nat} {rest : List Char}
    (hparams : ∀ param ∈ params, ∀ rest, TypeEnds rest →
      Reads (type fuel) (fun a => a = param) param.written rest)
    (hret : Reads (type fuel) (fun a => a = ret) ret.written ([')'] ++ rest)) :
    Reads (type (fuel + 1)) (fun a => a = .function params false ret)
      (Ty.function params false ret).written rest := by
  have heach : ReadsEach (type fuel) id TypeEnds id (fun t => ' ' :: t.written) params := by
    intro param hparam
    refine ⟨by simp, fun rest => typeEnds_cons _ (by decide) (by decide), fun rest hrest => ?_⟩
    exact (hparams param hparam rest hrest).space (type_skips fuel) rfl
  have harrow : Fails (type fuel) (" ->".toList ++ (' ' :: ret.written ++ [')'] ++ rest)) :=
    ((type_begins fuel).fails_cons rfl (by decide)).space (type_skips fuel) rfl
  rw [Ty.written_function]
  refine Reads.alt_right (((op_begins (by decide)).fails_cons rfl (by decide)).map _) ?_
  refine Reads.alt_right (((punct_begins (by decide)).fails_cons rfl (by decide)).bind _) ?_
  refine Reads.alt_left ?_
  refine Reads.bind (s := ['(']) (punct_reads rfl (by decide)) fun _ _ => ?_
  refine Reads.bind (heach.list (typeEnds_cons _ (by decide) (by decide)) harrow)
    fun params' hparams' => ?_
  refine Reads.bind ((op_reads rfl (by decide) (opEnds_cons _ (by decide))).space (op_skips _) rfl)
    fun _ _ => ?_
  refine Reads.bind (hret.space (type_skips fuel) rfl) fun ret' hret' => ?_
  refine Reads.last (punct_reads rfl (by decide)) fun _ _ => Reads.pure ?_
  rw [List.map_id, List.map_id] at hparams'
  rw [hparams', hret']

/-- The text of a type is read as that type, with a unit of fuel for each of its characters. -/
theorem type_reads {t : Ty} (h : t.WellFormed) {fuel : Nat} (hfuel : t.written.length ≤ fuel)
    {rest : List Char} (hrest : TypeEnds rest) :
    Reads (type fuel) (fun a => a = t) t.written rest := by
  obtain _ | fuel := fuel
  · -- no type is written as nothing
    exfalso
    cases h with
    | named hname _ => exact hname.nonempty (List.eq_nil_of_length_eq_zero (Nat.le_zero.mp hfuel))
    | i64 | real | string | bool | vararg => exact absurd hfuel (by decide)
    | array | function => exact absurd hfuel (Nat.not_succ_le_zero _)
  induction h generalizing fuel rest with
  | i64 => exact type_reads_name "i64" (by decide) fuel hrest.1
  | real => exact type_reads_name "real" (by decide) fuel hrest.1
  | string => exact type_reads_name "string" (by decide) fuel hrest.1
  | bool => exact type_reads_name "bool" (by decide) fuel hrest.1
  | vararg => exact Reads.alt_left ((op_reads rfl (by decide) hrest.2).map fun _ _ => rfl)
  | @array element helement ih =>
    rw [Ty.written_array] at hfuel
    simp only [List.length_cons, List.length_append, List.length_nil] at hfuel
    obtain ⟨fuel, rfl⟩ : ∃ k, fuel = k + 1 := ⟨fuel - 1, by omega⟩
    exact type_reads_array (ih (typeEnds_cons _ (by decide) (by decide)) fuel (by omega))
  | @function params ret hparams hret ihparams ihret =>
    rw [Ty.written_function] at hfuel
    simp only [List.length_cons, List.length_append, List.length_nil] at hfuel
    obtain ⟨fuel, rfl⟩ : ∃ k, fuel = k + 1 := ⟨fuel - 1, by omega⟩
    refine type_reads_function ?_
      (ihret (typeEnds_cons _ (by decide) (by decide)) fuel (by omega))
    intro param hparam rest hrest
    have hlength := length_le_flatMap (fun t : Ty => ' ' :: t.written) hparam
    simp only [List.length_cons] at hlength
    exact ihparams param hparam hrest fuel (by omega)
  | @named name hname hother =>
    refine (type_reads_name name hname fuel hrest.1).imp ?_
    intro t ht
    rw [ht]
    simp only [List.mem_cons, not_or] at hother
    simp [typeNamed, hother, Ty.named]

end Types

end Grammar

end PCode
