import PCode.Proofs.Definitions
import PCode.Proofs.Typing.Rules

namespace PCode

namespace Table

variable {α : Type}
variable {table : Table α} {name : String}

@[simp] theorem get?_nil (name : String) : get? ([] : Table α) name = none := rfl

@[simp] theorem get?_insert (table : Table α) (name other : String) (value : α) :
    (table.insert name value).get? other =
      if name = other then some value else table.get? other := by
  unfold get? insert
  by_cases h : name = other <;> simp [h]

theorem get?_cons (entry : String × α) (table : Table α) (name : String) :
    get? (entry :: table) name = if entry.1 = name then some entry.2 else table.get? name :=
  get?_insert table entry.1 name entry.2

theorem get?_eq_none_iff : table.get? name = none ↔ name ∉ table.map Prod.fst := by
  unfold get?
  simp
  grind

theorem mem_of_get? {value : α} (h : table.get? name = some value) : (name, value) ∈ table := by
  unfold get? at h
  obtain ⟨⟨n, v⟩, hfind, rfl⟩ := Option.map_eq_some_iff.mp h
  have hname := List.find?_some hfind
  obtain rfl : n = name := by simpa using hname
  exact List.mem_of_find?_eq_some hfind

theorem get?_of_suffix {whole : Table α} (hs : table <:+ whole)
    (hnodup : (whole.map Prod.fst).Nodup) {value : α} (h : table.get? name = some value) :
    whole.get? name = some value := by
  obtain ⟨front, rfl⟩ := hs
  induction front with
  | nil => exact h
  | cons entry front ih =>
    simp only [List.cons_append, List.map_cons, List.nodup_cons] at hnodup
    have hne : entry.1 ≠ name := by
      rintro rfl
      exact hnodup.1 (List.mem_map.mpr ⟨_, List.mem_append_right _ (mem_of_get? h), rfl⟩)
    rw [List.cons_append, get?_cons, if_neg hne]
    exact ih hnodup.2

theorem get?_of_mem (hnodup : (table.map Prod.fst).Nodup) {value : α} (h : (name, value) ∈ table) :
    table.get? name = some value := by
  obtain ⟨front, rest, rfl⟩ := List.append_of_mem h
  apply get?_of_suffix (List.suffix_append _ _) hnodup
  rw [get?_cons, if_pos rfl]

end Table

namespace Context

variable {Δ Δ₁ Δ₂ : Context}
variable {name : String} {members : List (String × Ty)}

/-- Every entry of the first context is one of the second. -/
structure Extends (Δ Δ' : Context) : Prop where
  functions : ∀ {name τ}, Δ.function? name = some τ → Δ'.function? name = some τ
  records : ∀ {name τ}, Δ.record? name = some τ → Δ'.record? name = some τ

theorem Extends.refl (Δ : Context) : Δ.Extends Δ := ⟨id, id⟩

theorem Extends.trans (h : Δ.Extends Δ₁) (h' : Δ₁.Extends Δ₂) : Δ.Extends Δ₂ :=
  ⟨fun hf => h'.functions (h.functions hf), fun hr => h'.records (h.records hr)⟩

/-- A record comes with the function that builds it. -/
def Lawful (Δ : Context) : Prop :=
  ∀ name τ, Δ.record? name = some τ → ∃ members, τ = .record name members ∧
    Δ.function? name = some (.function (members.map Prod.snd) false τ)

/-- The names of the defined functions, latest first. -/
def defined (Δ : Context) : List String :=
  Δ.definitions.map Prod.fst

theorem withFunction_extends {τ : Ty} (h : Δ.function? name = none) :
    Δ.Extends (Δ.withFunction name τ) := by
  constructor
  · intro other σ hf
    have hne : name ≠ other := by
      rintro rfl
      simp [h] at hf
    simpa [withFunction, function?, Symbols.get?, Symbols.ofKind, hne] using hf
  · exact id

theorem withRecord_extends (hr : Δ.record? name = none) (hf : Δ.function? name = none) :
    Δ.Extends (Δ.withRecord name members) := by
  constructor
  · intro other σ h
    have hne : name ≠ other := by
      rintro rfl
      simp [hf] at h
    simpa [withRecord, function?, Symbols.get?, Symbols.ofKind, hne] using h
  · intro other σ h
    have hne : name ≠ other := by
      rintro rfl
      simp [hr] at h
    simpa [withRecord, record?, Symbols.get?, Symbols.ofKind, hne] using h

theorem withDefinition_extends (name : String) (span : Span) :
    Δ.Extends (Δ.withDefinition name span) := ⟨id, id⟩

theorem returning_extends (ret : Option Ty) : Δ.Extends (Δ.returning ret) := ⟨id, id⟩

theorem extends_returning (ret : Option Ty) : (Δ.returning ret).Extends Δ := ⟨id, id⟩

theorem Lawful.withFunction (hΔ : Δ.Lawful) {τ : Ty} (h : Δ.function? name = none) :
    (Δ.withFunction name τ).Lawful := by
  intro other σ hr
  obtain ⟨members, rfl, hf⟩ := hΔ other σ hr
  exact ⟨members, rfl, (withFunction_extends h).functions hf⟩

theorem Lawful.withRecord (hΔ : Δ.Lawful) (hr : Δ.record? name = none)
    (hf : Δ.function? name = none) : (Δ.withRecord name members).Lawful := by
  intro other σ h
  by_cases hne : name = other
  · subst hne
    obtain rfl : Ty.record name members = σ := by
      simpa [Context.withRecord, record?, Symbols.get?, Symbols.ofKind] using h
    exact ⟨members, rfl, by simp [Context.withRecord, function?, Symbols.get?, Symbols.ofKind]⟩
  · have h' : Δ.record? other = some σ := by
      simpa [Context.withRecord, record?, Symbols.get?, Symbols.ofKind, hne] using h
    obtain ⟨ms, rfl, hother⟩ := hΔ other σ h'
    exact ⟨ms, rfl, (withRecord_extends hr hf).functions hother⟩

theorem Lawful.withDefinition (hΔ : Δ.Lawful) (name : String) (span : Span) :
    (Δ.withDefinition name span).Lawful := hΔ

theorem Lawful.returning (hΔ : Δ.Lawful) (ret : Option Ty) : (Δ.returning ret).Lawful := hΔ

theorem empty_lawful : Context.empty.Lawful := by
  intro name τ h
  simp [empty, record?, Symbols.get?, Symbols.ofKind] at h

@[simp] theorem defined_withFunction (name : String) (τ : Ty) :
    (Δ.withFunction name τ).defined = Δ.defined := rfl

@[simp] theorem defined_withRecord (name : String) (members : List (String × Ty)) :
    (Δ.withRecord name members).defined = Δ.defined := rfl

@[simp] theorem defined_withDefinition (name : String) (span : Span) :
    (Δ.withDefinition name span).defined = name :: Δ.defined := rfl

@[simp] theorem defined_returning (ret : Option Ty) : (Δ.returning ret).defined = Δ.defined := rfl

/-- A function that is defined has been declared and builds no record. -/
def Ordinary (Δ : Context) : Prop :=
  ∀ name ∈ Δ.defined, Δ.isConstructor name = false ∧ ∃ τ, Δ.function? name = some τ

theorem Ordinary.withFunction (hΔ : Δ.Ordinary) {τ : Ty} (h : Δ.function? name = none) :
    (Δ.withFunction name τ).Ordinary := by
  intro other hother
  obtain ⟨hr, σ, hf⟩ := hΔ other hother
  exact ⟨hr, σ, (withFunction_extends h).functions hf⟩

theorem Ordinary.withRecord (hΔ : Δ.Ordinary) (hr : Δ.record? name = none)
    (hf : Δ.function? name = none) : (Δ.withRecord name members).Ordinary := by
  intro other hother
  obtain ⟨hr', σ, hf'⟩ := hΔ other hother
  -- the record is new, so it is none of the functions that were declared before
  have hne : name ≠ other := by
    rintro rfl
    rw [hf] at hf'
    cases hf'
  refine ⟨?_, σ, (withRecord_extends hr hf).functions hf'⟩
  simpa [isConstructor, Context.withRecord, record?, Symbols.get?, Symbols.ofKind, hne] using hr'

theorem Ordinary.withDefinition (hΔ : Δ.Ordinary) {τ : Ty} (h : Δ.Definable name τ) (span : Span) :
    (Δ.withDefinition name span).Ordinary := by
  intro other hother
  rcases List.mem_cons.mp hother with rfl | hother
  · exact ⟨h.ordinary, τ, h.declared⟩
  · exact hΔ other hother

theorem Definable.not_mem {τ : Ty} (h : Δ.Definable name τ) : name ∉ Δ.defined := by
  have hfresh := h.fresh
  rw [isDefined, Table.contains, Option.isSome_eq_false_iff, Option.isNone_iff_eq_none] at hfresh
  exact Table.get?_eq_none_iff.mp hfresh

end Context

section Extends

variable {Δ Δ' : Context}

mutual

theorem Resolves.mono {Δ Δ' : Context} {w τ : Ty} (hΔ : Δ.Extends Δ') :
    Resolves Δ w τ → Resolves Δ' w τ
  | .i64 => .i64
  | .real => .real
  | .string => .string
  | .bool => .bool
  | .array h => .array (h.mono hΔ)
  | .function hs h => .function (hs.mono hΔ) (h.mono hΔ)
  | .named hr => .named (hΔ.records hr)
  | .record => .record

theorem ResolvesParams.mono {Δ Δ' : Context} {ws τs : List Ty} {variadic : Bool}
    (hΔ : Δ.Extends Δ') : ResolvesParams Δ ws τs variadic → ResolvesParams Δ' ws τs variadic
  | .nil => .nil
  | .ellipsis => .ellipsis
  | .cons h hs => .cons (h.mono hΔ) (hs.mono hΔ)

end

theorem ResolvesMembers.mono {ms σs : List (String × Ty)} (hΔ : Δ.Extends Δ')
    (h : ResolvesMembers Δ ms σs) : ResolvesMembers Δ' ms σs := by
  induction h with
  | nil => exact .nil
  | cons h _ ih => exact .cons (h.mono hΔ) ih

theorem Callee.mono {Γ : Locals} {name : String} {τ : Ty} (hΔ : Δ.Extends Δ')
    (h : Callee Δ Γ name τ) : Callee Δ' Γ name τ := by
  cases h with
  | bound hbound => exact .bound hbound
  | declared hfree hτ => exact .declared hfree (hΔ.functions hτ)

namespace Expr

mutual

theorem Typed.mono {Δ Δ' : Context} {Γ : Locals} {e a : Expr} (hΔ : Δ.Extends Δ') :
    Typed Δ Γ e a → Typed Δ' Γ e a
  | .integer => .integer
  | .real => .real
  | .text => .text
  | .boolean => .boolean
  | .name h => .name h
  | .unary h hop => .unary (h.mono hΔ) hop
  | .binary hl hr hty hop => .binary (hl.mono hΔ) (hr.mono hΔ) hty hop
  | .member h hty hmember hfirst => .member (h.mono hΔ) hty hmember hfirst
  | .assign hx h => .assign hx (h.mono hΔ)
  | .cond hc htest ht he hty => .cond (hc.mono hΔ) htest (ht.mono hΔ) (he.mono hΔ) hty
  | .call hcallee hmore hargs => .call (hcallee.mono hΔ) hmore (hargs.mono hΔ)
  | .array h hs => .array (h.mono hΔ) (hs.mono hΔ)
  | .index h hty hi hindex => .index (h.mono hΔ) hty (hi.mono hΔ) hindex

theorem TypedArgs.mono {Δ Δ' : Context} {Γ : Locals} {τs : List Ty} {es as : List Expr}
    (hΔ : Δ.Extends Δ') : TypedArgs Δ Γ τs es as → TypedArgs Δ' Γ τs es as
  | .nil => .nil
  | .value h hs => .value (h.mono hΔ) (hs.mono hΔ)
  | .lambda hlength hnodup h hs => .lambda hlength hnodup (h.mono hΔ) (hs.mono hΔ)
  | .extra h hs => .extra (h.mono hΔ) (hs.mono hΔ)

theorem TypedItems.mono {Δ Δ' : Context} {Γ : Locals} {τ : Ty} {es as : List Expr}
    (hΔ : Δ.Extends Δ') : TypedItems Δ Γ τ es as → TypedItems Δ' Γ τ es as
  | .nil => .nil
  | .cons h hs => .cons (h.mono hΔ) (hs.mono hΔ)

end

end Expr

theorem TypedBindings.mono {Γ Γ' : Locals} {es as : List (String × Expr)} (hΔ : Δ.Extends Δ')
    (h : TypedBindings Δ Γ es as Γ') : TypedBindings Δ' Γ es as Γ' := by
  induction h with
  | nil => exact .nil
  | cons h _ ih => exact .cons (h.mono hΔ) ih

theorem Expr.typed_returning {Γ : Locals} {e a : Expr} {ret : Option Ty} :
    e.Typed (Δ.returning ret) Γ a ↔ e.Typed Δ Γ a :=
  ⟨fun h => h.mono (Context.extends_returning ret), fun h => h.mono (Context.returning_extends ret)⟩

theorem typedBindings_returning {Γ Γ' : Locals} {es as : List (String × Expr)} {ret : Option Ty} :
    TypedBindings (Δ.returning ret) Γ es as Γ' ↔ TypedBindings Δ Γ es as Γ' :=
  ⟨fun h => h.mono (Context.extends_returning ret), fun h => h.mono (Context.returning_extends ret)⟩

end Extends

namespace Stmt

/-- What a typed statement does to a context: it keeps every entry, and puts the functions that it
defines in front of those defined before. -/
structure Growth (Δ Δ' : Context) (names : List String) : Prop where
  kept : Δ.Extends Δ'
  lawful : Δ.Lawful → Δ'.Lawful
  defined : Δ'.defined = names.reverse ++ Δ.defined
  nodup : Δ.defined.Nodup → Δ'.defined.Nodup
  ordinary : Δ.Ordinary → Δ'.Ordinary

theorem Growth.refl (Δ : Context) : Growth Δ Δ [] :=
  ⟨.refl Δ, id, rfl, id, id⟩

theorem Growth.trans {Δ Δ₁ Δ₂ : Context} {names names' : List String} (h : Growth Δ Δ₁ names)
    (h' : Growth Δ₁ Δ₂ names') : Growth Δ Δ₂ (names ++ names') where
  kept := h.kept.trans h'.kept
  lawful hΔ := h'.lawful (h.lawful hΔ)
  defined := by rw [h'.defined, h.defined, List.reverse_append, List.append_assoc]
  nodup hΔ := h'.nodup (h.nodup hΔ)
  ordinary hΔ := h'.ordinary (h.ordinary hΔ)

theorem Growth.define {Δ : Context} {name : String} {τ : Ty} (h : Δ.Definable name τ)
    (span : Span) (ret : Option Ty) :
    Growth Δ ((Δ.withDefinition name span).returning ret) [name] where
  kept := (Context.withDefinition_extends name span).trans (Context.returning_extends ret)
  lawful hΔ := (hΔ.withDefinition name span).returning ret
  defined := rfl
  nodup hΔ := by simpa using ⟨h.not_mem, hΔ⟩
  ordinary hΔ := hΔ.withDefinition h span

theorem Growth.returning {Δ Δ' : Context} {names : List String} (h : Growth Δ Δ' names)
    (ret : Option Ty) : Growth Δ (Δ'.returning ret) names :=
  ⟨h.kept.trans (Context.returning_extends ret), h.lawful, h.defined, h.nodup, h.ordinary⟩

mutual

theorem Typed.growth {s s' : Stmt} {Δ Δ' : Context} {Γ Γ' : Locals} :
    Typed Δ Γ s s' Δ' Γ' → Growth Δ Δ' (defines s')
  | .expr _ | .comment | .ret _ _ | .bind _ => .refl _
  | .declare _ hnew =>
    ⟨Context.withFunction_extends hnew, fun hΔ => hΔ.withFunction hnew, rfl, id,
      fun hΔ => hΔ.withFunction hnew⟩
  | .record _ _ hr hf =>
    ⟨Context.withRecord_extends hr hf, fun hΔ => hΔ.withRecord hr hf, rfl, id,
      fun hΔ => hΔ.withRecord hr hf⟩
  | .define hdef _ _ _ _ => .define hdef _ _
  | .defineBlock hdef _ _ _ hbody => ((Growth.define hdef _ _).trans hbody.growth).returning _
  | .loop _ _ hbody | .block hbody => hbody.growth
  | .branch _ _ ht he => ht.growth.trans he.growth

theorem TypedList.growth {ss ss' : List Stmt} {Δ Δ' : Context} {Γ Γ' : Locals} :
    TypedList Δ Γ ss ss' Δ' Γ' → Growth Δ Δ' (definesList ss')
  | .nil => .refl _
  | .cons hs hss => hs.growth.trans hss.growth

end

mutual

theorem Typed.current {s s' : Stmt} {Δ Δ' : Context} {Γ Γ' : Locals} :
    Typed Δ Γ s s' Δ' Γ' → Δ'.current = Δ.current
  | .expr _ | .comment | .ret _ _ | .bind _ | .declare _ _ | .record _ _ _ _
  | .define _ _ _ _ _ | .defineBlock _ _ _ _ _ => rfl
  | .loop _ _ hbody | .block hbody => hbody.current
  | .branch _ _ ht he => he.current.trans ht.current

theorem TypedList.current {ss ss' : List Stmt} {Δ Δ' : Context} {Γ Γ' : Locals} :
    TypedList Δ Γ ss ss' Δ' Γ' → Δ'.current = Δ.current
  | .nil => rfl
  | .cons hs hss => hss.current.trans hs.current

end

end Stmt

namespace Program

variable {program typed : Program} {Δ : Context}

theorem Typed.lawful (h : program.Typed .empty typed Δ) : Δ.Lawful := by
  obtain ⟨Γ, h⟩ := h
  exact h.growth.lawful Context.empty_lawful

/-- No name is defined twice in a typed program. -/
theorem Typed.defines_nodup (h : program.Typed .empty typed Δ) :
    (Stmt.definesList typed).Nodup := by
  obtain ⟨Γ, h⟩ := h
  have hnodup := h.growth.nodup (by simp [Context.defined, Context.empty])
  rw [h.growth.defined] at hnodup
  simpa [Context.defined, Context.empty, (List.reverse_perm _).nodup_iff] using hnodup

theorem Typed.ordinary (h : program.Typed .empty typed Δ) {name : String}
    (hname : name ∈ Stmt.definesList typed) : Δ.isConstructor name = false := by
  obtain ⟨Γ, h⟩ := h
  have hempty : Context.empty.Ordinary := fun _ hmem => nomatch hmem
  have hdefined : name ∈ Δ.defined := by
    rw [h.growth.defined]
    exact List.mem_append_left _ (List.mem_reverse.mpr hname)
  exact (h.growth.ordinary hempty name hdefined).1

end Program

end PCode
