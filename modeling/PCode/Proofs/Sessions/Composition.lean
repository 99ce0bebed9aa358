import PCode.Proofs.Typing.Entries
import PCode.Syntax.Names

namespace PCode

section Pieces

namespace Stmt

/-- Whether the statement brings a variable into the scope behind it. -/
def isBinding : Stmt → Bool
  | .bind .. => true
  | _ => false

variable {Δ Δ' : Context} {Γ Γ' : Locals}

theorem Typed.locals_eq {s s' : Stmt} (h : Typed Δ Γ s s' Δ' Γ') (hs : s.isBinding = false) :
    Γ' = Γ := by
  cases h with
  | bind _ => cases hs
  | _ => rfl

/-- Statements that bind nothing lead back to the scope they start from, whatever is bound
inside. -/
theorem TypedList.locals_eq {ss ss' : List Stmt} (h : TypedList Δ Γ ss ss' Δ' Γ')
    (hss : ∀ s ∈ ss, s.isBinding = false) : Γ' = Γ := by
  induction ss generalizing Δ Γ ss' with
  | nil =>
    cases h
    rfl
  | cons s ss ih =>
    rw [List.forall_mem_cons] at hss
    cases h with
    | cons hs hrest =>
      rw [ih hrest hss.2]
      exact hs.locals_eq hss.1

/-- Statements in a row are checked like their first part and then, in the scope behind it, the
rest. -/
theorem checkList_append (Δ : Context) (Γ : Locals) (ss ts : List Stmt) :
    checkList Δ Γ (ss ++ ts) = (do
      let (ss, outcomes, scope) ← inside (· ++ ts) (checkList Δ Γ ss)
      let (ts, more, scope) ← inside (ss ++ ·) (checkList scope.context scope.locals ts)
      .ok (ss ++ ts, outcomes ++ more, scope)) := by
  induction ss generalizing Δ Γ with
  | nil =>
    rw [List.nil_append, checkList]
    simp only [inside, Bind.bind, Except.bind]
    cases checkList Δ Γ ts with
    | error stopped => rfl
    | ok answer => rfl
  | cons s ss ih =>
    rw [List.cons_append, checkList, checkList]
    cases s.check Δ Γ with
    | error stopped => rfl
    | ok first =>
      obtain ⟨s', τ, scope⟩ := first
      -- both sides now check the rest of the first part behind `s`, and then the second part
      simp only [inside, Bind.bind, Except.bind, ih]
      cases checkList scope.context scope.locals ss with
      | error stopped => rfl
      | ok second =>
        obtain ⟨ss', outcomes, scope'⟩ := second
        dsimp only
        cases checkList scope'.context scope'.locals ts with
        | error stopped => rfl
        | ok third => simp only [List.cons_append, List.append_assoc]

end Stmt

/-- Two programs that are checked as one have the result, the annotations and the context of the
first and then, unless that stops, of the second in the context behind it. -/
theorem Program.check_append (Δ : Context) (first second : Program)
    (h : ∀ s ∈ first, s.isBinding = false) :
    Program.check Δ (first ++ second) =
      match first.check Δ with
      | .error stopped => .error ⟨stopped.error, stopped.tree ++ second, stopped.context⟩
      | .ok (first', Δ₁) =>
        match second.check Δ₁ with
        | .error stopped => .error ⟨stopped.error, first' ++ stopped.tree, stopped.context⟩
        | .ok (second', Δ₂) => .ok (first' ++ second', Δ₂) := by
  unfold Program.check
  rw [Stmt.checkList_append]
  cases hfirst : Stmt.checkList Δ [] first with
  | error stopped => rfl
  | ok answer =>
    obtain ⟨first', outcomes, scope⟩ := answer
    -- no variable is left over, so the second program starts in an empty scope as it does alone
    have hlocals : scope.locals = [] :=
      ((Stmt.checkList_iff_typed _ _ _ _ _ _).mp hfirst).1.locals_eq h
    simp only [inside, bind, Except.bind, hlocals]
    cases Stmt.checkList scope.context [] second with
    | error stopped => rfl
    | ok answer => rfl

/-- A record, and a function on it with a variable and a function inside. -/
def pointProgram : Program :=
  let note : Note := ⟨⟨0, 0⟩, .unknown⟩
  [.record "point" [("x", .i64)] note,
    .declare "across" (.function [.named "point"] false .i64) note,
    .defineBlock "across" ["p"] []
      [.bind "q" (.name "p" note) note, .declare "unit" (.function [] false .i64) note,
        .define "unit" [] [] (.integer 1 note) note,
        .ret (.member (.name "q" note) (.name "x" note) none note) note] note]

/-- A call of everything that the other program leaves behind. -/
def acrossProgram : Program :=
  let note : Note := ⟨⟨0, 0⟩, .unknown⟩
  [.expr (.call "across" [.call "point" [.call "unit" [] note] note] note) note]

theorem acrossProgram_accepted : (match pointProgram.check .empty with
    | .ok (_, Δ) => (acrossProgram.check Δ).isOk
    | .error _ => false) = true := by
  decide +kernel

theorem pointProgram_append : (∀ s ∈ pointProgram, s.isBinding = false) ∧
    ∃ first Δ₁ second Δ₂, pointProgram.check .empty = .ok (first, Δ₁) ∧
      acrossProgram.check Δ₁ = .ok (second, Δ₂) ∧
      Program.check .empty (pointProgram ++ acrossProgram) = .ok (first ++ second, Δ₂) := by
  have hbinds : ∀ s ∈ pointProgram, s.isBinding = false := by decide
  have happend := Program.check_append .empty pointProgram acrossProgram hbinds
  have haccepted := acrossProgram_accepted
  split at haccepted
  · rename_i first Δ₁ hfirst
    cases hsecond : acrossProgram.check Δ₁ with
    | error stopped =>
      rw [hsecond] at haccepted
      cases haccepted
    | ok answer =>
      obtain ⟨second, Δ₂⟩ := answer
      simp only [hfirst, hsecond] at happend
      exact ⟨hbinds, first, Δ₁, second, Δ₂, hfirst, hsecond, happend⟩
  · cases haccepted

end Pieces

section Unrelated

theorem Table.get?_append {α : Type} (front rest : Table α) (name : String) :
    get? (front ++ rest) name = (front.get? name).or (rest.get? name) := by
  induction front with
  | nil => rfl
  | cons entry front ih =>
    rw [List.cons_append, get?_cons, get?_cons, ih]
    by_cases h : entry.1 = name
    · rw [if_pos h, if_pos h, Option.some_or]
    · rw [if_neg h, if_neg h]

namespace Context

/-- Nothing is entered under the name. -/
structure Lacks (Δ : Context) (name : String) : Prop where
  function : Δ.function? name = none
  record : Δ.record? name = none
  definition : Δ.isDefined name = false

instance (Δ : Context) (name : String) : Decidable (Δ.Lacks name) :=
  decidable_of_iff
    (Δ.function? name = none ∧ Δ.record? name = none ∧ Δ.isDefined name = false)
    ⟨fun ⟨hf, hr, hd⟩ => ⟨hf, hr, hd⟩, fun ⟨hf, hr, hd⟩ => ⟨hf, hr, hd⟩⟩

/-- A context on top of another: an entry below counts if there is none for its name above. -/
def atop (Δ base : Context) : Context where
  symbols :=
    { functions := Δ.symbols.functions ++ base.symbols.functions
      types := Δ.symbols.types ++ base.symbols.types }
  definitions := Δ.definitions ++ base.definitions
  current := Δ.current.or base.current

variable {Δ base : Context} {name : String}

theorem symbols_atop (kind : SymbolKind) : (Δ.atop base).symbols.get? name kind =
    (Δ.symbols.get? name kind).or (base.symbols.get? name kind) := by
  cases kind with
  | function => exact Table.get?_append _ _ _
  | type => exact Table.get?_append _ _ _

theorem definitions_atop : (Δ.atop base).definitions.get? name =
    (Δ.definitions.get? name).or (base.definitions.get? name) :=
  Table.get?_append _ _ _

theorem atop_extends (Δ base : Context) : Δ.Extends (Δ.atop base) := by
  constructor
  · intro name τ h
    rw [function?] at *
    rw [symbols_atop, h, Option.some_or]
  · intro name τ h
    rw [record?] at *
    rw [symbols_atop, h, Option.some_or]

theorem function?_atop_eq_none (h : Δ.function? name = none) (hbase : base.Lacks name) :
    (Δ.atop base).function? name = none :=
  (symbols_atop .function).trans (Option.or_eq_none_iff.mpr ⟨h, hbase.function⟩)

theorem record?_atop_eq_none (h : Δ.record? name = none) (hbase : base.Lacks name) :
    (Δ.atop base).record? name = none :=
  (symbols_atop .type).trans (Option.or_eq_none_iff.mpr ⟨h, hbase.record⟩)

theorem Definable.atop {τ : Ty} (h : Δ.Definable name τ) (hbase : base.Lacks name) :
    (Δ.atop base).Definable name τ where
  declared := (atop_extends Δ base).functions h.declared
  fresh := by
    have hΔ := h.fresh
    have hlacks := hbase.definition
    rw [isDefined, Table.contains, Option.isSome_eq_false_iff, Option.isNone_iff_eq_none] at *
    rw [definitions_atop, hΔ, hlacks, Option.none_or]
  ordinary := by
    have hΔ := h.ordinary
    rw [isConstructor, Option.isSome_eq_false_iff, Option.isNone_iff_eq_none] at *
    exact record?_atop_eq_none hΔ hbase

end Context

namespace Stmt

open Context

mutual

/-- A typed statement is typed in the same way on top of a context that has none of its names. -/
theorem Typed.atop {base : Context} {s a : Stmt} {Δ Δ' : Context} {Γ Γ' : Locals} :
    Typed Δ Γ s a Δ' Γ' → (∀ name ∈ s.names, base.Lacks name) →
      Typed (Δ.atop base) Γ s a (Δ'.atop base) Γ'
  | .expr h, _ => .expr (h.mono (atop_extends _ _))
  | .declare hw hnew, hlacks => by
    rw [names, List.forall_mem_singleton] at hlacks
    exact .declare (hw.mono (atop_extends _ _)) (function?_atop_eq_none hnew hlacks)
  | .record hnodup hws hr hf, hlacks => by
    rw [names, List.forall_mem_singleton] at hlacks
    exact .record hnodup (hws.mono (atop_extends _ _)) (record?_atop_eq_none hr hlacks)
      (function?_atop_eq_none hf hlacks)
  | .comment, _ => .comment
  | .ret hcurrent h, _ =>
    .ret (by rw [Context.atop, hcurrent, Option.some_or]) (h.mono (atop_extends _ _))
  | .define hdef hlength hnodup hes h, hlacks => by
    rw [names, List.forall_mem_singleton] at hlacks
    exact .define (hdef.atop hlacks) hlength hnodup (hes.mono (atop_extends _ _))
      (h.mono (atop_extends _ _))
  | .defineBlock hdef hlength hnodup hes hbody, hlacks => by
    rw [names, List.forall_mem_cons] at hlacks
    -- inside the function its own type is the current one, whatever the context below has
    exact .defineBlock (hdef.atop hlacks.1) hlength hnodup (hes.mono (atop_extends _ _))
      (hbody.atop hlacks.2)
  | .loop hc htest hbody, hlacks =>
    .loop (hc.mono (atop_extends _ _)) htest (hbody.atop hlacks)
  | .branch hc htest ht he, hlacks => by
    rw [names, List.forall_mem_append] at hlacks
    exact .branch (hc.mono (atop_extends _ _)) htest (ht.atop hlacks.1) (he.atop hlacks.2)
  | .bind h, _ => .bind (h.mono (atop_extends _ _))
  | .block hbody, hlacks => .block (hbody.atop hlacks)

theorem TypedList.atop {base : Context} {ss as : List Stmt} {Δ Δ' : Context} {Γ Γ' : Locals} :
    TypedList Δ Γ ss as Δ' Γ' → (∀ name ∈ namesList ss, base.Lacks name) →
      TypedList (Δ.atop base) Γ ss as (Δ'.atop base) Γ'
  | .nil, _ => .nil
  | .cons h hs, hlacks => by
    rw [namesList, List.forall_mem_append] at hlacks
    exact .cons (h.atop hlacks.1) (hs.atop hlacks.2)

end

end Stmt

/-- A program that is accepted by itself is accepted with the same annotations in every context that
has none of its names, and adds to it what it has entered by itself. -/
theorem Program.check_weakening {program typed : Program} {Δ Δ' : Context}
    (h : program.check .empty = .ok (typed, Δ'))
    (hlacks : ∀ name ∈ Stmt.namesList program, Δ.Lacks name) :
    ∃ Δ₂, program.check Δ = .ok (typed, Δ₂) ∧
      (∀ name kind τ, Δ₂.symbols.get? name kind = some τ ↔
        Δ.symbols.get? name kind = some τ ∨ Δ'.symbols.get? name kind = some τ) ∧
      (∀ name span, Δ₂.definitions.get? name = some span ↔
        Δ.definitions.get? name = some span ∨ Δ'.definitions.get? name = some span) ∧
      Δ₂.current = Δ.current := by
  obtain ⟨Γ, htyped⟩ := Program.check_eq_ok_iff.mp h
  have hcheck : program.check Δ = .ok (typed, Δ'.atop Δ) :=
    Program.check_eq_ok_iff.mpr ⟨Γ, htyped.atop hlacks⟩
  -- the entries of the context below stay visible, since a check keeps what it finds
  have hkeeps : Δ.Keeps (Δ'.atop Δ) := by
    have hfilled := program.check_filled Δ
    rw [hcheck] at hfilled
    exact Context.Fills.keeps hfilled
  refine ⟨Δ'.atop Δ, hcheck, fun name kind τ => ⟨fun hτ => ?_, ?_⟩,
    fun name span => ⟨fun hspan => ?_, ?_⟩, hkeeps.current⟩
  · rw [Context.symbols_atop, Option.or_eq_some_iff] at hτ
    exact hτ.symm.imp And.right id
  · rintro (hτ | hτ)
    · exact hkeeps.symbols name kind τ hτ
    · exact (Context.atop_extends Δ' Δ).symbols name kind τ hτ
  · rw [Context.definitions_atop, Option.or_eq_some_iff] at hspan
    exact hspan.symm.imp And.right id
  · rintro (hspan | hspan)
    · exact hkeeps.definitions name span hspan
    · rw [Context.definitions_atop, hspan, Option.some_or]

/-- A context inside a function that returns a truth value, with another function in it. -/
def insideContext : Context where
  symbols := { functions := [("even", .function [.i64] false .bool)] }
  definitions := [("even", ⟨4, 1⟩)]
  current := some .bool

theorem pointProgram_weakening : (∀ name ∈ Stmt.namesList pointProgram, insideContext.Lacks name) ∧
    ∃ typed Δ' Δ, pointProgram.check .empty = .ok (typed, Δ') ∧
      pointProgram.check insideContext = .ok (typed, Δ) ∧
      Δ.function? "even" = some (.function [.i64] false .bool) ∧ Δ.current = some .bool := by
  have hlacks : ∀ name ∈ Stmt.namesList pointProgram, insideContext.Lacks name := by decide
  have haccepted := acrossProgram_accepted
  split at haccepted
  · rename_i typed Δ' hcheck
    obtain ⟨Δ, hbase, hsymbols, -, hcurrent⟩ := Program.check_weakening hcheck hlacks
    exact ⟨hlacks, typed, Δ', Δ, hcheck, hbase,
      (hsymbols "even" .function _).mpr (.inl rfl), hcurrent⟩
  · cases haccepted

end Unrelated

end PCode
