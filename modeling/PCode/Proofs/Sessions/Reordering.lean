import PCode.Proofs.Codegen.Success
import PCode.Proofs.Sessions.Composition

namespace PCode

namespace Context

/-- The context with another table of definitions. -/
def withDefinitions (Δ : Context) (table : Table Span) : Context :=
  { Δ with definitions := table }

variable {Δ : Context}

theorem withDefinitions_extends (table : Table Span) : Δ.Extends (Δ.withDefinitions table) :=
  ⟨id, id⟩

theorem withDefinitions_keeps (table : Table Span) (name : String) (span : Span) :
    (Δ.withDefinition name span).Extends ((Δ.withDefinitions table).withDefinition name span) :=
  ⟨id, id⟩

theorem isDefined_iff {name : String} : Δ.isDefined name = true ↔ name ∈ Δ.defined := by
  rw [isDefined, Table.contains, Option.isSome_iff_ne_none, ne_eq, Table.get?_eq_none_iff, not_not]
  rfl

theorem Definable.withDefinitions {name : String} {τ : Ty} (h : Δ.Definable name τ)
    {table : Table Span} (hname : name ∉ table.map Prod.fst) :
    (Δ.withDefinitions table).Definable name τ where
  declared := h.declared
  fresh := Bool.eq_false_iff.mpr (mt isDefined_iff.mp hname)
  ordinary := h.ordinary

end Context

namespace Stmt

mutual

/-- A declaration or a record stands in the statement, at any depth. -/
def declares : Stmt → Bool
  | .declare .. | .record .. => true
  | .defineBlock _ _ _ body _ | .loop _ body _ | .block body _ => declaresList body
  | .branch _ thenBody elseBody _ => declaresList thenBody || declaresList elseBody
  | .expr .. | .comment .. | .ret .. | .define .. | .bind .. => false

def declaresList : List Stmt → Bool
  | [] => false
  | s :: ss => s.declares || declaresList ss

end

mutual

/-- The functions that a statement defines, with their spans, the latest first. -/
def sites : Stmt → Table Span
  | .define name _ _ _ note => [(name, note.span)]
  | .defineBlock name _ _ body note => sitesList body ++ [(name, note.span)]
  | .loop _ body _ | .block body _ => sitesList body
  | .branch _ thenBody elseBody _ => sitesList elseBody ++ sitesList thenBody
  | .expr .. | .declare .. | .record .. | .comment .. | .ret .. | .bind .. => []

def sitesList : List Stmt → Table Span
  | [] => []
  | s :: ss => sitesList ss ++ s.sites

end

theorem sitesList_perm {ss ss' : List Stmt} (h : ss.Perm ss') :
    (sitesList ss).Perm (sitesList ss') := by
  induction h with
  | nil => exact .refl _
  | cons s _ ih => exact ih.append_right _
  | swap s s' ss =>
    simp only [sitesList, List.append_assoc]
    exact List.perm_append_comm.append_left _
  | trans _ _ ih ih' => exact ih.trans ih'

section Tables

open Context

mutual

theorem Typed.definitions_eq {s a : Stmt} {Δ Δ' : Context} {Γ Γ' : Locals} :
    Typed Δ Γ s a Δ' Γ' → s.declares = false → Δ' = Δ.withDefinitions (a.sites ++ Δ.definitions)
  | .expr _, _ | .comment, _ | .ret _ _, _ | .bind _, _ | .define .., _ => rfl
  | .defineBlock _ _ _ _ hbody, hs => by
    have hinner := hbody.definitions_eq hs
    rw [hinner, sites, List.append_assoc]
    rfl
  | .loop _ _ hbody, hs => hbody.definitions_eq hs
  | .branch _ _ ht he, hs => by
    rw [declares, Bool.or_eq_false_iff] at hs
    have hthen := ht.definitions_eq hs.1
    rw [he.definitions_eq hs.2, hthen, sites, List.append_assoc]
    rfl
  | .block hbody, hs => hbody.definitions_eq hs

theorem TypedList.definitions_eq {ss as : List Stmt} {Δ Δ' : Context} {Γ Γ' : Locals} :
    TypedList Δ Γ ss as Δ' Γ' → declaresList ss = false →
      Δ' = Δ.withDefinitions (sitesList as ++ Δ.definitions)
  | .nil, _ => rfl
  | .cons h hs, hss => by
    rw [declaresList, Bool.or_eq_false_iff] at hss
    have hfirst := h.definitions_eq hss.1
    rw [hs.definitions_eq hss.2, hfirst, sitesList, List.append_assoc]
    rfl

end

mutual

/-- A statement that declares nothing is typed in the same way with any other table of definitions
in which the names it defines are new. -/
theorem Typed.withDefinitions {s a : Stmt} {Δ Δ' : Context} {Γ Γ' : Locals} {table : Table Span} :
    Typed Δ Γ s a Δ' Γ' → s.declares = false → ((a.sites ++ table).map Prod.fst).Nodup →
      Typed (Δ.withDefinitions table) Γ s a (Δ.withDefinitions (a.sites ++ table)) Γ'
  | .expr h, _, _ => .expr (h.mono (withDefinitions_extends _))
  | .comment, _, _ => .comment
  | .ret hcurrent h, _, _ => .ret hcurrent (h.mono (withDefinitions_extends _))
  | .bind h, _, _ => .bind (h.mono (withDefinitions_extends _))
  | .define hdef hlength hparams hes h, _, hnodup =>
    .define (hdef.withDefinitions (List.nodup_cons.mp hnodup).1) hlength hparams
      (hes.mono (withDefinitions_keeps _ _ _)) (h.mono (withDefinitions_keeps _ _ _))
  | .defineBlock (n := n) hdef hlength hparams hes hbody, hs, hnodup => by
    rw [sites, List.append_assoc] at hnodup ⊢
    -- the body is typed with the function itself among the definitions
    have hname := (List.nodup_append.mp (List.map_append ▸ hnodup)).2.1
    exact .defineBlock (n := n) (hdef.withDefinitions (List.nodup_cons.mp hname).1) hlength hparams
      (hes.mono (withDefinitions_keeps _ _ _)) (hbody.withDefinitions hs hnodup)
  | .loop hc htest hbody, hs, hnodup =>
    .loop (hc.mono (withDefinitions_extends _)) htest (hbody.withDefinitions hs hnodup)
  | .branch hc htest ht he, hs, hnodup => by
    rw [declares, Bool.or_eq_false_iff] at hs
    rw [sites, List.append_assoc] at hnodup ⊢
    have hthen := (List.nodup_append.mp (List.map_append ▸ hnodup)).2.1
    have helse := he.withDefinitions hs.2 hnodup
    rw [ht.definitions_eq hs.1] at helse
    exact .branch (hc.mono (withDefinitions_extends _)) htest (ht.withDefinitions hs.1 hthen) helse
  | .block hbody, hs, hnodup => .block (hbody.withDefinitions hs hnodup)

theorem TypedList.withDefinitions {ss as : List Stmt} {Δ Δ' : Context} {Γ Γ' : Locals}
    {table : Table Span} : TypedList Δ Γ ss as Δ' Γ' → declaresList ss = false →
      ((sitesList as ++ table).map Prod.fst).Nodup →
      TypedList (Δ.withDefinitions table) Γ ss as (Δ.withDefinitions (sitesList as ++ table)) Γ'
  | .nil, _, _ => .nil
  | .cons h hs, hss, hnodup => by
    rw [declaresList, Bool.or_eq_false_iff] at hss
    rw [sitesList, List.append_assoc] at hnodup ⊢
    have hfirst := (List.nodup_append.mp (List.map_append ▸ hnodup)).2.1
    have hrest := hs.withDefinitions hss.2 hnodup
    rw [h.definitions_eq hss.1] at hrest
    exact .cons (h.withDefinitions hss.1 hfirst) hrest

end

end Tables

section Orders

variable {Δ Δ' : Context} {Γ Γ' : Locals}

theorem typedList_append_iff {ss ts rs : List Stmt} : TypedList Δ Γ (ss ++ ts) rs Δ' Γ' ↔
    ∃ ss' ts' Δ₁ Γ₁, rs = ss' ++ ts' ∧ TypedList Δ Γ ss ss' Δ₁ Γ₁ ∧
      TypedList Δ₁ Γ₁ ts ts' Δ' Γ' := by
  induction ss generalizing Δ Γ rs with
  | nil =>
    constructor
    · intro h
      exact ⟨[], rs, Δ, Γ, rfl, .nil, h⟩
    · rintro ⟨_, _, _, _, rfl, hss, hts⟩
      cases hss
      exact hts
  | cons s ss ih =>
    constructor
    · intro h
      cases h with
      | cons hs hrest =>
        obtain ⟨ss', ts', Δ₁, Γ₁, rfl, hss, hts⟩ := ih.mp hrest
        exact ⟨_, ts', Δ₁, Γ₁, rfl, .cons hs hss, hts⟩
    · rintro ⟨_, ts', Δ₁, Γ₁, rfl, hss, hts⟩
      cases hss with
      | cons hs hss => exact .cons hs (ih.mpr ⟨_, _, _, _, rfl, hss, hts⟩)

theorem TypedList.silent {ss as : List Stmt} (h : TypedList Δ Γ ss as Δ' Γ')
    (hss : ∀ s ∈ ss, s.isSilent = true) : Γ' = Γ ∧ Δ'.definitions = Δ.definitions := by
  induction ss generalizing Δ Γ as with
  | nil =>
    cases h
    exact ⟨rfl, rfl⟩
  | cons s ss ih =>
    rw [List.forall_mem_cons] at hss
    cases h with
    | cons hs hrest =>
      obtain ⟨hlocals, hdefinitions⟩ := ih hrest hss.2
      rw [hlocals, hdefinitions]
      cases hs with
      | declare | record | comment => exact ⟨rfl, rfl⟩
      | _ => cases hss.1

/-- A definition that declares nothing. -/
def IsPlainDefinition (s : Stmt) : Prop :=
  s.definition?.isSome = true ∧ s.declares = false

instance : DecidablePred IsPlainDefinition :=
  fun _ => inferInstanceAs (Decidable (_ ∧ _))

theorem IsPlainDefinition.not_binding {s : Stmt} (h : s.IsPlainDefinition) :
    s.isBinding = false := by
  cases s <;> first | rfl | cases h.1

theorem declaresList_eq_false {ss : List Stmt} (h : ∀ s ∈ ss, s.IsPlainDefinition) :
    declaresList ss = false := by
  induction ss with
  | nil => rfl
  | cons s ss ih =>
    rw [List.forall_mem_cons] at h
    rw [declaresList, h.1.2, ih h.2]
    rfl

/-- In a context where nothing is defined yet, each of these definitions is typed by itself as the
function says. -/
def EachTyped (Δ : Context) (annotate : Stmt → Stmt) (ss : List Stmt) : Prop :=
  ∀ s ∈ ss, ∃ Δ', Typed (Δ.withDefinitions []) [] s (annotate s) Δ' []

/-- A definition as it is annotated by itself. -/
def annotated (Δ : Context) (s : Stmt) : Stmt :=
  match s.check (Δ.withDefinitions []) [] with
  | .ok (a, _) => a
  | .error _ => s

theorem annotated_eq {s a : Stmt} (h : Typed (Δ.withDefinitions []) [] s a Δ' Γ') :
    annotated Δ s = a := by
  rw [annotated, (check_iff_typed _ _ s a _ ⟨Δ', Γ'⟩).mpr ⟨h, rfl⟩]

theorem TypedList.eachTyped {ss as : List Stmt} (h : TypedList Δ [] ss as Δ' Γ')
    (hss : ∀ s ∈ ss, s.IsPlainDefinition) (hnodup : (sitesList as).map Prod.fst |>.Nodup) :
    as = ss.map (Stmt.annotated Δ) ∧ EachTyped Δ (Stmt.annotated Δ) ss := by
  induction ss generalizing Δ as with
  | nil =>
    cases h
    exact ⟨rfl, List.forall_mem_nil _⟩
  | cons s ss ih =>
    rw [List.forall_mem_cons] at hss
    cases h with
    | @cons _ Δ₁ _ _ Γ₁ _ _ a _ as hs hrest =>
      rw [sitesList, List.map_append, List.nodup_append] at hnodup
      obtain rfl := hs.locals_eq hss.1.not_binding
      have hsites : ((a.sites ++ []).map Prod.fst).Nodup := by
        rw [List.append_nil]
        exact hnodup.2.1
      have hfirst := hs.withDefinitions hss.1.2 hsites
      obtain ⟨has, hall⟩ := ih hrest hss.2 hnodup.1
      -- only the definitions have changed, and those are left out
      rw [hs.definitions_eq hss.1.2] at has hall
      rw [List.map_cons, annotated_eq hfirst]
      refine ⟨congrArg _ has, List.forall_mem_cons.mpr ⟨?_, hall⟩⟩
      rw [annotated_eq hfirst]
      exact ⟨_, hfirst⟩

/-- Definitions that are typed each by itself, with different names, are typed in a row. -/
theorem EachTyped.typedList {annotate : Stmt → Stmt} {ss : List Stmt}
    (h : EachTyped Δ annotate ss) (hss : ∀ s ∈ ss, s.IsPlainDefinition) {table : Table Span}
    (hnodup : ((sitesList (ss.map annotate) ++ table).map Prod.fst).Nodup) :
    TypedList (Δ.withDefinitions table) [] ss (ss.map annotate)
      (Δ.withDefinitions (sitesList (ss.map annotate) ++ table)) [] := by
  induction ss generalizing table with
  | nil => exact .nil
  | cons s ss ih =>
    rw [EachTyped, List.forall_mem_cons] at h
    rw [List.forall_mem_cons] at hss
    rw [List.map_cons, sitesList, List.append_assoc] at hnodup ⊢
    obtain ⟨Δ₁, hs⟩ := h.1
    have hfirst := (List.nodup_append.mp (List.map_append ▸ hnodup)).2.1
    exact .cons (hs.withDefinitions hss.1.2 hfirst) (ih h.2 hss.2 hnodup)

end Orders

end Stmt

namespace Codegen

/-! Every call that is resolved stays so when more functions are in scope. -/

section Scope

variable {Δ : Context} {funs funs' : List String}

theorem append_subset_append {names : List String} (hfuns : funs ⊆ funs') :
    names ++ funs ⊆ names ++ funs' :=
  List.append_subset.mpr
    ⟨List.subset_append_left _ _, List.Subset.trans hfuns (List.subset_append_right _ _)⟩

theorem resolved_mono {o : Occurrence} (hfuns : o.funs ⊆ funs') (h : o.Resolved Δ) :
    Occurrence.Resolved Δ ⟨o.expr, o.vars, funs'⟩ := by
  obtain ⟨e, vars, funs⟩ := o
  cases e with
  | call f _ _ =>
    intro hvar
    exact (h hvar).imp_right fun hf => hfuns hf
  | _ => trivial

theorem allGood_cons_mono {e : Expr} {vars : List String} {os os' : List Occurrence}
    (hfuns : funs ⊆ funs') (hos : AllGood Δ os → AllGood Δ os') :
    AllGood Δ (⟨e, vars, funs⟩ :: os) → AllGood Δ (⟨e, vars, funs'⟩ :: os') := by
  rw [allGood_cons, allGood_cons]
  rintro ⟨⟨hsupported, hresolved⟩, hgood⟩
  exact ⟨⟨hsupported, resolved_mono hfuns hresolved⟩, hos hgood⟩

theorem allGood_append_mono {os os' ps ps' : List Occurrence}
    (hos : AllGood Δ os → AllGood Δ os') (hps : AllGood Δ ps → AllGood Δ ps') :
    AllGood Δ (os ++ ps) → AllGood Δ (os' ++ ps') := by
  rw [allGood_append, allGood_append]
  exact And.imp hos hps

mutual

theorem parts_mono (hfuns : funs ⊆ funs') : ∀ (e : Expr) (vars : List String),
    AllGood Δ (e.parts vars funs) → AllGood Δ (e.parts vars funs')
  | .integer .., _ | .real .., _ | .text .., _ | .boolean .., _ | .name .., _ => id
  | .unary _ e _, vars | .member e .., vars | .assign _ e _, vars =>
    allGood_cons_mono hfuns (parts_mono hfuns e vars)
  | .binary _ l r _, vars | .index l r _, vars =>
    allGood_append_mono (allGood_cons_mono hfuns (parts_mono hfuns l vars))
      (allGood_cons_mono hfuns (parts_mono hfuns r vars))
  | .cond c t e _, vars =>
    allGood_append_mono
      (allGood_append_mono (allGood_cons_mono hfuns (parts_mono hfuns c vars))
        (allGood_cons_mono hfuns (parts_mono hfuns t vars)))
      (allGood_cons_mono hfuns (parts_mono hfuns e vars))
  | .lambda params body _, vars => allGood_cons_mono hfuns (parts_mono hfuns body (params ++ vars))
  | .call _ es _, vars | .array es _, vars => partsList_mono hfuns es vars

theorem partsList_mono (hfuns : funs ⊆ funs') : ∀ (es : List Expr) (vars : List String),
    AllGood Δ (Expr.partsList vars funs es) → AllGood Δ (Expr.partsList vars funs' es)
  | [], _ => id
  | e :: es, vars =>
    allGood_append_mono (allGood_cons_mono hfuns (parts_mono hfuns e vars))
      (partsList_mono hfuns es vars)

end

theorem occurrences_mono (hfuns : funs ⊆ funs') (e : Expr) (vars : List String) :
    AllGood Δ (e.occurrences vars funs) → AllGood Δ (e.occurrences vars funs') :=
  allGood_cons_mono hfuns (parts_mono hfuns e vars)

theorem bindingOccurrences_mono (hfuns : funs ⊆ funs') (es : List (String × Expr))
    (vars : List String) :
    AllGood Δ (bindingOccurrences vars funs es) → AllGood Δ (bindingOccurrences vars funs' es) := by
  induction es generalizing vars with
  | nil => exact id
  | cons binding es ih => exact allGood_append_mono (occurrences_mono hfuns _ _) (ih _)

mutual

theorem stmt_occurrences_mono {funs funs' : List String} (hfuns : funs ⊆ funs') :
    ∀ (s : Stmt) (vars : List String),
      AllGood Δ (s.occurrences vars funs) → AllGood Δ (s.occurrences vars funs')
  | .expr e _, vars | .ret e _, vars | .bind _ e _, vars => occurrences_mono hfuns e vars
  | .declare .., _ | .record .., _ | .comment .., _ => id
  | .define _ _ locals e _, _ =>
    allGood_append_mono (bindingOccurrences_mono hfuns locals _) (occurrences_mono hfuns e _)
  | .defineBlock _ _ locals body _, _ =>
    allGood_append_mono (bindingOccurrences_mono hfuns locals _)
      (occurrencesList_mono (append_subset_append hfuns) body _)
  | .block body _, _ => occurrencesList_mono (append_subset_append hfuns) body _
  | .loop c body _, vars =>
    allGood_append_mono (occurrences_mono hfuns c vars)
      (occurrencesList_mono (append_subset_append hfuns) body _)
  | .branch c t e _, vars =>
    allGood_append_mono
      (allGood_append_mono (occurrences_mono hfuns c vars)
        (occurrencesList_mono (append_subset_append hfuns) t _))
      (occurrencesList_mono (append_subset_append hfuns) e _)

theorem occurrencesList_mono {funs funs' : List String} (hfuns : funs ⊆ funs') :
    ∀ (ss : List Stmt) (vars : List String), AllGood Δ (Stmt.occurrencesList vars funs ss) →
      AllGood Δ (Stmt.occurrencesList vars funs' ss)
  | [], _ => id
  | s :: ss, vars =>
    allGood_append_mono (stmt_occurrences_mono hfuns s vars) (occurrencesList_mono hfuns ss _)

end

end Scope

end Codegen

namespace Program

open Codegen

variable {front defs defs' : List Stmt} {typed : Program} {Δ : Context}

theorem Typed.reorder (hfront : ∀ s ∈ front, s.isSilent = true)
    (hdefs : ∀ s ∈ defs, s.IsPlainDefinition) (hperm : defs.Perm defs')
    (h : Program.Typed .empty (front ++ defs) typed Δ) :
    ∃ front' annotate Δ', typed = front' ++ defs.map annotate ∧
      Program.Typed .empty (front ++ defs') (front' ++ defs'.map annotate) Δ' ∧
      Δ'.symbols = Δ.symbols ∧ Δ'.definitions.Perm Δ.definitions := by
  obtain ⟨Γ, h⟩ := h
  have hnodup : Δ.defined.Nodup := h.growth.nodup .nil
  obtain ⟨front', as, Δ₀, Γ₀, rfl, hfirst, hrest⟩ := Stmt.typedList_append_iff.mp h
  obtain ⟨rfl, hnone⟩ := hfirst.silent hfront
  have hΔ₀ : Δ₀ = Δ₀.withDefinitions [] := congrArg Δ₀.withDefinitions hnone
  have hΔ := hrest.definitions_eq (Stmt.declaresList_eq_false hdefs)
  rw [hnone, show Context.empty.definitions = [] from rfl, List.append_nil] at hΔ
  rw [hΔ] at hnodup
  obtain ⟨rfl, heach⟩ := hrest.eachTyped hdefs hnodup
  have hsites := Stmt.sitesList_perm (hperm.map (Stmt.annotated Δ₀))
  have hother : Stmt.EachTyped Δ₀ (Stmt.annotated Δ₀) defs' :=
    fun s hs => heach s (hperm.mem_iff.mpr hs)
  have hnodup' : ((Stmt.sitesList (defs'.map (Stmt.annotated Δ₀)) ++ []).map Prod.fst).Nodup := by
    rw [List.append_nil]
    exact (hsites.map Prod.fst).nodup_iff.mp hnodup
  have htyped := hother.typedList (fun s hs => hdefs s (hperm.mem_iff.mpr hs)) hnodup'
  rw [← hΔ₀, List.append_nil] at htyped
  refine ⟨front', Stmt.annotated Δ₀, _, rfl,
    ⟨[], Stmt.typedList_append_iff.mpr ⟨_, _, _, _, rfl, hfirst, htyped⟩⟩, ?_, ?_⟩
  · rw [hΔ]
    rfl
  · rw [hΔ]
    exact hsites.symm

theorem Compilable.perm {program program' : Program} {Δ' : Context} (h : program.Compilable Δ)
    (hperm : program.Perm program') (hsymbols : Δ'.symbols = Δ.symbols) :
    program'.Compilable Δ' := by
  have hdefined : Stmt.definedIn program ⊆ Stmt.definedIn program' :=
    (hperm.filterMap _).subset
  have hgood : AllGood Δ program'.occurrences := by
    intro o ho
    obtain ⟨s, hs, ho⟩ := List.mem_flatMap.mp ho
    refine stmt_occurrences_mono hdefined s [] (fun o ho => ?_) o ho
    have hmem : o ∈ program.occurrences :=
      List.mem_flatMap.mpr ⟨s, (hperm.filter _).mem_iff.mpr hs, ho⟩
    exact ⟨h.supported o hmem, h.resolved o hmem⟩
  refine ⟨fun s hs => h.top s (hperm.mem_iff.mpr hs), fun o ho => (hgood o ho).1, fun o ho => ?_,
    hdefined h.main, ?_⟩
  · -- a call is resolved by the records, which are the same
    have hresolved := (hgood o ho).2
    unfold Occurrence.Resolved Context.isConstructor Context.record? at hresolved ⊢
    rwa [hsymbols]
  · obtain ⟨variadic, ret, hmain⟩ := h.parameters
    refine ⟨variadic, ret, ?_⟩
    rw [Context.function?] at hmain ⊢
    rwa [hsymbols]

theorem Typed.compiles_iff {program : Program} (h : program.Typed .empty typed Δ) :
    (∃ image, typed.compile Δ = .ok image) ↔ typed.Compilable Δ := by
  have hverdict := h.listing_verdict
  unfold Program.compile
  cases hlisting : typed.listing Δ with
  | ok listing =>
    rw [hlisting] at hverdict
    exact iff_of_true ⟨_, rfl⟩ hverdict
  | error error =>
    rw [hlisting] at hverdict
    refine iff_of_false ?_ hverdict.1
    rintro ⟨image, himage⟩
    cases himage

/-- Behind declarations, records and comments, definitions that declare nothing are accepted in
every order or in none. All orders have the same symbols, the same functions defined and the same
annotations on each definition, and there is code for all of them or for none. -/
theorem check_perm (hfront : ∀ s ∈ front, s.isSilent = true)
    (hdefs : ∀ s ∈ defs, s.IsPlainDefinition) (hperm : defs.Perm defs') :
    ((∃ answer, Program.check .empty (front ++ defs) = .ok answer) ↔
      ∃ answer, Program.check .empty (front ++ defs') = .ok answer) ∧
    ∀ typed Δ typed' Δ', Program.check .empty (front ++ defs) = .ok (typed, Δ) →
      Program.check .empty (front ++ defs') = .ok (typed', Δ') →
      Δ'.symbols = Δ.symbols ∧ (∀ name, Δ'.isDefined name = Δ.isDefined name) ∧
      (∃ front' annotate,
        typed = front' ++ defs.map annotate ∧ typed' = front' ++ defs'.map annotate) ∧
      ((∃ image, typed.compile Δ = .ok image) ↔ ∃ image, typed'.compile Δ' = .ok image) := by
  have hdefs' : ∀ s ∈ defs', s.IsPlainDefinition := fun s hs => hdefs s (hperm.mem_iff.mpr hs)
  refine ⟨⟨?_, ?_⟩, ?_⟩
  · rintro ⟨⟨typed, Δ⟩, h⟩
    obtain ⟨front', annotate, Δ', -, hother, -, -⟩ :=
      Typed.reorder hfront hdefs hperm (Program.check_eq_ok_iff.mp h)
    exact ⟨_, Program.check_eq_ok_iff.mpr hother⟩
  · rintro ⟨⟨typed, Δ⟩, h⟩
    obtain ⟨front', annotate, Δ', -, hother, -, -⟩ :=
      Typed.reorder hfront hdefs' hperm.symm (Program.check_eq_ok_iff.mp h)
    exact ⟨_, Program.check_eq_ok_iff.mpr hother⟩
  · intro typed Δ typed' Δ' h h'
    have htyped := Program.check_eq_ok_iff.mp h
    have htyped' := Program.check_eq_ok_iff.mp h'
    obtain ⟨front', annotate, Δ₁, rfl, hother, hsymbols, hdefinitions⟩ :=
      Typed.reorder hfront hdefs hperm htyped
    -- a check has one answer, so this is the one for the other order
    obtain ⟨rfl, rfl⟩ : typed' = front' ++ defs'.map annotate ∧ Δ' = Δ₁ := by
      simpa using h'.symm.trans (Program.check_eq_ok_iff.mpr hother)
    have hprograms := (hperm.map annotate).append_left front'
    refine ⟨hsymbols, fun name => ?_, ⟨front', annotate, rfl, rfl⟩, ?_⟩
    · rw [Bool.eq_iff_iff, Context.isDefined_iff, Context.isDefined_iff]
      exact (hdefinitions.map Prod.fst).mem_iff
    · rw [htyped.compiles_iff, htyped'.compiles_iff]
      exact ⟨fun hgood => hgood.perm hprograms hsymbols,
        fun hgood => hgood.perm hprograms.symm hsymbols.symm⟩

end Program

/-- Declarations of functions that need each other. -/
def parityHeads : Program :=
  let note : Note := ⟨⟨0, 0⟩, .unknown⟩
  [.comment "odd and even" note, .declare "even" (.function [.i64] false .bool) note,
    .declare "odd" (.function [.i64] false .bool) note,
    .declare "less" (.function [] false .i64) note, .declare "main" (.function [] false .bool) note]

/-- Definitions of the functions, one of them inside another. -/
def parityBodies : Program :=
  let note : Note := ⟨⟨0, 0⟩, .unknown⟩
  let zero := Expr.binary .eq (.name "n" note) (.integer 0 note) note
  [.defineBlock "even" ["n"] []
      [.define "less" [] [] (.binary .sub (.name "n" note) (.integer 1 note) note) note,
        .branch zero [.ret (.boolean true note) note] [] note,
        .ret (.call "odd" [.call "less" [] note] note) note] note,
    .define "odd" ["n"] [] (.unary .not (.call "even" [.name "n" note] note) note) note,
    .define "main" [] [] (.call "even" [.integer 7 note] note) note]

theorem parity_compiles : (match Program.check .empty (parityHeads ++ parityBodies) with
    | .ok (typed, Δ) => (typed.compile Δ).isOk
    | .error _ => false) = true := by
  decide +kernel

theorem check_perm_parity : (∀ s ∈ parityHeads, s.isSilent = true) ∧
    (∀ s ∈ parityBodies, s.IsPlainDefinition) ∧ parityBodies.Perm parityBodies.reverse ∧
    ∃ typed Δ, Program.check .empty (parityHeads ++ parityBodies.reverse) = .ok (typed, Δ) ∧
      ∃ image, typed.compile Δ = .ok image := by
  have hheads : ∀ s ∈ parityHeads, s.isSilent = true := by decide
  have hbodies : ∀ s ∈ parityBodies, s.IsPlainDefinition := by decide
  have hperm := (List.reverse_perm parityBodies).symm
  obtain ⟨haccepted, hsame⟩ := Program.check_perm hheads hbodies hperm
  refine ⟨hheads, hbodies, hperm, ?_⟩
  have hcompiles := parity_compiles
  split at hcompiles
  · rename_i typed Δ hcheck
    obtain ⟨⟨typed', Δ'⟩, hcheck'⟩ := haccepted.mp ⟨_, hcheck⟩
    refine ⟨typed', Δ', hcheck', (hsame _ _ _ _ hcheck hcheck').2.2.2.mp ?_⟩
    cases hcompile : typed.compile Δ with
    | ok image => exact ⟨image, rfl⟩
    | error error =>
      rw [hcompile] at hcompiles
      cases hcompiles
  · cases hcompiles

end PCode
