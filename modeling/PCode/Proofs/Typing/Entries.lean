import Mathlib.Logic.Relation
import PCode.Proofs.Typing.Faults
import PCode.Proofs.Typing.Tables

namespace PCode

namespace Context

/-- The context with the type of a further record, but not with the function that builds it. -/
def withType (Δ : Context) (name : String) (members : List (String × Ty)) : Context :=
  { Δ with symbols :=
      { Δ.symbols with types := Δ.symbols.types.insert name (.record name members) } }

/-- One further entry, for a name that has none. -/
inductive Enters : Context → Context → Prop where
  | function {Δ name τ} : Δ.function? name = none → Enters Δ (Δ.withFunction name τ)
  | record {Δ name members} : Δ.record? name = none → Δ.function? name = none →
      Enters Δ (Δ.withRecord name members)
  | definition {Δ name τ} (span : Span) : Δ.Definable name τ →
      Enters Δ (Δ.withDefinition name span)

/-- Any number of further entries. -/
abbrev Fills : Context → Context → Prop :=
  Relation.ReflTransGen Enters

/-- What a check that stops with an error leaves behind its last entry: nothing more, or the type of
a record that is refused because a function has its name. -/
inductive Leaves (error : TypeError) : Context → Context → Prop where
  | nothing {Δ} : Leaves error Δ Δ
  | type {Δ name members τ} : error.fault = .alreadyDeclared name → Δ.record? name = none →
      Δ.function? name = some τ → Leaves error Δ (Δ.withType name members)

variable {Δ Δ₁ Δ₂ : Context} {name : String} {error : TypeError}

theorem Enters.returning (h : Enters Δ Δ₁) (ret : Option Ty) :
    Enters (Δ.returning ret) (Δ₁.returning ret) := by
  cases h with
  | function hnew => exact .function hnew
  | record hr hf => exact .record hr hf
  | definition span hdef => exact .definition span ⟨hdef.declared, hdef.fresh, hdef.ordinary⟩

theorem Fills.returning (h : Δ.Fills Δ₁) (ret : Option Ty) :
    (Δ.returning ret).Fills (Δ₁.returning ret) :=
  h.lift (Context.returning · ret) fun _ _ henters => henters.returning ret

theorem Leaves.returning (h : Leaves error Δ Δ₁) (ret : Option Ty) :
    Leaves error (Δ.returning ret) (Δ₁.returning ret) := by
  cases h with
  | nothing => exact .nothing
  | type herror hr hf => exact .type herror hr hf

/-- Everything that is entered in the first context is in the second, and the same function is
checked in both. -/
structure Keeps (Δ Δ' : Context) : Prop where
  symbols : ∀ name kind τ, Δ.symbols.get? name kind = some τ → Δ'.symbols.get? name kind = some τ
  definitions : ∀ name span, Δ.definitions.get? name = some span →
    Δ'.definitions.get? name = some span
  current : Δ'.current = Δ.current

theorem Keeps.refl (Δ : Context) : Δ.Keeps Δ :=
  ⟨fun _ _ _ => id, fun _ _ => id, rfl⟩

theorem Keeps.trans (h : Δ.Keeps Δ₁) (h' : Δ₁.Keeps Δ₂) : Δ.Keeps Δ₂ where
  symbols name kind τ hτ := h'.symbols name kind τ (h.symbols name kind τ hτ)
  definitions name span hspan := h'.definitions name span (h.definitions name span hspan)
  current := h'.current.trans h.current

theorem Extends.symbols (h : Δ.Extends Δ₁) (name : String) (kind : SymbolKind) (τ : Ty)
    (hτ : Δ.symbols.get? name kind = some τ) : Δ₁.symbols.get? name kind = some τ := by
  cases kind with
  | function => exact h.functions hτ
  | type => exact h.records hτ

theorem withType_extends {members : List (String × Ty)} (hr : Δ.record? name = none) :
    Δ.Extends (Δ.withType name members) := by
  refine ⟨id, fun {other τ} h => ?_⟩
  have hne : name ≠ other := by
    rintro rfl
    rw [hr] at h
    cases h
  simpa [withType, record?, Symbols.get?, Symbols.ofKind, hne] using h

theorem Enters.keeps (h : Enters Δ Δ₁) : Δ.Keeps Δ₁ := by
  cases h with
  | function hnew => exact ⟨(withFunction_extends hnew).symbols, fun _ _ => id, rfl⟩
  | record hr hf => exact ⟨(withRecord_extends hr hf).symbols, fun _ _ => id, rfl⟩
  | @definition name τ span hdef =>
    refine ⟨fun _ _ _ => id, fun other place h => ?_, rfl⟩
    -- the name is defined only now, so the entry is for another one
    have hne : name ≠ other := by
      rintro rfl
      have hfresh := hdef.fresh
      rw [isDefined, Table.contains, h] at hfresh
      cases hfresh
    simpa [withDefinition, hne] using h

theorem Fills.keeps (h : Δ.Fills Δ₁) : Δ.Keeps Δ₁ := by
  induction h with
  | refl => exact .refl Δ
  | tail _ henters ih => exact ih.trans henters.keeps

theorem Leaves.keeps (h : Leaves error Δ Δ₁) : Δ.Keeps Δ₁ := by
  cases h with
  | nothing => exact .refl Δ
  | type _ hr _ => exact ⟨(withType_extends hr).symbols, fun _ _ => id, rfl⟩

end Context

open Context

/-- What a check does to the context, up to an answer or to the place where it stops. -/
def Filled {τ α : Type} (Δ : Context) (behind : α → Context) : Except (Stopped τ) α → Prop
  | .ok a => Δ.Fills (behind a)
  | .error stopped => ∃ Δ₁, Δ.Fills Δ₁ ∧ Leaves stopped.error Δ₁ stopped.context

/-- If a check stops, then with an error at one of these spans. -/
def FaultIn {τ α : Type} (spans : List Span) : Except (Stopped τ) α → Prop
  | .ok _ => True
  | .error stopped => stopped.error.span ∈ spans

/-- How a check goes on from a context in a tree with these spans. -/
structure Proceeds {τ α : Type} (spans : List Span) (Δ : Context) (behind : α → Context)
    (x : Except (Stopped τ) α) : Prop where
  faultIn : FaultIn spans x
  filled : Filled Δ behind x

namespace Proceeds

variable {τ υ α β : Type} {spans spans' : List Span} {span : Span} {Δ : Context}
  {behind : α → Context} {behind' : β → Context}

theorem stop {tree : τ} {error : TypeError} (h : error.span ∈ spans) :
    Proceeds spans Δ behind (Expr.stop Δ tree error) :=
  ⟨h, Δ, .refl, .nothing⟩

theorem done {a : α} (h : behind a = Δ) : @Proceeds τ _ spans Δ behind (.ok a) := by
  refine ⟨trivial, ?_⟩
  show Δ.Fills (behind a)
  rw [h]

theorem part {f : τ → υ} {x : Except (Stopped τ) α} (h : Proceeds spans Δ behind x)
    (hsub : spans ⊆ spans') : Proceeds spans' Δ behind (inside f x) := by
  cases x with
  | ok a => exact ⟨trivial, h.filled⟩
  | error stopped => exact ⟨hsub h.faultIn, h.filled⟩

theorem leaving {f : τ → υ} {x : Except (Stopped τ) α} (h : Proceeds spans Δ behind x)
    (ret : Option Ty) (hsub : spans ⊆ spans') :
    Proceeds spans' (Δ.returning ret) (fun a => (behind a).returning ret)
      (PCode.leaving ret f x) := by
  cases x with
  | ok a => exact ⟨trivial, Fills.returning h.filled ret⟩
  | error stopped =>
    obtain ⟨Δ₁, hfills, hleaves⟩ := h.filled
    exact ⟨hsub h.faultIn, Δ₁.returning ret, hfills.returning ret, hleaves.returning ret⟩

theorem demand {tree : τ} {x : Except TypeError α} (h : FaultAt span x) (hspan : span ∈ spans) :
    Proceeds spans Δ (fun _ => Δ) (Expr.require Δ tree x) := by
  cases x with
  | ok a => exact done rfl
  | error error => exact stop (by rwa [h error rfl])

theorem settle {e : Expr} {x : Except TypeError Ty} (h : FaultAt span x) (hspan : span ∈ spans) :
    Proceeds spans Δ (fun _ => Δ) (Expr.settle Δ e x) := by
  cases x with
  | ok σ => exact done rfl
  | error error => exact stop (by rwa [h error rfl])

theorem after {Δ₁ : Context} {x : Except (Stopped τ) α} (hfills : Δ.Fills Δ₁)
    (h : Proceeds spans Δ₁ behind x) : Proceeds spans Δ behind x := by
  refine ⟨h.faultIn, ?_⟩
  cases x with
  | ok a => exact hfills.trans h.filled
  | error stopped =>
    obtain ⟨Δ₂, hmore, hleaves⟩ := h.filled
    exact ⟨Δ₂, hfills.trans hmore, hleaves⟩

theorem bind {x : Except (Stopped τ) α} {f : α → Except (Stopped τ) β}
    (h : Proceeds spans Δ behind x)
    (hf : ∀ a, x = .ok a → Proceeds spans (behind a) behind' (f a)) :
    Proceeds spans Δ behind' (x >>= f) := by
  cases x with
  | error stopped => exact ⟨h.faultIn, h.filled⟩
  | ok a => exact after h.filled (hf a rfl)

end Proceeds

namespace Expr

theorem span_of_check {Δ : Context} {Γ : Locals} {e a : Expr} {τ : Ty}
    (h : e.check Δ Γ = .ok (a, τ)) : a.span = e.span :=
  ((check_eq_ok_iff Δ Γ e a τ).mp h).1.span_eq

theorem span_of_inside {υ : Type} {f : Expr → υ} {Δ : Context} {Γ : Locals} {e a : Expr} {τ : Ty}
    (h : inside f (e.check Δ Γ) = .ok (a, τ)) : a.span = e.span :=
  span_of_check (inside_eq_ok.mp h)

mutual

/-- Checking an expression leaves the context as it is, and it is wrong in one of its nodes. -/
theorem check_proceeds (Δ : Context) : ∀ (e : Expr) (Γ : Locals),
    Proceeds e.spans Δ (fun _ => Δ) (e.check Δ Γ)
  | .integer .., _ | .real .., _ | .text .., _ | .boolean .., _ => by
    rw [check]
    exact .done rfl
  | .name x n, Γ => by
    rw [check]
    cases Γ.get? x with
    | some τ => exact .done rfl
    | none => exact .stop List.mem_cons_self
  | .unary _ e _, Γ => by
    rw [check]
    refine .bind (.part (check_proceeds Δ e Γ) (by simp)) fun ⟨a, τ⟩ ha => ?_
    exact .settle checkUnary_faultAt (by simp [span_of_inside ha])
  | .binary _ l r _, Γ => by
    rw [check]
    refine .bind (.part (check_proceeds Δ l Γ) (by simp)) fun _ _ => ?_
    refine .bind (.part (check_proceeds Δ r Γ) (by simp)) fun _ _ => ?_
    exact .settle checkBinary_faultAt List.mem_cons_self
  | .member e _ _ _, Γ => by
    rw [check]
    refine .bind (.part (check_proceeds Δ e Γ) (by simp)) fun ⟨a, τ⟩ ha => ?_
    dsimp only
    split
    · rename_i error herror
      apply Proceeds.stop
      rcases checkMember_fault herror with hspan | hspan
      · simp [hspan, span_of_inside ha]
      · simp [hspan]
    · exact .done rfl
  | .assign t e _, Γ => by
    rw [check]
    refine .bind (.demand checkTarget_faultAt (by simp)) fun _ _ => ?_
    refine .bind (.part (check_proceeds Δ t Γ) (by simp)) fun _ _ => ?_
    refine .bind (.part (check_proceeds Δ e Γ) (by simp)) fun ⟨a, τ⟩ ha => ?_
    exact .bind (.demand expect_faultAt (by simp [span_of_inside ha])) fun _ _ => .done rfl
  | .cond c t e _, Γ => by
    rw [check]
    refine .bind (.part (check_proceeds Δ c Γ) (by simp)) fun ⟨a, τ⟩ ha => ?_
    refine .bind (.demand expect_faultAt (by simp [span_of_inside ha])) fun _ _ => ?_
    refine .bind (.part (check_proceeds Δ t Γ) (by simp)) fun _ _ => ?_
    refine .bind (.part (check_proceeds Δ e Γ) (by simp)) fun ⟨b, σ⟩ hb => ?_
    exact .bind (.demand expect_faultAt (by simp [span_of_inside hb])) fun _ _ => .done rfl
  | .lambda .., _ => by
    rw [check]
    exact .stop List.mem_cons_self
  | .call _ args _, Γ => by
    rw [check]
    refine .bind (.demand checkCallee_faultAt List.mem_cons_self) fun _ _ => ?_
    exact .bind (.part (checkArgs_proceeds Δ args Γ _ _ _) (by simp)) fun _ _ => .done rfl
  | .array [] _, _ => by
    rw [check]
    exact .stop List.mem_cons_self
  | .array (e :: es) _, Γ => by
    rw [check]
    refine .bind (.part (check_proceeds Δ e Γ) (by simp)) fun _ _ => ?_
    exact .bind (.part (checkItems_proceeds Δ es Γ _) (by simp)) fun _ _ => .done rfl
  | .index e i _, Γ => by
    rw [check]
    refine .bind (.part (check_proceeds Δ e Γ) (by simp)) fun ⟨a, τ⟩ ha => ?_
    dsimp only
    split
    · refine .bind (.part (check_proceeds Δ i Γ) (by simp)) fun ⟨b, σ⟩ hb => ?_
      exact .bind (.demand expect_faultAt (by simp [span_of_inside hb])) fun _ _ => .done rfl
    · exact .stop (by simp [span_of_inside ha])

theorem checkArgs_proceeds (Δ : Context) : ∀ (es : List Expr) (Γ : Locals) (f : String)
    (number : Nat) (params : List Ty),
    Proceeds (spansList es) Δ (fun _ => Δ) (checkArgs Δ Γ f number params es)
  | [], _, _, _, _ => by
    rw [checkArgs]
    exact .done rfl
  | e :: es, Γ, f, number, params => by
    have hes := checkArgs_proceeds Δ es Γ f (number + 1) params.tail
    -- only a lambda needs the parameter type to be checked
    have hvalue : (∀ names body n, e ≠ .lambda names body n) →
        Proceeds e.spans Δ (fun _ => Δ) (e.check Δ Γ) →
        Proceeds (spansList (e :: es)) Δ (fun _ => Δ)
          (checkArgs Δ Γ f number params (e :: es)) := by
      intro hne he
      rw [checkArgs.eq_3 _ _ _ _ _ _ _ hne]
      refine .bind (.part he (by simp)) fun ⟨a, τ⟩ ha => ?_
      cases params with
      | nil => exact .bind (.part hes (by simp)) fun _ _ => .done rfl
      | cons τ τs =>
        refine .bind (.demand expect_faultAt (by simp [span_of_inside ha])) fun _ _ => ?_
        exact .bind (.part hes (by simp)) fun _ _ => .done rfl
    cases e with
    | lambda names body n =>
      rw [checkArgs]
      split
      · refine .bind (.demand checkLambda_faultAt (by simp)) fun _ _ => ?_
        refine .bind (.part (check_proceeds Δ body _) (by simp)) fun ⟨a, τ⟩ ha => ?_
        refine .bind (.demand expect_faultAt (by simp [span_of_inside ha])) fun _ _ => ?_
        exact .bind (.part hes (by simp)) fun _ _ => .done rfl
      · exact .stop (by simp)
    | _ => exact hvalue (by simp) (check_proceeds Δ _ Γ)

theorem checkItems_proceeds (Δ : Context) : ∀ (es : List Expr) (Γ : Locals) (τ : Ty),
    Proceeds (spansList es) Δ (fun _ => Δ) (checkItems Δ Γ τ es)
  | [], _, _ => by
    rw [checkItems]
    exact .done rfl
  | e :: es, Γ, τ => by
    rw [checkItems]
    refine .bind (.part (check_proceeds Δ e Γ) (by simp)) fun ⟨a, τ⟩ ha => ?_
    refine .bind (.demand expect_faultAt (by simp [span_of_inside ha])) fun _ _ => ?_
    exact .bind (.part (checkItems_proceeds Δ es Γ _) (by simp)) fun _ _ => .done rfl

end

end Expr

theorem checkBindings_proceeds (Δ : Context) : ∀ (bs : List (String × Expr)) (Γ : Locals),
    Proceeds (bindingSpans bs) Δ (fun _ => Δ) (checkBindings Δ Γ bs)
  | [], _ => by
    rw [checkBindings]
    exact .done rfl
  | (x, e) :: bs, Γ => by
    rw [checkBindings]
    refine .bind (.part (e.check_proceeds Δ Γ) (by simp)) fun _ _ => ?_
    exact .bind (.part (checkBindings_proceeds Δ bs _) (by simp)) fun _ _ => .done rfl

/-- A record that is refused has entered nothing, or only its type. -/
theorem registerRecord_leaves {Δ : Context} {name : String} {members : List (String × Ty)}
    {symbols : Symbols} {error : TypeError} (herror : error.fault = .alreadyDeclared name)
    (h : registerRecord Δ.symbols name members = .error symbols) :
    Leaves error Δ { Δ with symbols } := by
  unfold registerRecord at h
  split at h
  · cases h
    exact .nothing
  · rename_i symbols₁ htype
    split at h
    · rename_i hfunction
      cases h
      obtain ⟨hr, rfl⟩ := register?_eq_some_iff.mp htype
      obtain ⟨σ, hf⟩ : ∃ σ, Δ.function? name = some σ := by
        refine Option.ne_none_iff_exists'.mp fun hf => ?_
        cases hfunction.symm.trans (register?_eq_some_iff.mpr ⟨hf, rfl⟩)
      exact .type herror hr hf
    · cases h

theorem checkHeader_fills {Δ : Context} {name : String} {params bound : List String} {span : Span}
    {τs : List Ty} {ret τ : Ty} (h : checkHeader Δ name params bound span = .ok (τs, ret, τ)) :
    Δ.Fills (Δ.withDefinition name span) := by
  obtain ⟨variadic, -, hdef, -, -⟩ := checkHeader_eq_ok_iff.mp h
  exact .single (.definition span hdef)

namespace Stmt

mutual

/-- A statement is wrong in one of its nodes, the expressions in it included. -/
theorem check_proceeds : ∀ (s : Stmt) (Δ : Context) (Γ : Locals),
    Proceeds s.spans Δ (fun answer => answer.2.2.context) (s.check Δ Γ)
  | .expr e _, Δ, Γ => by
    rw [check]
    exact .bind (.part (e.check_proceeds Δ Γ) (by simp)) fun _ _ => .done rfl
  | .declare name w n, Δ, Γ => by
    rw [check]
    split
    · exact .stop List.mem_cons_self
    · split
      · exact .stop List.mem_cons_self
      · rename_i symbols hsymbols
        obtain ⟨hnew, rfl⟩ := register?_eq_some_iff.mp hsymbols
        exact ⟨trivial, .single (.function hnew)⟩
  | .record name ws n, Δ, Γ => by
    rw [check]
    split
    · exact .stop List.mem_cons_self
    · split
      · exact .stop List.mem_cons_self
      · split
        · rename_i symbols hsymbols
          exact ⟨List.mem_cons_self, Δ, .refl, registerRecord_leaves rfl hsymbols⟩
        · rename_i symbols hsymbols
          obtain ⟨hr, hf, rfl⟩ := registerRecord_eq_ok_iff.mp hsymbols
          exact ⟨trivial, .single (.record hr hf)⟩
  | .comment .., Δ, Γ => by
    rw [check]
    exact .done rfl
  | .ret e _, Δ, Γ => by
    rw [check]
    split
    · exact .stop List.mem_cons_self
    · refine .bind (.part (e.check_proceeds Δ Γ) (by simp)) fun ⟨a, τ⟩ ha => ?_
      exact .bind (.demand expect_faultAt (by simp [Expr.span_of_inside ha])) fun _ _ => .done rfl
  | .define name params bs e n, Δ, Γ => by
    rw [check]
    refine .bind (.demand checkHeader_faultAt List.mem_cons_self) fun ⟨τs, result, τ⟩ hheader => ?_
    refine .after (checkHeader_fills (require_eq_ok.mp hheader)) ?_
    -- what is checked as part of the function counts outside of it, where `current` is as before
    let inner := (Δ.withDefinition name n.span).returning (some result)
    refine .bind (.leaving (checkBindings_proceeds inner bs _) Δ.current (by simp)) fun _ _ => ?_
    refine .bind (.leaving (e.check_proceeds inner _) Δ.current (by simp)) fun ⟨a, σ⟩ ha => ?_
    dsimp only
    split
    · exact .done rfl
    · exact .stop (by simp [Expr.span_of_check (leaving_eq_ok.mp ha)])
  | .defineBlock name params bs body n, Δ, Γ => by
    rw [check]
    refine .bind (.demand checkHeader_faultAt List.mem_cons_self) fun ⟨τs, result, τ⟩ hheader => ?_
    refine .after (checkHeader_fills (require_eq_ok.mp hheader)) ?_
    let inner := (Δ.withDefinition name n.span).returning (some result)
    refine .bind (.leaving (checkBindings_proceeds inner bs _) Δ.current (by simp)) fun _ _ => ?_
    exact .bind (.leaving (checkList_proceeds body inner _) Δ.current (by simp)) fun _ _ =>
      .done rfl
  | .loop c body _, Δ, Γ => by
    rw [check]
    refine .bind (.part (c.check_proceeds Δ Γ) (by simp)) fun ⟨a, τ⟩ ha => ?_
    refine .bind (.demand expect_faultAt (by simp [Expr.span_of_inside ha])) fun _ _ => ?_
    exact .bind (.part (checkList_proceeds body Δ Γ) (by simp)) fun _ _ => .done rfl
  | .branch c t f _, Δ, Γ => by
    rw [check]
    refine .bind (.part (c.check_proceeds Δ Γ) (by simp)) fun ⟨a, τ⟩ ha => ?_
    refine .bind (.demand expect_faultAt (by simp [Expr.span_of_inside ha])) fun _ _ => ?_
    refine .bind (.part (checkList_proceeds t Δ Γ) (by simp)) fun _ _ => ?_
    exact .bind (.part (checkList_proceeds f _ Γ) (by simp)) fun _ _ => .done rfl
  | .bind _ e _, Δ, Γ => by
    rw [check]
    exact .bind (.part (e.check_proceeds Δ Γ) (by simp)) fun _ _ => .done rfl
  | .block body _, Δ, Γ => by
    rw [check]
    exact .bind (.part (checkList_proceeds body Δ Γ) (by simp)) fun _ _ => .done rfl

theorem checkList_proceeds : ∀ (ss : List Stmt) (Δ : Context) (Γ : Locals),
    Proceeds (spansList ss) Δ (fun answer => answer.2.2.context) (checkList Δ Γ ss)
  | [], Δ, Γ => by
    rw [checkList]
    exact .done rfl
  | s :: ss, Δ, Γ => by
    rw [checkList]
    refine .bind (.part (check_proceeds s Δ Γ) (by simp)) fun _ _ => ?_
    exact .bind (.part (checkList_proceeds ss _ _) (by simp)) fun _ _ => .done rfl

end

end Stmt

namespace Program

theorem check_filled (Δ : Context) (program : Program) :
    Filled Δ Prod.snd (program.check Δ) := by
  have hfilled := (Stmt.checkList_proceeds program Δ []).filled
  unfold Program.check
  cases hcheck : Stmt.checkList Δ [] program with
  | ok answer =>
    rw [hcheck] at hfilled
    exact hfilled
  | error stopped =>
    rw [hcheck] at hfilled
    exact hfilled

theorem span_mem_of_check {Δ : Context} {program : Program} {stopped : Stopped Program}
    (h : program.check Δ = .error stopped) : stopped.error.span ∈ program.spans := by
  have hfault := (Stmt.checkList_proceeds program Δ []).faultIn
  unfold Program.check at h
  split at h
  · cases h
  · rename_i hstopped
    cases h
    rwa [hstopped] at hfault

/-- Behind a check, and where it stops, every symbol has the type that it had, every function is
defined where it was, and the function being checked is the one from before. -/
theorem check_keeps (Δ : Context) (program : Program) :
    match program.check Δ with
    | .ok (_, Δ') => Δ.Keeps Δ'
    | .error stopped => Δ.Keeps stopped.context := by
  have hfilled := program.check_filled Δ
  cases hcheck : program.check Δ with
  | ok answer =>
    rw [hcheck] at hfilled
    exact Fills.keeps hfilled
  | error stopped =>
    rw [hcheck] at hfilled
    obtain ⟨Δ₁, hfills, hleaves⟩ := hfilled
    exact hfills.keeps.trans hleaves.keeps

end Program

end PCode
