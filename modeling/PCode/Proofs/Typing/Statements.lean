import PCode.Proofs.Typing.Expressions
import PCode.Proofs.Typing.Tables

namespace PCode

namespace Ty

mutual

theorem resolve_eq_ok_iff (Δ : Context) : ∀ w τ, resolve Δ w = .ok τ ↔ Resolves Δ w τ
  | .i64, τ | .real, τ | .string, τ | .bool, τ | .record _ (_ :: _), τ => by
    simp only [resolve, Except.ok.injEq]
    constructor
    · rintro rfl
      constructor
    · rintro ⟨⟩
      rfl
  | .vararg, τ | .list _, τ | .unknown, τ => by
    simp only [resolve, reduceCtorEq, false_iff]
    rintro ⟨⟩
  | .array w, τ => by
    have ih := resolve_eq_ok_iff Δ w
    simp only [resolve]
    constructor
    · intro h
      cases hw : resolve Δ w with
      | error fault => simp [hw] at h
      | ok σ =>
        obtain rfl : τ = .array σ := by simpa [hw, eq_comm] using h
        exact .array ((ih σ).mp hw)
    · intro h
      cases h with
      | array h => rw [(ih _).mpr h]
  | .function ws flag w, τ => by
    have ih := resolve_eq_ok_iff Δ w
    have ihs := resolveParams_eq_ok_iff Δ ws
    simp only [resolve]
    constructor
    · intro h
      cases hws : resolveParams Δ ws with
      | error fault => simp [hws] at h
      | ok p =>
        obtain ⟨τs, variadic⟩ := p
        cases hw : resolve Δ w with
        | error fault => simp [hws, hw] at h
        | ok σ =>
          obtain rfl : τ = .function τs variadic σ := by simpa [hws, hw, eq_comm] using h
          exact .function ((ihs τs variadic).mp hws) ((ih σ).mp hw)
    · intro h
      cases h with
      | function hs h => rw [(ihs _ _).mpr hs, (ih _).mpr h]
  | .record name [], τ => by
    simp only [resolve]
    constructor
    · intro h
      split at h <;> simp at h
      subst h
      exact .named ‹_›
    · intro h
      cases h with
      | named h => rw [h]

theorem resolveParams_eq_ok_iff (Δ : Context) :
    ∀ ws τs variadic, resolveParams Δ ws = .ok (τs, variadic) ↔ ResolvesParams Δ ws τs variadic
  | [], τs, variadic => by
    simp only [resolveParams, Except.ok.injEq, Prod.mk.injEq]
    constructor
    · rintro ⟨rfl, rfl⟩
      exact .nil
    · rintro ⟨⟩
      exact ⟨rfl, rfl⟩
  | w :: ws, τs, variadic => by
    have ih := resolve_eq_ok_iff Δ w
    have ihs := resolveParams_eq_ok_iff Δ ws
    by_cases hw : w = .vararg
    · subst hw
      simp only [resolveParams]
      constructor
      · intro h
        split at h
        · rename_i hws
          obtain rfl : ws = [] := by simpa using hws
          simp only [Except.ok.injEq, Prod.mk.injEq] at h
          obtain ⟨rfl, rfl⟩ := h
          exact .ellipsis
        · simp at h
      · intro h
        cases h with
        | ellipsis => rfl
        | cons h => cases h
    · rw [resolveParams.eq_3 _ _ _ hw]
      constructor
      · intro h
        cases hσ : resolve Δ w with
        | error fault => simp [hσ] at h
        | ok σ =>
          cases hσs : resolveParams Δ ws with
          | error fault => simp [hσ, hσs] at h
          | ok p =>
            simp only [hσ, hσs, Except.ok.injEq, Prod.mk.injEq] at h
            obtain ⟨rfl, rfl⟩ := h
            exact .cons ((ih σ).mp hσ) ((ihs _ _).mp hσs)
      · intro h
        cases h with
        | ellipsis => exact absurd rfl hw
        | cons h hs => rw [(ih _).mpr h, (ihs _ _).mpr hs]

end

theorem resolveMembers_eq_ok_iff (Δ : Context) :
    ∀ ws τs, resolveMembers Δ ws = .ok τs ↔ ResolvesMembers Δ ws τs
  | [], τs => by
    simp only [resolveMembers, Except.ok.injEq]
    exact ⟨fun h => h ▸ .nil, fun h => by cases h; rfl⟩
  | (name, w) :: ws, τs => by
    have ih := resolveMembers_eq_ok_iff Δ ws
    simp only [resolveMembers]
    constructor
    · intro h
      cases hσ : resolve Δ w with
      | error fault => simp [hσ] at h
      | ok σ =>
        cases hσs : resolveMembers Δ ws with
        | error p => simp [hσ, hσs] at h
        | ok σs =>
          obtain rfl : τs = (name, σ) :: σs := by simpa [hσ, hσs, eq_comm] using h
          exact .cons ((resolve_eq_ok_iff Δ w σ).mp hσ) ((ih σs).mp hσs)
    · intro h
      cases h with
      | cons h hs => rw [(resolve_eq_ok_iff Δ w _).mpr h, (ih _).mpr hs]

end Ty

@[simp] theorem leaving_eq_ok {τ υ α : Type} {ret : Option Ty} {f : τ → υ}
    {x : Except (Stopped τ) α} {a : α} : leaving ret f x = .ok a ↔ x = .ok a := by
  cases x <;> simp [leaving]

theorem checkBindings_eq_ok_iff (Δ : Context) :
    ∀ (Γ : Locals) es as Γ', checkBindings Δ Γ es = .ok (as, Γ') ↔ TypedBindings Δ Γ es as Γ'
  | Γ, [], as, Γ' => by
    simp only [checkBindings, Except.ok.injEq, Prod.mk.injEq]
    constructor
    · rintro ⟨rfl, rfl⟩
      exact .nil
    · rintro ⟨⟩
      exact ⟨rfl, rfl⟩
  | Γ, (name, e) :: es, as, Γ' => by
    simp only [checkBindings, bind_eq_ok_iff, inside_eq_ok, Prod.exists, Expr.check_eq_ok_iff,
      checkBindings_eq_ok_iff Δ _ es, Except.ok.injEq, Prod.mk.injEq]
    constructor
    · rintro ⟨a, _, ⟨h, rfl⟩, as, Γ'', has, rfl, rfl⟩
      exact .cons h has
    · intro h
      cases h with
      | cons h has => exact ⟨_, _, ⟨h, rfl⟩, _, _, has, rfl, rfl⟩

theorem checkHeader_eq_ok_iff {Δ : Context} {name : String} {params bound : List String}
    {span : Span} {τs : List Ty} {ret τ : Ty} :
    checkHeader Δ name params bound span = .ok (τs, ret, τ) ↔
      ∃ variadic, τ = .function τs variadic ret ∧ Δ.Definable name τ ∧
        params.length = τs.length ∧ (params ++ bound).Nodup := by
  rw [← repeated?_eq_none_iff]
  unfold checkHeader
  constructor
  · intro h
    split at h
    · simp at h
    rename_i hnew
    simp only [Bool.or_eq_true, not_or, Bool.not_eq_true] at hnew
    split at h
    · simp at h
    · rename_i σs variadic σ hf
      split at h
      · rename_i hlen
        split at h
        · simp at h
        · simp only [Except.ok.injEq, Prod.mk.injEq] at h
          obtain ⟨rfl, rfl, rfl⟩ := h
          exact ⟨variadic, rfl, ⟨hf, hnew.2, hnew.1⟩, hlen, ‹_›⟩
      · simp at h
    · simp at h
  · rintro ⟨variadic, rfl, ⟨hf, hnew, hord⟩, hlen, hnodup⟩
    simp [hnew, hord, hf, hlen, hnodup]

theorem register?_eq_some_iff {symbols symbols' : Symbols} {name : String} {kind : SymbolKind}
    {τ : Ty} :
    symbols.register? name kind τ = some symbols' ↔ symbols.get? name kind = none ∧
      symbols' = match kind with
        | .function => { symbols with functions := symbols.functions.insert name τ }
        | .type => { symbols with types := symbols.types.insert name τ } := by
  unfold Symbols.register? Symbols.get? Table.contains
  cases h : Table.get? (symbols.ofKind kind) name with
  | none => cases kind <;> simp [eq_comm]
  | some σ => simp

theorem registerRecord_eq_ok_iff {symbols symbols' : Symbols} {name : String}
    {members : List (String × Ty)} :
    registerRecord symbols name members = .ok symbols' ↔
      symbols.get? name .type = none ∧ symbols.get? name .function = none ∧
      symbols' =
        { functions := symbols.functions.insert name
            (.function (members.map Prod.snd) false (.record name members))
          types := symbols.types.insert name (.record name members) } := by
  unfold registerRecord
  constructor
  · intro h
    split at h
    · simp at h
    rename_i symbols₁ h₁
    obtain ⟨ht, rfl⟩ := register?_eq_some_iff.mp h₁
    split at h
    · simp at h
    rename_i symbols₂ h₂
    obtain ⟨hf, rfl⟩ := register?_eq_some_iff.mp h₂
    simp only [Except.ok.injEq] at h
    exact ⟨ht, hf, h.symm⟩
  · rintro ⟨ht, hf, rfl⟩
    have hf' : Symbols.get? { symbols with
        types := symbols.types.insert name (.record name members) } name .function = none := hf
    rw [register?_eq_some_iff.mpr ⟨ht, rfl⟩]
    simp only [register?_eq_some_iff.mpr ⟨hf', rfl⟩]

@[simp] theorem returns_nil : returns [] = [] := rfl

@[simp] theorem returns_cons (s : Stmt) (ss : List Stmt) :
    returns (s :: ss) = s.ty.outcomes ++ returns ss := by
  simp [returns]

namespace Stmt

mutual

theorem check_iff_typed (Δ : Context) (Γ : Locals) : ∀ s s' τ scope,
    check Δ Γ s = .ok (s', τ, scope) ↔ Typed Δ Γ s s' scope.context scope.locals ∧ s'.ty = τ
  | .expr e n, s', τ, ⟨Δ', Γ'⟩ | .bind _ e n, s', τ, ⟨Δ', Γ'⟩ => by
    simp only [check, bind_eq_ok_iff, inside_eq_ok, Prod.exists, Expr.check_eq_ok_iff,
      Except.ok.injEq, Prod.mk.injEq, Scope.mk.injEq]
    constructor
    · rintro ⟨a, _, ⟨h, rfl⟩, rfl, rfl, rfl, rfl⟩
      exact ⟨by constructor; exact h, rfl⟩
    · rintro ⟨h, rfl⟩
      cases h
      exact ⟨_, _, ⟨‹_›, rfl⟩, rfl, rfl, rfl, rfl⟩
  | .declare name w n, s', τ, ⟨Δ', Γ'⟩ => by
    simp only [check]
    constructor
    · intro h
      split at h
      · simp at h
      rename_i σ hσ
      split at h
      · simp at h
      rename_i symbols hs
      obtain ⟨hnew, rfl⟩ := register?_eq_some_iff.mp hs
      simp only [Except.ok.injEq, Prod.mk.injEq, Scope.mk.injEq] at h
      obtain ⟨rfl, rfl, rfl, rfl⟩ := h
      exact ⟨.declare ((Ty.resolve_eq_ok_iff Δ w σ).mp hσ) hnew, rfl⟩
    · rintro ⟨h, rfl⟩
      cases h with
      | declare hσ hnew =>
        rw [(Ty.resolve_eq_ok_iff Δ w _).mpr hσ]
        simp only [register?_eq_some_iff.mpr ⟨hnew, rfl⟩]
        rfl
  | .record name ws n, s', τ, ⟨Δ', Γ'⟩ => by
    simp only [check]
    constructor
    · intro h
      split at h
      · simp at h
      rename_i hnodup
      split at h
      · simp at h
      rename_i τs hτs
      split at h
      · simp at h
      rename_i symbols hs
      obtain ⟨ht, hf, rfl⟩ := registerRecord_eq_ok_iff.mp hs
      simp only [Except.ok.injEq, Prod.mk.injEq, Scope.mk.injEq] at h
      obtain ⟨rfl, rfl, rfl, rfl⟩ := h
      exact ⟨.record ((repeated?_eq_none_iff _).mp hnodup)
        ((Ty.resolveMembers_eq_ok_iff Δ ws τs).mp hτs) ht hf, rfl⟩
    · rintro ⟨h, rfl⟩
      cases h with
      | record hnodup hτs ht hf =>
        rw [(repeated?_eq_none_iff _).mpr hnodup]
        simp only [(Ty.resolveMembers_eq_ok_iff Δ ws _).mpr hτs,
          registerRecord_eq_ok_iff.mpr ⟨ht, hf, rfl⟩]
        rfl
  | .comment text n, s', τ, ⟨Δ', Γ'⟩ => by
    simp only [check, Except.ok.injEq, Prod.mk.injEq, Scope.mk.injEq]
    constructor
    · rintro ⟨rfl, rfl, rfl, rfl⟩
      exact ⟨.comment, rfl⟩
    · rintro ⟨h, rfl⟩
      cases h
      exact ⟨rfl, rfl, rfl, rfl⟩
  | .ret e n, s', τ, ⟨Δ', Γ'⟩ => by
    simp only [check]
    constructor
    · intro h
      split at h
      · simp at h
      rename_i σ hσ
      simp only [bind_eq_ok_iff, inside_eq_ok, Prod.exists, Expr.check_eq_ok_iff, require_eq_ok,
        expect_eq_ok, Except.ok.injEq, Prod.mk.injEq, Scope.mk.injEq] at h
      obtain ⟨a, _, ⟨h, rfl⟩, -, rfl, rfl, rfl, rfl, rfl⟩ := h
      exact ⟨.ret hσ h, rfl⟩
    · rintro ⟨h, rfl⟩
      cases h with
      | ret hσ h =>
        simp only [hσ, bind_eq_ok_iff, inside_eq_ok, Prod.exists, Expr.check_eq_ok_iff,
          require_eq_ok, expect_eq_ok, Except.ok.injEq]
        exact ⟨_, _, ⟨h, rfl⟩, (), rfl, rfl⟩
  | .define name params es e n, s', τ, ⟨Δ', Γ'⟩ => by
    simp only [check, bind_eq_ok_iff, leaving_eq_ok, Prod.exists, Expr.check_eq_ok_iff,
      require_eq_ok, checkHeader_eq_ok_iff, checkBindings_eq_ok_iff, Expr.typed_returning,
      typedBindings_returning]
    constructor
    · rintro ⟨τs, ret, _, ⟨variadic, rfl, hdef, hlen, hnodup⟩, as, Γ'', has, a, _, ⟨h, rfl⟩, hs⟩
      split at hs
      · rename_i hty
        subst hty
        simp only [Except.ok.injEq, Prod.mk.injEq, Scope.mk.injEq] at hs
        obtain ⟨rfl, rfl, rfl, rfl⟩ := hs
        exact ⟨.define hdef hlen hnodup has h, rfl⟩
      · simp at hs
    · rintro ⟨h, rfl⟩
      cases h with
      | define hdef hlen hnodup has h =>
        refine ⟨_, _, _, ⟨_, rfl, hdef, hlen, hnodup⟩, _, _, has, _, _, ⟨h, rfl⟩, ?_⟩
        rw [if_pos rfl]
        rfl
  | .defineBlock name params es body n, s', τ, ⟨Δ', Γ'⟩ => by
    simp only [check, bind_eq_ok_iff, leaving_eq_ok, Prod.exists, require_eq_ok,
      checkHeader_eq_ok_iff, checkBindings_eq_ok_iff, typedBindings_returning,
      checkList_iff_typed _ _ body, Except.ok.injEq, Prod.mk.injEq, Scope.mk.injEq]
    constructor
    · rintro ⟨τs, ret, _, ⟨variadic, rfl, hdef, hlen, hnodup⟩, as, Γ₁, has, body', _, scope,
        ⟨hbody, rfl⟩, rfl, rfl, rfl, rfl⟩
      exact ⟨.defineBlock hdef hlen hnodup has hbody, rfl⟩
    · rintro ⟨h, rfl⟩
      cases h with
      | @defineBlock _ Δ₁ _ Γ₁ Γ₂ _ _ τs variadic ret _ as _ body' _ hdef hlen hnodup has hbody =>
        exact ⟨_, _, _, ⟨_, rfl, hdef, hlen, hnodup⟩, _, _, has, _, _, ⟨Δ₁, Γ₂⟩, ⟨hbody, rfl⟩,
          rfl, rfl, rfl, rfl⟩
  | .loop c body n, s', τ, ⟨Δ', Γ'⟩ => by
    simp only [check, bind_eq_ok_iff, inside_eq_ok, Prod.exists, Expr.check_eq_ok_iff,
      require_eq_ok, expect_eq_ok, checkList_iff_typed _ _ body, Except.ok.injEq, Prod.mk.injEq,
      Scope.mk.injEq]
    constructor
    · rintro ⟨c', _, ⟨hc, rfl⟩, -, hb, body', _, scope, ⟨hbody, rfl⟩, rfl, rfl, rfl, rfl⟩
      exact ⟨.loop hc hb hbody, rfl⟩
    · rintro ⟨h, rfl⟩
      cases h with
      | @loop _ _ _ Γ₁ _ _ _ _ _ hc hb hbody =>
        exact ⟨_, _, ⟨hc, rfl⟩, (), hb, _, _, ⟨Δ', Γ₁⟩, ⟨hbody, rfl⟩, rfl, rfl, rfl, rfl⟩
  | .branch c t e n, s', τ, ⟨Δ', Γ'⟩ => by
    simp only [check, bind_eq_ok_iff, inside_eq_ok, Prod.exists, Expr.check_eq_ok_iff,
      require_eq_ok, expect_eq_ok, checkList_iff_typed _ _ t, checkList_iff_typed _ _ e,
      Except.ok.injEq, Prod.mk.injEq, Scope.mk.injEq]
    constructor
    · rintro ⟨c', _, ⟨hc, rfl⟩, -, hb, t', _, scope₁, ⟨ht, rfl⟩, e', _, scope₂, ⟨he, rfl⟩, rfl, rfl,
        rfl, rfl⟩
      exact ⟨.branch hc hb ht he, rfl⟩
    · rintro ⟨h, rfl⟩
      cases h with
      | @branch _ Δ₁ _ _ Γ₁ Γ₂ _ _ _ _ _ _ _ hc hb ht he =>
        exact ⟨_, _, ⟨hc, rfl⟩, (), hb, _, _, ⟨Δ₁, Γ₁⟩, ⟨ht, rfl⟩, _, _, ⟨Δ', Γ₂⟩, ⟨he, rfl⟩, rfl,
          rfl, rfl, rfl⟩
  | .block body n, s', τ, ⟨Δ', Γ'⟩ => by
    simp only [check, bind_eq_ok_iff, inside_eq_ok, Prod.exists, checkList_iff_typed _ _ body,
      Except.ok.injEq, Prod.mk.injEq, Scope.mk.injEq]
    constructor
    · rintro ⟨body', _, scope, ⟨hbody, rfl⟩, rfl, rfl, rfl, rfl⟩
      exact ⟨.block hbody, rfl⟩
    · rintro ⟨h, rfl⟩
      cases h with
      | @block _ _ _ Γ₁ _ _ _ hbody =>
        exact ⟨_, _, ⟨Δ', Γ₁⟩, ⟨hbody, rfl⟩, rfl, rfl, rfl, rfl⟩

theorem checkList_iff_typed (Δ : Context) (Γ : Locals) : ∀ ss ss' τs scope,
    checkList Δ Γ ss = .ok (ss', τs, scope) ↔
      TypedList Δ Γ ss ss' scope.context scope.locals ∧ returns ss' = τs
  | [], ss', τs, ⟨Δ', Γ'⟩ => by
    simp only [checkList, Except.ok.injEq, Prod.mk.injEq, Scope.mk.injEq]
    constructor
    · rintro ⟨rfl, rfl, rfl, rfl⟩
      exact ⟨.nil, rfl⟩
    · rintro ⟨h, rfl⟩
      cases h
      exact ⟨rfl, rfl, rfl, rfl⟩
  | s :: ss, ss', τs, scope => by
    simp only [checkList, bind_eq_ok_iff, inside_eq_ok, Prod.exists, check_iff_typed Δ Γ s,
      checkList_iff_typed _ _ ss, Except.ok.injEq, Prod.mk.injEq]
    constructor
    · rintro ⟨s', _, scope₁, ⟨hs, rfl⟩, ss', _, scope₂, ⟨hss, rfl⟩, rfl, rfl, rfl⟩
      exact ⟨.cons hs hss, by simp⟩
    · rintro ⟨h, rfl⟩
      cases h with
      | @cons _ Δ₁ _ _ Γ₁ _ _ s' _ ss' hs hss =>
        exact ⟨s', _, ⟨Δ₁, Γ₁⟩, ⟨hs, rfl⟩, ss', _, scope, ⟨hss, rfl⟩, rfl, by simp, rfl⟩

end

end Stmt

theorem Program.check_eq_ok_iff {Δ Δ' : Context} {program typed : Program} :
    program.check Δ = .ok (typed, Δ') ↔ program.Typed Δ typed Δ' := by
  unfold Program.check Program.Typed
  constructor
  · intro h
    split at h
    · rename_i scope hcheck
      simp only [Except.ok.injEq, Prod.mk.injEq] at h
      obtain ⟨rfl, rfl⟩ := h
      exact ⟨scope.locals, ((Stmt.checkList_iff_typed Δ [] program _ _ scope).mp hcheck).1⟩
    · simp at h
  · rintro ⟨Γ, h⟩
    rw [(Stmt.checkList_iff_typed Δ [] program typed _ ⟨Δ', Γ⟩).mpr ⟨h, rfl⟩]

/-- Checking a program by itself succeeds exactly when the program has a derivation. The annotated
program and the context are those of the derivation, and no other derivation exists. -/
theorem Program.check_decides_typing (program : Program) :
    ((∃ answer, program.check .empty = .ok answer) ↔ ∃ typed Δ, program.Typed .empty typed Δ) ∧
    ∀ typed Δ, program.Typed .empty typed Δ → program.check .empty = .ok (typed, Δ) ∧
      ∀ other Δ', program.Typed .empty other Δ' → other = typed ∧ Δ' = Δ := by
  refine ⟨⟨?_, ?_⟩, ?_⟩
  · rintro ⟨⟨typed, Δ⟩, h⟩
    exact ⟨typed, Δ, Program.check_eq_ok_iff.mp h⟩
  · rintro ⟨typed, Δ, h⟩
    exact ⟨(typed, Δ), Program.check_eq_ok_iff.mpr h⟩
  · intro typed Δ h
    have hcheck := Program.check_eq_ok_iff.mpr h
    refine ⟨hcheck, ?_⟩
    intro other Δ' h'
    have heq := hcheck.symm.trans (Program.check_eq_ok_iff.mpr h')
    simp only [Except.ok.injEq, Prod.mk.injEq] at heq
    exact ⟨heq.1.symm, heq.2.symm⟩

end PCode
