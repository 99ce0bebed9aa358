import PCode.Proofs.Codegen.Generation
import PCode.Proofs.Evaluation.Homes

namespace PCode.Evaluation

open Codegen

variable {L : Listing} {context : Context} {η η' : List Home} {ρ : Scope} {env : Env}
  {b : Nat} {bases : List Nat} {name : String}

/-- `Scoped L context η ρ env bases`: the scope `ρ` is that of the code generated in `env`, where
the frame of the function and of those around it have these bases. -/
inductive Scoped (L : Listing) (context : Context) (η : List Home) :
    Scope → Env → List Nat → Prop where
  | top {program start lines} : EmitsTop L (hoist { context } program) start program lines →
      L.Holds start lines →
      Scoped L context η [.block program 0] (hoist { context } program) [0]
  | var {ρ env b bs x location offset ty} : Scoped L context η ρ env (b :: bs) →
      ⟨location, b + offset, ty.size⟩ ∈ η →
      Scoped L context η (.var x location :: ρ) (env.bind x offset ty) (b :: bs)
  | block {ρ env b bs ret body first start f lines env' f' slots} :
      Scoped L context η ρ env (b :: bs) →
      EmitsStmts L ret (hoist env body) start f body lines env' f' slots →
      L.Holds start lines → (∀ h ∈ blockHomes b first slots, h ∈ η) →
      Scoped L context η (.block body first :: ρ) (hoist env body) (b :: bs)
  | inside {ρ env b bs name} : Scoped L context η ρ env bs →
      Scoped L context η ρ (env.inside name) (b :: bs)

section

variable (h : Scoped L context η ρ env bases)
include h

theorem Scoped.mono (hsub : ∀ home ∈ η, home ∈ η') : Scoped L context η' ρ env bases := by
  induction h with
  | top htop hholds => exact .top htop hholds
  | var _ hhome ih => exact .var ih (hsub _ hhome)
  | block _ hemits hholds hhomes ih =>
    exact .block ih hemits hholds fun h hh => hsub h (hhomes h hh)
  | inside _ ih => exact .inside ih

theorem Scoped.context_eq : env.context = context := by
  induction h with
  | top => simp
  | var _ _ ih => exact ih
  | block _ _ _ _ ih => simpa using ih
  | inside _ ih => exact ih

theorem Scoped.length : bases.length = env.level + 1 := by
  induction h with
  | top => simp [Env.level]
  | var _ _ ih => exact ih
  | block _ _ _ _ ih => simpa using ih
  | inside _ ih =>
    rw [List.length_cons, ih]
    rfl

theorem Scoped.var?_none (hx : env.vars.get? name = none) : ρ.var? name = none := by
  induction h with
  | top => rfl
  | @var _ _ _ _ x _ _ _ _ _ ih =>
    rw [Env.bind, Table.get?_insert] at hx
    by_cases hname : x = name
    · simp [hname] at hx
    · rw [if_neg hname] at hx
      rw [Scope.var?, if_neg hname]
      exact ih hx
  | block _ _ _ _ ih =>
    rw [hoist_vars] at hx
    exact ih hx
  | inside _ ih => exact ih hx

theorem Scoped.var?_some {slot : Slot} (hx : env.vars.get? name = some slot) : ∃ location base,
      ρ.var? name = some location ∧ slot.level ≤ env.level ∧
      bases[env.level - slot.level]? = some base ∧
      ⟨location, base + slot.offset, slot.ty.size⟩ ∈ η := by
  induction h with
  | top => simp at hx
  | @var _ env b _ x location offset ty _ hhome ih =>
    rw [Env.bind, Table.get?_insert] at hx
    by_cases hname : x = name
    · rw [if_pos hname] at hx
      cases hx
      refine ⟨location, b, ?_, Nat.le_refl _, ?_, hhome⟩
      · rw [Scope.var?, if_pos hname]
      · simp [Env.bind, Env.level]
    · rw [if_neg hname] at hx
      obtain ⟨location', base, hvar, hle, hbase, hhome'⟩ := ih hx
      refine ⟨location', base, ?_, hle, hbase, hhome'⟩
      rw [Scope.var?, if_neg hname]
      exact hvar
  | block _ _ _ _ ih =>
    rw [hoist_vars] at hx
    rw [hoist_level]
    exact ih hx
  | @inside _ env b bs other _ ih =>
    obtain ⟨location, base, hvar, hle, hbase, hhome⟩ := ih hx
    have hlevel : (env.inside other).level = env.level + 1 := rfl
    refine ⟨location, base, hvar, by omega, ?_, hhome⟩
    rw [hlevel, Nat.succ_sub hle]
    simpa using hbase

end

/-- A function of the evaluator whose code stands in the listing. -/
structure Callable (L : Listing) (context : Context) (η : List Home) (name : String)
    (closure : Closure) (level : Nat) (bases : List Nat) : Prop where
  intro ::
  emitted : ∃ env start lines, Scoped L context η closure.scope env bases ∧ env.level = level ∧
    EmitsFunction L env start name closure.params closure.body lines ∧ L.Holds start lines

theorem definitionIn_cons {s : Stmt} {body : List Stmt} {next : Nat} {other : String}
    {params : List String} {value : Body} (h : s.definition? = some (other, params, value)) :
    definitionIn name next ρ (s :: body) =
      if other = name then some ⟨params, value, ρ⟩ else definitionIn name next ρ body := by
  cases s <;> simp only [Stmt.definition?, reduceCtorEq, Option.some.injEq, Prod.mk.injEq] at h
  all_goals
    obtain ⟨rfl, rfl, rfl⟩ := h
    rfl

/-- A definition among statements is found with the scope of its place. -/
theorem definitionIn_callable (name : String) {ret : Ty} {bs : List Nat} {body : List Stmt} :
    ∀ {start f f' : Nat} {lines : List Line} {env env' : Env} {slots : List (Nat × Nat)}
      {next : Nat} {ρ : Scope},
    EmitsStmts L ret env start f body lines env' f' slots → L.Holds start lines →
    Scoped L context η ρ env (b :: bs) → (∀ h ∈ blockHomes b next slots, h ∈ η) →
    (∃ closure, definitionIn name next ρ body = some closure ∧
        Stmt.isDefinedIn name body = true ∧
        Callable L context η name closure env.level (b :: bs)) ∨
      definitionIn name next ρ body = none ∧ Stmt.isDefinedIn name body = false := by
  induction body with
  | nil => intro _ _ _ _ _ _ _ _ _ h _ _ _; exact .inr ⟨rfl, rfl⟩
  | cons s body ih =>
    intro start f f' lines env env' slots next ρ h hholds hscoped hhomes
    cases h with
    | cons hs hbody =>
      rw [holds_append] at hholds
      cases hs with
      | bind he =>
        have hrest := ih hbody hholds.2 (.var hscoped (hhomes _ List.mem_cons_self))
          fun h hh => hhomes h (List.mem_cons_of_mem _ hh)
        exact hrest
      | @define _ _ _ _ _ other params value a hdef hfun =>
        rw [definitionIn_cons hdef, Stmt.isDefinedIn_cons, hdef]
        by_cases hname : other = name
        · subst hname
          rw [if_pos rfl]
          refine .inl ⟨_, rfl, by simp, env, start + 1, a, hscoped, rfl, hfun, ?_⟩
          exact (holds_cons.mp hholds.1).2
        · rw [if_neg hname]
          simpa [hname] using ih hbody hholds.2 hscoped hhomes
      | expr | assign | declare | record | comment | ret | loop | branch | block =>
        exact ih hbody hholds.2 hscoped hhomes

theorem topDefinition_callable {body : List Stmt} {start : Nat} {lines : List Line}
    (h : EmitsTop L env start body lines) (hholds : L.Holds start lines)
    (hscoped : Scoped L context η ρ env [0]) (next : Nat)
    (hdef : Stmt.isDefinedIn name body = true) :
    ∃ closure, definitionIn name next ρ body = some closure ∧
      Callable L context η name closure env.level [0] := by
  induction h with
  | nil => simp at hdef
  | @skip _ s _ _ hsilent _ ih =>
    rw [Stmt.isDefinedIn_cons, Stmt.definition?_of_isSilent hsilent] at hdef
    have hrest := ih hholds (by simpa using hdef)
    cases s <;> simp only [Stmt.isSilent, Bool.false_eq_true] at hsilent <;> exact hrest
  | @define start _ _ other params value a _ hs hfun _ ih =>
    rw [holds_append] at hholds
    rw [definitionIn_cons hs]
    by_cases hname : other = name
    · subst hname
      rw [if_pos rfl]
      exact ⟨_, rfl, env, start, a, hscoped, rfl, hfun, hholds.1⟩
    · rw [if_neg hname]
      rw [Stmt.isDefinedIn_cons, hs] at hdef
      exact ih hholds.2 (by simpa [hname] using hdef)

theorem Scoped.function? (h : Scoped L context η ρ env bases) {level : Nat}
    (hf : env.funs.get? name = some level) : ∃ closure,
      ρ.function? name = some closure ∧ level ≤ env.level ∧
      Callable L context η name closure level (bases.drop (env.level - level)) := by
  induction h with
  | @top program start lines htop hholds =>
    have hscoped : Scoped L context η _ _ _ := .top htop hholds
    rw [hoist_funs] at hf
    by_cases hdef : Stmt.isDefinedIn name program = true
    · rw [if_pos hdef, Option.some.injEq] at hf
      obtain ⟨closure, hclosure, hcallable⟩ :=
        topDefinition_callable htop hholds hscoped 0 hdef
      refine ⟨closure, ?_, ?_, ?_⟩
      · rw [Scope.function?, hclosure]
        rfl
      · rw [hoist_level]
        omega
      · rw [hoist_level] at hcallable ⊢
        rw [← hf]
        simpa using hcallable
    · simp [hdef] at hf
  | var _ _ ih =>
    obtain ⟨closure, hclosure, hle, hcallable⟩ := ih hf
    exact ⟨closure, hclosure, hle, hcallable⟩
  | @block ρ env b bs ret body first start f lines env' f' slots houter hemits hholds hhomes ih =>
    have hscoped := Scoped.block houter hemits hholds hhomes
    rw [hoist_funs] at hf
    rcases definitionIn_callable name hemits hholds hscoped hhomes with
      ⟨closure, hclosure, hdef, hcallable⟩ | ⟨hnone, hdef⟩
    · rw [hdef, if_pos rfl, Option.some.injEq] at hf
      rw [hoist_level] at hcallable ⊢
      refine ⟨closure, ?_, by omega, ?_⟩
      · rw [Scope.function?, hclosure]
        rfl
      · rw [← hf]
        simpa using hcallable
    · rw [hdef] at hf
      obtain ⟨closure, hclosure, hle, hcallable⟩ := ih (by simpa using hf)
      refine ⟨closure, ?_, by simpa using hle, by simpa using hcallable⟩
      rw [Scope.function?, hnone]
      exact hclosure
  | @inside ρ env b bs other _ ih =>
    obtain ⟨closure, hclosure, hle, hcallable⟩ := ih hf
    have hlevel : (env.inside other).level = env.level + 1 := rfl
    refine ⟨closure, hclosure, by omega, ?_⟩
    rw [hlevel, Nat.succ_sub hle]
    exact hcallable

end PCode.Evaluation
