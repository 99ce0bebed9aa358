import PCode.Proofs.Evaluation.Evaluator
import PCode.Proofs.Failure

namespace PCode.Evaluation

/-- Where the first does not run out of fuel, the second comes to the same. -/
def Refines {α : Type} (x y : Eval α) : Prop :=
  ∀ σ, x σ = .error .timeout ∨ y σ = x σ

section Refines

variable {α β : Type} {x y : Eval α} {f g : α → Eval β}

theorem Refines.refl (x : Eval α) : Refines x x :=
  fun _ => .inr rfl

theorem Refines.bind (h : Refines x y) (hf : ∀ a, Refines (f a) (g a)) :
    Refines (x >>= f) (y >>= g) := by
  intro σ
  rw [bind_apply, bind_apply]
  rcases h σ with htimeout | heq
  · rw [htimeout]
    exact .inl rfl
  · rw [heq]
    cases x σ with
    | error cause => exact .inr rfl
    | ok answer => exact hf answer.1 answer.2

theorem refines_timeout (y : Eval α) : Refines (stop .timeout) y :=
  fun _ => .inl rfl

end Refines

/-- Calls that refine each other. -/
def RefinesCalls (call call' : Caller) : Prop :=
  ∀ closure vs, Refines (call closure vs) (call' closure vs)

section Syntax

variable {S : Setting} {call call' : Caller} {fuel fuel' : Nat}

mutual

theorem expr_refines (hcall : RefinesCalls call call') : ∀ (ρ : Scope) (e : Expr),
    Refines (expr S call ρ e) (expr S call' ρ e)
  | ρ, .integer .. | ρ, .real .. | ρ, .boolean .. | ρ, .lambda .. | ρ, .array ..
  | ρ, .index .. => by
    simp only [expr]
    exact .refl _
  | ρ, .text .. | ρ, .name .. => by
    simp only [expr]
    exact .refl _
  | ρ, .unary op e n => by
    simp only [expr]
    exact (expr_refines hcall ρ e).bind fun v => .refl _
  | ρ, .binary op l r n => by
    simp only [expr]
    exact (expr_refines hcall ρ l).bind fun v => (Refines.refl _).bind fun a =>
      (expr_refines hcall ρ r).bind fun w => .refl _
  | ρ, .member e _ k n => by
    simp only [expr]
    exact (expr_refines hcall ρ e).bind fun v => .refl _
  | ρ, .assign t e n => by
    simp only [expr]
    exact (Refines.refl _).bind fun location => (expr_refines hcall ρ e).bind fun v => .refl _
  | ρ, .cond c t e n => by
    simp only [expr]
    refine (expr_refines hcall ρ c).bind fun v => (Refines.refl _).bind fun test => ?_
    split
    · exact expr_refines hcall ρ e
    · exact expr_refines hcall ρ t
  | ρ, .call f args n => by
    simp only [expr]
    split
    · exact .refl _
    · split
      · exact (exprs_refines hcall ρ args).bind fun vs => .refl _
      · exact (Refines.refl _).bind fun closure => (exprs_refines hcall ρ args).bind fun vs =>
          hcall closure vs

theorem exprs_refines (hcall : RefinesCalls call call') : ∀ (ρ : Scope) (es : List Expr),
    Refines (exprs S call ρ es) (exprs S call' ρ es)
  | ρ, [] => by
    simp only [exprs]
    exact .refl _
  | ρ, e :: es => by
    simp only [exprs]
    exact (expr_refines hcall ρ e).bind fun v => (exprs_refines hcall ρ es).bind fun vs => .refl _

end

theorem iterate_refines {test test' : Eval Cell} {body body' : Eval (Option Value)}
    (htest : Refines test test') (hbody : Refines body body') (hle : fuel ≤ fuel') :
    Refines (iterate test body fuel) (iterate test' body' fuel') := by
  induction fuel generalizing fuel' with
  | zero => exact refines_timeout _
  | succ fuel ih =>
    obtain ⟨fuel', rfl⟩ : ∃ k, fuel' = k + 1 := ⟨fuel' - 1, by omega⟩
    simp only [iterate]
    refine htest.bind fun c => ?_
    split
    · exact .refl _
    · refine hbody.bind fun r => ?_
      cases r with
      | none => exact ih (by omega)
      | some v => exact .refl _

mutual

theorem stmt_refines (hcall : RefinesCalls call call') (hle : fuel ≤ fuel') :
    ∀ (ρ : Scope) (s : Stmt), Refines (stmt S call fuel ρ s) (stmt S call' fuel' ρ s)
  | ρ, .expr e _ | ρ, .bind _ e _ | ρ, .ret e _ => by
    simp only [stmt]
    exact (expr_refines hcall ρ e).bind fun v => .refl _
  | ρ, .declare .. | ρ, .record .. | ρ, .comment .. | ρ, .define .. | ρ, .defineBlock .. => by
    simp only [stmt]
    exact .refl _
  | ρ, .loop c body _ => by
    simp only [stmt]
    refine iterate_refines ((expr_refines hcall ρ c).bind fun v => .refl _) ?_ hle
    exact (Refines.refl _).bind fun first => stmts_refines hcall hle _ _ body
  | ρ, .branch c t e _ => by
    simp only [stmt]
    refine (expr_refines hcall ρ c).bind fun v => (Refines.refl _).bind fun test => ?_
    split
    · exact (Refines.refl _).bind fun first => stmts_refines hcall hle _ _ e
    · exact (Refines.refl _).bind fun first => stmts_refines hcall hle _ _ t
  | ρ, .block body _ => by
    simp only [stmt]
    exact (Refines.refl _).bind fun first => stmts_refines hcall hle _ _ body

theorem stmts_refines (hcall : RefinesCalls call call') (hle : fuel ≤ fuel') :
    ∀ (ρ : Scope) (next : Nat) (ss : List Stmt),
      Refines (stmts S call fuel ρ next ss) (stmts S call' fuel' ρ next ss)
  | ρ, next, [] => by
    simp only [stmts]
    exact .refl _
  | ρ, next, s :: ss => by
    have hs := stmt_refines hcall hle ρ s
    have hss := fun ρ next => stmts_refines hcall hle ρ next ss
    cases s
    case bind x e _ =>
      simp only [stmts]
      exact (expr_refines hcall ρ e).bind fun v => (Refines.refl _).bind fun _ => hss _ _
    all_goals
      simp only [stmts]
      refine hs.bind fun r => ?_
      cases r with
      | none => exact hss _ _
      | some v => exact .refl _

end

theorem bindings_refines (hcall : RefinesCalls call call') :
    ∀ (ρ : Scope) (es : List (String × Expr)),
      Refines (bindings S call ρ es) (bindings S call' ρ es)
  | ρ, [] => .refl _
  | ρ, (x, e) :: es => by
    simp only [bindings]
    exact (expr_refines hcall ρ e).bind fun v => (Refines.refl _).bind fun location =>
      bindings_refines hcall _ es

theorem body_refines (hcall : RefinesCalls call call') (hle : fuel ≤ fuel') (ρ : Scope) (b : Body) :
    Refines (body S call fuel ρ b) (body S call' fuel' ρ b) := by
  cases b with
  | value locals e =>
    simp only [body]
    exact (bindings_refines hcall ρ locals).bind fun ρ' => expr_refines hcall ρ' e
  | block locals ss =>
    simp only [body]
    refine (bindings_refines hcall ρ locals).bind fun ρ' => (Refines.refl _).bind fun first => ?_
    exact (stmts_refines hcall hle _ _ ss).bind fun r => .refl _

theorem invoke_refines (hle : fuel ≤ fuel') : RefinesCalls (invoke S fuel) (invoke S fuel') := by
  induction fuel generalizing fuel' with
  | zero => exact fun closure vs => refines_timeout _
  | succ fuel ih =>
    obtain ⟨fuel', rfl⟩ : ∃ k, fuel' = k + 1 := ⟨fuel' - 1, by omega⟩
    intro closure vs
    simp only [invoke]
    exact (Refines.refl _).bind fun ρ => body_refines (ih (by omega)) (by omega) ρ closure.body

theorem program_mono {p : Program} {r : Except Stop Value} (h : program S fuel p = r)
    (hr : r ≠ .error .timeout) (hle : fuel ≤ fuel') : program S fuel' p = r := by
  subst h
  simp only [program] at hr ⊢
  cases hmain : Scope.function? "main" [.block p 0] with
  | none => rfl
  | some main =>
    simp only [hmain] at hr ⊢
    rcases invoke_refines hle main [] [] with htimeout | heq
    · rw [htimeout] at hr
      exact absurd rfl hr
    · rw [heq]

end Syntax

/-- With every fuel from some on, evaluation gives this value. -/
def Gives (S : Setting) (p : Program) (v : Value) : Prop :=
  ∃ least, ∀ fuel, least ≤ fuel → program S fuel p = .ok v

/-- With every fuel from some on, evaluation comes to a point behind which nothing is said. -/
def Undefined (S : Setting) (p : Program) : Prop :=
  ∃ least, ∀ fuel, least ≤ fuel → program S fuel p = .error .undefined

section Values

variable {S : Setting} {p : Program} {v w : Value} {fuel : Nat}

theorem gives_of_eq_ok (h : program S fuel p = .ok v) : Gives S p v :=
  ⟨fuel, fun _ hle => program_mono h (by simp) hle⟩

theorem undefined_of_eq_error (h : program S fuel p = .error .undefined) : Undefined S p :=
  ⟨fuel, fun _ hle => program_mono h (by simp) hle⟩

theorem Gives.unique (h : Gives S p v) (h' : Gives S p w) : v = w := by
  obtain ⟨least, hv⟩ := h
  obtain ⟨least', hw⟩ := h'
  have heq := (hv (max least least') (Nat.le_max_left _ _)).symm.trans
    (hw (max least least') (Nat.le_max_right _ _))
  exact Except.ok.inj heq

end Values

end PCode.Evaluation
