import PCode.Proofs.Failure
import PCode.Proofs.Typing.Rules

namespace PCode

@[simp] theorem inside_eq_ok {τ υ α : Type} {f : τ → υ} {x : Except (Stopped τ) α} {a : α} :
    inside f x = .ok a ↔ x = .ok a := by
  cases x <;> simp [inside]

@[simp] theorem stop_ne_ok {τ α : Type} {Δ : Context} {tree : τ} {error : TypeError} {a : α} :
    ¬ Expr.stop Δ tree error = .ok a := by
  simp [Expr.stop]

@[simp] theorem require_eq_ok {τ α : Type} {Δ : Context} {tree : τ} {x : Except TypeError α}
    {a : α} : Expr.require Δ tree x = .ok a ↔ x = .ok a := by
  cases x <;> simp [Expr.require]

@[simp] theorem settle_eq_ok {Δ : Context} {e a : Expr} {x : Except TypeError Ty} {τ : Ty} :
    Expr.settle Δ e x = .ok (a, τ) ↔ x = .ok τ ∧ a = e.withTy τ := by
  cases x with
  | error error => simp [Expr.settle]
  | ok σ =>
    simp only [Expr.settle, Except.ok.injEq, Prod.mk.injEq]
    constructor
    · rintro ⟨rfl, rfl⟩
      exact ⟨rfl, rfl⟩
    · rintro ⟨rfl, rfl⟩
      exact ⟨rfl, rfl⟩

@[simp] theorem expect_eq_ok {place : Place} {expected found : Ty} {span : Span} {u : Unit} :
    expect place expected found span = .ok u ↔ found = expected := by
  unfold expect
  split <;> simp_all [eq_comm]

theorem checkUnary_eq_ok_iff {op : UnaryOp} {τ σ : Ty} {span : Span} :
    checkUnary op τ span = .ok σ ↔ op.Takes τ ∧ σ = τ := by
  have h : op.allows τ = true ↔ op.Takes τ := by
    constructor
    · intro h
      cases op
      · exact .sign (by simp) (by simpa [UnaryOp.allows, Ty.isNumeric] using h)
      · exact .sign (by simp) (by simpa [UnaryOp.allows, Ty.isNumeric] using h)
      · obtain rfl : τ = .bool := by simpa [UnaryOp.allows] using h
        exact .not
    · rintro (⟨hop, hτ⟩ | _)
      · cases op <;> simp_all [UnaryOp.allows, Ty.isNumeric]
      · rfl
  unfold checkUnary
  by_cases ha : op.allows τ = true
  · simp only [ha, if_pos, Except.ok.injEq, h.mp ha, true_and]
    exact eq_comm
  · simp [ha, mt h.mpr ha]

theorem checkBinary_eq_ok_iff {op : BinaryOp} {l r σ : Ty} {span : Span} :
    checkBinary op l r span = .ok σ ↔ r = l ∧ op.Takes l σ := by
  have h : op.allows l = true ∧ σ = op.result l ↔ op.Takes l σ := by
    constructor
    · rintro ⟨h, rfl⟩
      cases op
      case or | and =>
        obtain rfl : l = .bool := by simpa [BinaryOp.allows] using h
        exact .logic (by simp)
      case eq | ne =>
        exact .equality (by simp)
          (by simpa [BinaryOp.allows, Ty.isNumeric, or_assoc] using h)
      case lt | gt => exact .order (by simp) (by simpa [BinaryOp.allows, Ty.isNumeric] using h)
      case add | sub | mul | div =>
        exact .arithmetic (by simp) (by simpa [BinaryOp.allows, Ty.isNumeric] using h)
      case mod =>
        obtain rfl : l = .i64 := by simpa [BinaryOp.allows] using h
        exact .remainder
    · intro h
      cases h with
      | arithmetic hop hτ =>
        cases op <;> simp_all [BinaryOp.allows, BinaryOp.result, Ty.isNumeric]
      | remainder => exact ⟨rfl, rfl⟩
      | equality hop hτ =>
        cases op <;> simp_all [BinaryOp.allows, BinaryOp.result, Ty.isNumeric, or_assoc]
      | order hop hτ => cases op <;> simp_all [BinaryOp.allows, BinaryOp.result, Ty.isNumeric]
      | logic hop => cases op <;> simp_all [BinaryOp.allows, BinaryOp.result]
  unfold checkBinary
  rw [← h]
  by_cases hl : l = r
  · subst hl
    by_cases ha : op.allows l = true
    · simp only [ha, if_pos, Except.ok.injEq, true_and]
      exact eq_comm
    · simp [ha]
  · simp [hl, Ne.symm hl]

theorem member?_eq_some_iff {r : String} {members : List (String × Ty)} {field : String}
    {index : Nat} {τ : Ty} :
    (Ty.record r members).member? field = some (index, τ) ↔
      members[index]? = some (field, τ) ∧ ∀ m ∈ members.take index, m.1 ≠ field := by
  simp only [Ty.member?, Option.bind_eq_some_iff, Option.map_eq_some_iff, Prod.mk.injEq]
  constructor
  · rintro ⟨i, hi, m, hm, rfl, rfl⟩
    rw [List.findIdx?_eq_some_iff_getElem] at hi
    obtain ⟨hlt, hname, hbefore⟩ := hi
    rw [List.getElem?_eq_getElem hlt, Option.some.injEq] at hm
    subst hm
    refine ⟨?_, ?_⟩
    · rw [List.getElem?_eq_getElem hlt, ← (beq_iff_eq.mp hname)]
    · intro m hm
      obtain ⟨j, hj, rfl⟩ := List.mem_take_iff_getElem.mp hm
      simpa using hbefore j (by omega)
  · rintro ⟨hm, hbefore⟩
    obtain ⟨hlt, hm'⟩ := List.getElem?_eq_some_iff.mp hm
    refine ⟨index, ?_, (field, τ), hm, rfl, rfl⟩
    rw [List.findIdx?_eq_some_iff_getElem]
    refine ⟨hlt, by simp [hm'], ?_⟩
    intro j hj
    simpa using hbefore _ (List.mem_take_iff_getElem.mpr ⟨j, by omega, rfl⟩)

theorem Expr.name?_eq_some_iff {e : Expr} {x : String} :
    e.name? = some x ↔ ∃ n, e = .name x n := by
  constructor
  · intro h
    cases e with
    | name y n =>
      obtain rfl : y = x := Option.some.inj h
      exact ⟨n, rfl⟩
    | _ => cases h
  · rintro ⟨n, rfl⟩
    rfl

theorem checkTarget_eq_ok_iff {target : Expr} {u : Unit} :
    checkTarget target = .ok u ↔ ∃ x n, target = .name x n := by
  simp only [← Expr.name?_eq_some_iff, ← Option.isSome_iff_exists]
  unfold checkTarget
  split <;> simp_all

theorem checkMember_eq_ok_iff {target : Ty} {field : Expr} {span : Span} {index : Nat}
    {τ : Ty} : checkMember target field span = .ok (index, τ) ↔
      ∃ r members x n, target = .record r members ∧ field = .name x n ∧
        members[index]? = some (x, τ) ∧ ∀ m ∈ members.take index, m.1 ≠ x := by
  unfold checkMember
  split
  case h_1 hname =>
    simp only [reduceCtorEq, false_iff]
    rintro ⟨_, _, _, _, -, rfl, -⟩
    cases hname
  case h_2 name r members hname =>
    obtain ⟨n, rfl⟩ := Expr.name?_eq_some_iff.mp hname
    constructor
    · intro h
      split at h <;> simp at h
      subst h
      exact ⟨r, members, name, n, rfl, rfl, member?_eq_some_iff.mp ‹_›⟩
    · rintro ⟨_, _, _, _, h, h', hm⟩
      cases h
      cases h'
      rw [member?_eq_some_iff.mpr hm]
  case h_3 h =>
    simp only [reduceCtorEq, false_iff]
    rintro ⟨r, members, _, _, rfl, -⟩
    exact h r members rfl

theorem checkCallee_eq_ok_iff {Δ : Context} {Γ : Locals} {callee : String} {count : Nat}
    {span : Span} {params : List Ty} {ret : Ty} :
    checkCallee Δ Γ callee count span = .ok (params, ret) ↔
      ∃ variadic, Callee Δ Γ callee (.function params variadic ret) ∧ params.length ≤ count ∧
        (params.length < count → variadic = true) := by
  have hcallee (σ : Ty) : (Γ.get? callee).or (Δ.function? callee) = some σ ↔
      Callee Δ Γ callee σ := by
    rw [Option.or_eq_some_iff]
    constructor
    · rintro (h | ⟨h, h'⟩)
      · exact .bound h
      · exact .declared h h'
    · rintro (h | ⟨h, h'⟩)
      · exact .inl h
      · exact .inr ⟨h, h'⟩
  simp only [← hcallee]
  unfold checkCallee
  split
  case h_1 h => simp [h]
  case h_2 ps variadic σ h =>
    rw [h]
    split
    · simp
      grind
    · simp
      grind
  case h_3 σ hσ h =>
    simp only [h, reduceCtorEq, false_iff, Option.some.injEq]
    rintro ⟨variadic, rfl, -⟩
    exact hσ _ _ _ rfl

theorem repeated_go_eq_none_iff (seen names : List String) :
    repeated?.go seen names = none ↔ names.Nodup ∧ ∀ name ∈ names, name ∉ seen := by
  induction names generalizing seen with
  | nil => simp [repeated?.go]
  | cons name names ih =>
    unfold repeated?.go
    split
    case isTrue h => simp_all
    case isFalse h =>
      rw [ih]
      simp_all
      grind

theorem repeated?_eq_none_iff (names : List String) : repeated? names = none ↔ names.Nodup := by
  simp [repeated?, repeated_go_eq_none_iff]

theorem checkLambda_eq_ok_iff {params : List String} {types : List Ty} {span : Span} {u : Unit} :
    checkLambda params types span = .ok u ↔ params.length = types.length ∧ params.Nodup := by
  rw [← repeated?_eq_none_iff]
  unfold checkLambda
  split
  · cases h : repeated? params <;> simp_all
  · simp_all

namespace Expr

section
variable {Δ : Context} {Γ : Locals} {f : String} {number : Nat}

theorem TypedArgs.length_le {params : List Ty} {args args' : List Expr}
    (h : TypedArgs Δ Γ params args args') : params.length ≤ args.length := by
  induction args generalizing params args' with
  | nil => cases h; simp
  | cons e es ih =>
    cases h with
    | value _ hes => simpa using ih hes
    | lambda _ _ _ hes => simpa using ih hes
    | extra _ hes => simp

theorem checkArgs_value_iff {params : List Ty} {e : Expr} {es args' : List Expr}
    (he : ∀ names body n, e ≠ .lambda names body n)
    (ihe : ∀ a τ, check Δ Γ e = .ok (a, τ) ↔ Typed Δ Γ e a ∧ a.ty = τ)
    (ihes : ∀ τs args', τs.length ≤ es.length →
      (checkArgs Δ Γ f (number + 1) τs es = .ok args' ↔ TypedArgs Δ Γ τs es args'))
    (hlen : params.length ≤ (e :: es).length) :
    checkArgs Δ Γ f number params (e :: es) = .ok args' ↔
      TypedArgs Δ Γ params (e :: es) args' := by
  rw [checkArgs.eq_3 _ _ _ _ _ _ _ he]
  cases params with
  | nil =>
    simp only [bind_eq_ok_iff, inside_eq_ok, Prod.exists, ihe, Except.ok.injEq, List.tail_nil]
    constructor
    · rintro ⟨a, _, ⟨h, rfl⟩, as, has, rfl⟩
      exact .extra h ((ihes [] as (by simp)).mp has)
    · intro h
      cases h with
      | extra h has => exact ⟨_, _, ⟨h, rfl⟩, _, (ihes [] _ (by simp)).mpr has, rfl⟩
  | cons τ τs =>
    have hlen' : τs.length ≤ es.length := by simpa using hlen
    simp only [bind_eq_ok_iff, inside_eq_ok, Prod.exists, ihe, require_eq_ok, expect_eq_ok,
      Except.ok.injEq, List.tail_cons]
    constructor
    · rintro ⟨a, _, ⟨h, rfl⟩, -, rfl, as, has, rfl⟩
      exact .value h ((ihes τs as hlen').mp has)
    · intro h
      cases h with
      | value h has => exact ⟨_, _, ⟨h, rfl⟩, (), rfl, _, (ihes τs _ hlen').mpr has, rfl⟩
      | lambda => exact absurd rfl (he _ _ _)

theorem checkArgs_lambda_iff {params : List Ty} {names : List String} {body : Expr} {n : Note}
    {es args' : List Expr}
    (ihb : ∀ Γ a τ, check Δ Γ body = .ok (a, τ) ↔ Typed Δ Γ body a ∧ a.ty = τ)
    (ihes : ∀ τs args', τs.length ≤ es.length →
      (checkArgs Δ Γ f (number + 1) τs es = .ok args' ↔ TypedArgs Δ Γ τs es args'))
    (hlen : params.length ≤ (Expr.lambda names body n :: es).length) :
    checkArgs Δ Γ f number params (.lambda names body n :: es) = .ok args' ↔
      TypedArgs Δ Γ params (.lambda names body n :: es) args' := by
  rw [checkArgs]
  constructor
  · intro h
    split at h
    · rename_i σs variadic ret hσ
      obtain ⟨τs, rfl⟩ := List.head?_eq_some_iff.mp hσ
      simp only [bind_eq_ok_iff, inside_eq_ok, Prod.exists, ihb, require_eq_ok, expect_eq_ok,
        checkLambda_eq_ok_iff, Except.ok.injEq, List.tail_cons] at h
      obtain ⟨-, ⟨hnames, hnodup⟩, b, _, ⟨hb, rfl⟩, -, rfl, as, has, rfl⟩ := h
      exact .lambda hnames hnodup hb ((ihes τs as (by simpa using hlen)).mp has)
    · simp at h
  · intro h
    cases h with
    | value h => cases h
    | extra h => cases h
    | lambda hnames hnodup hb has =>
      simp only [List.head?_cons, bind_eq_ok_iff, inside_eq_ok, Prod.exists, ihb, require_eq_ok,
        expect_eq_ok, checkLambda_eq_ok_iff, Except.ok.injEq, List.tail_cons]
      exact ⟨(), ⟨hnames, hnodup⟩, _, _, ⟨hb, rfl⟩, (), rfl, _,
        (ihes _ _ (by simpa using hlen)).mpr has, rfl⟩

end

mutual

theorem check_eq_ok_iff (Δ : Context) (Γ : Locals) :
    ∀ e a τ, check Δ Γ e = .ok (a, τ) ↔ Typed Δ Γ e a ∧ a.ty = τ
  | .integer v n, a, τ | .real v n, a, τ | .text v n, a, τ | .boolean v n, a, τ => by
    simp only [check, settle_eq_ok, Except.ok.injEq]
    constructor
    · rintro ⟨rfl, rfl⟩
      exact ⟨by constructor, rfl⟩
    · rintro ⟨⟨⟩, rfl⟩
      exact ⟨rfl, rfl⟩
  | .name x n, a, τ => by
    simp only [check, settle_eq_ok]
    constructor
    · rintro ⟨h, rfl⟩
      cases hx : Γ.get? x with
      | none => simp [hx] at h
      | some σ =>
        obtain rfl : σ = τ := by simpa [hx] using h
        exact ⟨.name hx, rfl⟩
    · rintro ⟨h, rfl⟩
      cases h with
      | name hx => exact ⟨by rw [hx]; rfl, rfl⟩
  | .unary op e n, a, τ => by
    simp only [check, bind_eq_ok_iff, inside_eq_ok, Prod.exists, check_eq_ok_iff Δ Γ e,
      settle_eq_ok, checkUnary_eq_ok_iff]
    constructor
    · rintro ⟨a, _, ⟨h, rfl⟩, ⟨hop, rfl⟩, rfl⟩
      exact ⟨.unary h hop, rfl⟩
    · rintro ⟨h, rfl⟩
      cases h with
      | unary h hop => exact ⟨_, _, ⟨h, rfl⟩, ⟨hop, rfl⟩, rfl⟩
  | .binary op l r n, a, τ => by
    simp only [check, bind_eq_ok_iff, inside_eq_ok, Prod.exists, check_eq_ok_iff Δ Γ l,
      check_eq_ok_iff Δ Γ r, settle_eq_ok, checkBinary_eq_ok_iff]
    constructor
    · rintro ⟨a, _, ⟨hl, rfl⟩, b, _, ⟨hr, rfl⟩, ⟨hty, hop⟩, rfl⟩
      exact ⟨.binary hl hr hty hop, rfl⟩
    · rintro ⟨h, rfl⟩
      cases h with
      | binary hl hr hty hop => exact ⟨_, _, ⟨hl, rfl⟩, _, _, ⟨hr, rfl⟩, ⟨hty, hop⟩, rfl⟩
  | .member e field ordinal n, a, τ => by
    simp only [check, bind_eq_ok_iff, inside_eq_ok, Prod.exists, check_eq_ok_iff Δ Γ e]
    constructor
    · rintro ⟨a, _, ⟨h, rfl⟩, hm⟩
      split at hm
      · simp at hm
      · rename_i index σ hok
        obtain ⟨r, members, x, fn, hty, rfl, hmem, hfirst⟩ := checkMember_eq_ok_iff.mp hok
        simp only [Except.ok.injEq, Prod.mk.injEq] at hm
        obtain ⟨rfl, rfl⟩ := hm
        exact ⟨.member h hty hmem hfirst, rfl⟩
    · rintro ⟨h, rfl⟩
      cases h with
      | member h hty hmem hfirst =>
        refine ⟨_, _, ⟨h, rfl⟩, ?_⟩
        rw [checkMember_eq_ok_iff.mpr ⟨_, _, _, _, hty, rfl, hmem, hfirst⟩]
        rfl
  | .assign t e n, a, τ => by
    simp only [check, bind_eq_ok_iff, inside_eq_ok, Prod.exists, check_eq_ok_iff Δ Γ t,
      check_eq_ok_iff Δ Γ e, require_eq_ok, expect_eq_ok, checkTarget_eq_ok_iff, Except.ok.injEq,
      Prod.mk.injEq]
    constructor
    · rintro ⟨-, ⟨x, xn, rfl⟩, t, _, ⟨ht, rfl⟩, a, _, ⟨h, rfl⟩, -, hty, rfl, rfl⟩
      cases ht with
      | name hx =>
        obtain rfl := hty
        exact ⟨.assign hx h, rfl⟩
    · rintro ⟨h, rfl⟩
      cases h with
      | assign hx h =>
        exact ⟨(), ⟨_, _, rfl⟩, _, _, ⟨.name hx, rfl⟩, _, _, ⟨h, rfl⟩, (), rfl, rfl, rfl⟩
  | .cond c t e n, a, τ => by
    simp only [check, bind_eq_ok_iff, inside_eq_ok, Prod.exists, check_eq_ok_iff Δ Γ c,
      check_eq_ok_iff Δ Γ t, check_eq_ok_iff Δ Γ e, require_eq_ok, expect_eq_ok, Except.ok.injEq,
      Prod.mk.injEq]
    constructor
    · rintro ⟨c, _, ⟨hc, rfl⟩, -, hb, t, _, ⟨ht, rfl⟩, e, _, ⟨he, rfl⟩, -, hty, rfl, rfl⟩
      exact ⟨.cond hc hb ht he hty, rfl⟩
    · rintro ⟨h, rfl⟩
      cases h with
      | cond hc hb ht he hty =>
        exact ⟨_, _, ⟨hc, rfl⟩, (), hb, _, _, ⟨ht, rfl⟩, _, _, ⟨he, rfl⟩, (), hty, rfl, rfl⟩
  | .lambda _ _ _, a, τ | .array [] _, a, τ => by
    simp only [check, stop_ne_ok, false_iff]
    rintro ⟨⟨⟩, -⟩
  | .call f args n, a, τ => by
    simp only [check, bind_eq_ok_iff, inside_eq_ok, Prod.exists, require_eq_ok,
      checkCallee_eq_ok_iff, Except.ok.injEq, Prod.mk.injEq]
    constructor
    · rintro ⟨params, ret, ⟨variadic, hf, hlen, hextra⟩, args', hargs, rfl, rfl⟩
      exact ⟨.call hf hextra ((checkArgs_eq_ok_iff Δ Γ f 1 params args args' hlen).mp hargs), rfl⟩
    · rintro ⟨h, rfl⟩
      cases h with
      | call hf hextra hargs =>
        have hlen := hargs.length_le
        exact ⟨_, _, ⟨_, hf, hlen, hextra⟩, _,
          (checkArgs_eq_ok_iff Δ Γ f 1 _ args _ hlen).mpr hargs, rfl, rfl⟩
  | .array (e :: es) n, a, τ => by
    simp only [check, bind_eq_ok_iff, inside_eq_ok, Prod.exists, check_eq_ok_iff Δ Γ e,
      checkItems_eq_ok_iff Δ Γ _ es, Except.ok.injEq, Prod.mk.injEq]
    constructor
    · rintro ⟨a, _, ⟨h, rfl⟩, as, has, rfl, rfl⟩
      exact ⟨.array h has, rfl⟩
    · rintro ⟨h, rfl⟩
      cases h with
      | array h has => exact ⟨_, _, ⟨h, rfl⟩, _, has, rfl, rfl⟩
  | .index e i n, a, τ => by
    simp only [check, bind_eq_ok_iff, inside_eq_ok, Prod.exists, check_eq_ok_iff Δ Γ e]
    constructor
    · rintro ⟨a, σ, ⟨h, hσ⟩, hi⟩
      split at hi
      · simp only [bind_eq_ok_iff, inside_eq_ok, Prod.exists, check_eq_ok_iff Δ Γ i,
          require_eq_ok, expect_eq_ok, Except.ok.injEq, Prod.mk.injEq] at hi
        obtain ⟨b, _, ⟨hb, rfl⟩, -, hty, rfl, rfl⟩ := hi
        exact ⟨.index h hσ hb hty, rfl⟩
      · simp at hi
    · rintro ⟨h, rfl⟩
      cases h with
      | index h hσ hb hty =>
        refine ⟨_, _, ⟨h, hσ⟩, ?_⟩
        simp only [bind_eq_ok_iff, inside_eq_ok, Prod.exists, check_eq_ok_iff Δ Γ i,
          require_eq_ok, expect_eq_ok, Except.ok.injEq, Prod.mk.injEq]
        exact ⟨_, _, ⟨hb, rfl⟩, (), hty, rfl, rfl⟩

theorem checkArgs_eq_ok_iff (Δ : Context) (Γ : Locals) (f : String) :
    ∀ (number : Nat) (params : List Ty) args args', params.length ≤ args.length →
      (checkArgs Δ Γ f number params args = .ok args' ↔ TypedArgs Δ Γ params args args')
  | number, params, [], args', hlen => by
    obtain rfl : params = [] := by simpa using hlen
    simp only [checkArgs, Except.ok.injEq]
    constructor
    · rintro rfl
      exact .nil
    · rintro ⟨⟩
      rfl
  | number, params, e :: es, args', hlen => by
    have hes := fun τs => checkArgs_eq_ok_iff Δ Γ f (number + 1) τs es
    cases e with
    | lambda names body n =>
      exact checkArgs_lambda_iff (fun Γ => check_eq_ok_iff Δ Γ body) hes hlen
    | _ => exact checkArgs_value_iff (by simp) (check_eq_ok_iff Δ Γ _) hes hlen

theorem checkItems_eq_ok_iff (Δ : Context) (Γ : Locals) (τ : Ty) :
    ∀ es as, checkItems Δ Γ τ es = .ok as ↔ TypedItems Δ Γ τ es as
  | [], as => by
    simp only [checkItems, Except.ok.injEq]
    constructor
    · rintro rfl
      exact .nil
    · rintro ⟨⟩
      rfl
  | e :: es, as => by
    simp only [checkItems, bind_eq_ok_iff, inside_eq_ok, Prod.exists, check_eq_ok_iff Δ Γ e,
      checkItems_eq_ok_iff Δ Γ τ es, require_eq_ok, expect_eq_ok, Except.ok.injEq]
    constructor
    · rintro ⟨a, _, ⟨h, rfl⟩, -, rfl, as, has, rfl⟩
      exact .cons h has
    · intro h
      cases h with
      | cons h has => exact ⟨_, _, ⟨h, rfl⟩, (), rfl, _, has, rfl⟩

end

end Expr

end PCode
