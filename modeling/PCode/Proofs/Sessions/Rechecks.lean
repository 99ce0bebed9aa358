import PCode.Proofs.Typing.Statements
import PCode.Proofs.Typing.Tables
import PCode.Session

namespace PCode

namespace Ty

mutual

/-- The written type has no `...` in it. -/
def ellipsisFree : Ty → Bool
  | .vararg => false
  | .array element => ellipsisFree element
  | .function params _ ret => ellipsisFreeList params && ellipsisFree ret
  | _ => true

def ellipsisFreeList : List Ty → Bool
  | [] => true
  | ty :: types => ellipsisFree ty && ellipsisFreeList types

end

end Ty

namespace Stmt

mutual

/-- No type that the statement declares or enters is written with `...`. -/
def ellipsisFree : Stmt → Bool
  | .declare _ ty _ => ty.ellipsisFree
  | .record _ members _ => members.all (·.2.ellipsisFree)
  | .defineBlock _ _ _ body _ | .loop _ body _ | .block body _ => ellipsisFreeList body
  | .branch _ thenBody elseBody _ => ellipsisFreeList thenBody && ellipsisFreeList elseBody
  | _ => true

def ellipsisFreeList : List Stmt → Bool
  | [] => true
  | s :: ss => ellipsisFree s && ellipsisFreeList ss

end

end Stmt

section Types

variable {Δ : Context} {w τ : Ty} {ws τs : List Ty} {variadic : Bool}

mutual

theorem Resolves.again {Δ : Context} {w τ : Ty} (hΔ : Δ.Lawful) :
    Resolves Δ w τ → w.ellipsisFree = true → Resolves Δ τ τ
  | .i64, _ => .i64
  | .real, _ => .real
  | .string, _ => .string
  | .bool, _ => .bool
  | .record, _ => .record
  | .array h, hw => .array (h.again hΔ hw)
  | .function hs h, hw => by
    rw [Ty.ellipsisFree, Bool.and_eq_true] at hw
    obtain ⟨rfl, hparams⟩ := hs.again hΔ hw.1
    exact .function hparams (h.again hΔ hw.2)
  | .named hr, _ => by
    obtain ⟨members, rfl, -⟩ := hΔ _ _ hr
    cases members with
    | nil => exact .named hr
    | cons m ms => exact .record

theorem ResolvesParams.again {Δ : Context} {ws τs : List Ty} {variadic : Bool} (hΔ : Δ.Lawful) :
    ResolvesParams Δ ws τs variadic → Ty.ellipsisFreeList ws = true →
      variadic = false ∧ ResolvesParams Δ τs τs false
  | .nil, _ => ⟨rfl, .nil⟩
  | .ellipsis, hws => nomatch hws
  | .cons h hs, hws => by
    rw [Ty.ellipsisFreeList, Bool.and_eq_true] at hws
    obtain ⟨rfl, hparams⟩ := hs.again hΔ hws.2
    exact ⟨rfl, .cons (h.again hΔ hws.1) hparams⟩

end

theorem ResolvesParams.length_eq (h : ResolvesParams Δ ws τs variadic) :
    ws.length = τs.length + variadic.toNat := by
  induction ws generalizing τs with
  | nil =>
    cases h
    rfl
  | cons w ws ih =>
    cases h with
    | ellipsis => rfl
    | cons _ hs =>
      have := ih hs
      simp only [List.length_cons]
      omega

theorem ResolvesParams.flag_eq (h : ResolvesParams Δ τs τs variadic) : variadic = false := by
  have hlength := h.length_eq
  cases variadic with
  | false => rfl
  | true =>
    rw [Bool.toNat_true] at hlength
    omega

mutual

theorem Resolves.ellipsisFree {Δ : Context} {w τ : Ty} :
    Resolves Δ w τ → Resolves Δ τ τ → w.ellipsisFree = true
  | .i64, _ | .real, _ | .string, _ | .bool, _ | .record, _ | .named _, _ => rfl
  | .array h, hτ => by
    cases hτ with
    | array hτ => exact h.ellipsisFree hτ
  | .function hs h, hτ => by
    cases hτ with
    | function hτs hτ =>
      obtain rfl := hτs.flag_eq
      rw [Ty.ellipsisFree, hs.ellipsisFree hτs, h.ellipsisFree hτ]
      rfl

theorem ResolvesParams.ellipsisFree {Δ : Context} {ws τs : List Ty} :
    ResolvesParams Δ ws τs false → ResolvesParams Δ τs τs false → Ty.ellipsisFreeList ws = true
  | .nil, _ => rfl
  | .cons h hs, hτs => by
    cases hτs with
    | cons hτ hτs =>
      rw [Ty.ellipsisFreeList, h.ellipsisFree hτ, hs.ellipsisFree hτs]
      rfl

end

theorem ResolvesMembers.again {ms σs : List (String × Ty)} (hΔ : Δ.Lawful)
    (h : ResolvesMembers Δ ms σs) (hms : ms.all (·.2.ellipsisFree) = true) :
    ResolvesMembers Δ σs σs := by
  induction h with
  | nil => exact .nil
  | cons h _ ih =>
    rw [List.all_cons, Bool.and_eq_true] at hms
    exact .cons (h.again hΔ hms.1) (ih hms.2)

theorem ResolvesMembers.ellipsisFree {ms σs : List (String × Ty)} (h : ResolvesMembers Δ ms σs)
    (hσs : ResolvesMembers Δ σs σs) : ms.all (·.2.ellipsisFree) = true := by
  induction h with
  | nil => rfl
  | cons h _ ih =>
    cases hσs with
    | cons hσ hσs =>
      rw [List.all_cons, h.ellipsisFree hσ, ih hσs]
      rfl

theorem ResolvesMembers.names {ms σs : List (String × Ty)} (h : ResolvesMembers Δ ms σs) :
    σs.map Prod.fst = ms.map Prod.fst := by
  induction h with
  | nil => rfl
  | cons _ _ ih => rw [List.map_cons, List.map_cons, ih]

end Types

namespace Expr

theorem TypedArgs.length_eq {Δ : Context} {Γ : Locals} {τs : List Ty} {es as : List Expr}
    (h : TypedArgs Δ Γ τs es as) : as.length = es.length := by
  induction es generalizing τs as with
  | nil =>
    cases h
    rfl
  | cons e es ih =>
    cases h with
    | value _ hs | lambda _ _ _ hs | extra _ hs => rw [List.length_cons, List.length_cons, ih hs]

mutual

theorem Typed.again {Δ : Context} {Γ : Locals} {e a : Expr} : Typed Δ Γ e a → Typed Δ Γ a a
  | .integer => .integer
  | .real => .real
  | .text => .text
  | .boolean => .boolean
  | .name h => .name h
  | .unary h hop => .unary h.again hop
  | .binary hl hr hty hop => .binary hl.again hr.again hty hop
  | .member h hty hmember hfirst => .member h.again hty hmember hfirst
  | .assign hx h => .assign hx h.again
  | .cond hc htest ht he hty => .cond hc.again htest ht.again he.again hty
  | .call hcallee hmore hargs => .call hcallee (by rwa [hargs.length_eq]) hargs.again
  | .array h hs => .array h.again hs.again
  | .index h hty hi hindex => .index h.again hty hi.again hindex

theorem TypedArgs.again {Δ : Context} {Γ : Locals} {τs : List Ty} {es as : List Expr} :
    TypedArgs Δ Γ τs es as → TypedArgs Δ Γ τs as as
  | .nil => .nil
  | .value h hs => .value h.again hs.again
  | .lambda hlength hnodup h hs => .lambda hlength hnodup h.again hs.again
  | .extra h hs => .extra h.again hs.again

theorem TypedItems.again {Δ : Context} {Γ : Locals} {τ : Ty} {es as : List Expr} :
    TypedItems Δ Γ τ es as → TypedItems Δ Γ τ as as
  | .nil => .nil
  | .cons h hs => .cons h.again hs.again

end

end Expr

section Bindings

variable {Δ : Context} {Γ Γ' : Locals} {es as : List (String × Expr)}

theorem TypedBindings.again (h : TypedBindings Δ Γ es as Γ') : TypedBindings Δ Γ as as Γ' := by
  induction h with
  | nil => exact .nil
  | cons h _ ih => exact .cons h.again ih

theorem TypedBindings.scope_eq {as' : List (String × Expr)} {Γ'' : Locals}
    (h : TypedBindings Δ Γ es as Γ') (h' : TypedBindings Δ Γ es as' Γ'') : Γ'' = Γ' := by
  rw [← checkBindings_eq_ok_iff] at h h'
  rw [h] at h'
  cases h'
  rfl

theorem TypedBindings.names (h : TypedBindings Δ Γ es as Γ') :
    as.map Prod.fst = es.map Prod.fst := by
  induction h with
  | nil => rfl
  | cons _ _ ih => rw [List.map_cons, List.map_cons, ih]

end Bindings

namespace Stmt

mutual

/-- An annotated statement without dots is annotated with what it has, and leads to the same
scope. -/
theorem Typed.again {s a : Stmt} {Δ Δ' : Context} {Γ Γ' : Locals} : Δ.Lawful →
    Typed Δ Γ s a Δ' Γ' → s.ellipsisFree = true → Typed Δ Γ a a Δ' Γ'
  | _, .expr h, _ => .expr h.again
  | hΔ, .declare hw hnew, hs => .declare (hw.again hΔ hs) hnew
  | hΔ, .record hnodup hws hr hf, hs =>
    .record (by rwa [hws.names]) (hws.again hΔ hs) hr hf
  | _, .comment, _ => .comment
  | _, .ret hcurrent h, _ => .ret hcurrent h.again
  | _, .define hdef hlength hnodup hes h, _ =>
    .define hdef hlength (by rwa [hes.names]) hes.again h.again
  | hΔ, .defineBlock hdef hlength hnodup hes hbody, hs =>
    .defineBlock hdef hlength (by rwa [hes.names]) hes.again
      (hbody.again ((hΔ.withDefinition _ _).returning _) hs)
  | hΔ, .loop hc htest hbody, hs => .loop hc.again htest (hbody.again hΔ hs)
  | hΔ, .branch hc htest ht he, hs => by
    rw [ellipsisFree, Bool.and_eq_true] at hs
    -- the second branch is checked in the context behind the first, which is lawful too
    exact .branch hc.again htest (ht.again hΔ hs.1) (he.again (ht.growth.lawful hΔ) hs.2)
  | _, .bind h, _ => .bind h.again
  | hΔ, .block hbody, hs => .block (hbody.again hΔ hs)

theorem TypedList.again {ss as : List Stmt} {Δ Δ' : Context} {Γ Γ' : Locals} : Δ.Lawful →
    TypedList Δ Γ ss as Δ' Γ' → ellipsisFreeList ss = true → TypedList Δ Γ as as Δ' Γ'
  | _, .nil, _ => .nil
  | hΔ, .cons h hs, hfree => by
    rw [ellipsisFreeList, Bool.and_eq_true] at hfree
    exact .cons (h.again hΔ hfree.1) (hs.again (h.growth.lawful hΔ) hfree.2)

end

mutual

/-- If an annotated statement is annotated with what it has, no type in it was written with dots,
and it leads to the same scope. -/
theorem Typed.ellipsisFree {s a : Stmt} {Δ Δ₁ Δ₂ : Context} {Γ Γ₁ Γ₂ : Locals} :
    Typed Δ Γ s a Δ₁ Γ₁ → Typed Δ Γ a a Δ₂ Γ₂ → s.ellipsisFree = true ∧ Δ₂ = Δ₁ ∧ Γ₂ = Γ₁
  | .expr _, ha | .comment, ha | .ret _ _, ha | .bind _, ha | .define _ _ _ _ _, ha => by
    cases ha
    exact ⟨rfl, rfl, rfl⟩
  | .declare hw _, ha => by
    cases ha with
    | declare hτ _ => exact ⟨hw.ellipsisFree hτ, rfl, rfl⟩
  | .record _ hws _ _, ha => by
    cases ha with
    | record _ hτs _ _ => exact ⟨hws.ellipsisFree hτs, rfl, rfl⟩
  | .defineBlock _ _ _ hes hbody, ha => by
    cases ha with
    | defineBlock _ _ _ hes' hbody' =>
      -- the annotated bindings enter the same names at the same types
      obtain rfl := hes.again.scope_eq hes'
      obtain ⟨hfree, rfl, rfl⟩ := hbody.ellipsisFree hbody'
      exact ⟨hfree, rfl, rfl⟩
  | .loop _ _ hbody, ha => by
    cases ha with
    | loop _ _ hbody' =>
      obtain ⟨hfree, rfl, rfl⟩ := hbody.ellipsisFree hbody'
      exact ⟨hfree, rfl, rfl⟩
  | .branch _ _ ht he, ha => by
    cases ha with
    | branch _ _ ht' he' =>
      -- both checks reach the second branch in one context, as they agree on the first
      obtain ⟨hfree, rfl, rfl⟩ := ht.ellipsisFree ht'
      obtain ⟨hfree', rfl, rfl⟩ := he.ellipsisFree he'
      rw [Stmt.ellipsisFree, hfree, hfree']
      exact ⟨rfl, rfl, rfl⟩
  | .block hbody, ha => by
    cases ha with
    | block hbody' =>
      obtain ⟨hfree, rfl, rfl⟩ := hbody.ellipsisFree hbody'
      exact ⟨hfree, rfl, rfl⟩

theorem TypedList.ellipsisFree {ss as : List Stmt} {Δ Δ₁ Δ₂ : Context} {Γ Γ₁ Γ₂ : Locals} :
    TypedList Δ Γ ss as Δ₁ Γ₁ → TypedList Δ Γ as as Δ₂ Γ₂ →
      ellipsisFreeList ss = true ∧ Δ₂ = Δ₁ ∧ Γ₂ = Γ₁
  | .nil, ha => by
    cases ha
    exact ⟨rfl, rfl, rfl⟩
  | .cons h hs, ha => by
    cases ha with
    | cons ha has =>
      obtain ⟨hfree, rfl, rfl⟩ := h.ellipsisFree ha
      obtain ⟨hfree', rfl, rfl⟩ := hs.ellipsisFree has
      rw [ellipsisFreeList, hfree, hfree']
      exact ⟨rfl, rfl, rfl⟩

end

end Stmt

/-- A second check gives what the first gave exactly if no type is written with `...`. -/
theorem Program.recheck_iff_ellipsisFree {program typed : Program} {Δ : Context}
    (h : program.check .empty = .ok (typed, Δ)) :
    typed.check .empty = .ok (typed, Δ) ↔ Stmt.ellipsisFreeList program = true := by
  obtain ⟨Γ, htyped⟩ := Program.check_eq_ok_iff.mp h
  rw [Program.check_eq_ok_iff]
  constructor
  · intro ⟨Γ', hagain⟩
    exact (htyped.ellipsisFree hagain).1
  · intro hfree
    exact ⟨Γ, htyped.again Context.empty_lawful hfree⟩

/-- A record, a function that takes one, and a call. -/
def recordText : String :=
  "set p=(a i64)\nf:p->i64\nf q=q.a\nmain:->i64\nmain=f(p(1))"

theorem recordText_ellipsisFree : (match Program.parse recordText with
    | .ok program => (program.check .empty).isOk && Stmt.ellipsisFreeList program
    | .error _ => false) = true := by
  decide +kernel

theorem recordText_rechecks : ∃ program typed Δ, Program.parse recordText = .ok program ∧
    program.check .empty = .ok (typed, Δ) ∧ typed.check .empty = .ok (typed, Δ) := by
  have h := recordText_ellipsisFree
  split at h
  · rename_i program hparse
    rw [Bool.and_eq_true] at h
    cases hcheck : program.check .empty with
    | error stopped =>
      rw [hcheck] at h
      cases h.1
    | ok answer =>
      exact ⟨program, answer.1, answer.2, hparse, hcheck,
        (Program.recheck_iff_ellipsisFree hcheck).mpr h.2⟩
  · cases h

/-- A function that takes further arguments, and a call with one. -/
def dotsText : String :=
  "f:i64 ...->i64\nf n=n\nmain:->i64\nmain=f(1 2)"

theorem dotsText_stops : (match checkText dotsText with
    | .ok (typed, _) => match typed.check .empty with
      | .error stopped => stopped.error.fault.kind == .parameterCountMismatch
      | .ok _ => false
    | .error _ => false) = true := by
  decide +kernel

/-- The second check has forgotten that the function takes further arguments. -/
theorem dotsText_recheck_stops : ∃ typed Δ stopped, checkText dotsText = .ok (typed, Δ) ∧
    typed.check .empty = .error stopped ∧
    stopped.error.fault.kind = .parameterCountMismatch := by
  have h := dotsText_stops
  split at h
  · rename_i typed Δ hcheck
    split at h
    · rename_i stopped hagain
      exact ⟨typed, Δ, stopped, hcheck, hagain, by simpa using h⟩
    · cases h
  · cases h

end PCode
