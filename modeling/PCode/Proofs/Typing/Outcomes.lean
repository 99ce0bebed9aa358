import Mathlib.Data.List.Basic
import PCode.Proofs.Typing.Annotations
import PCode.Proofs.Typing.Positions

namespace PCode

/-- A statement with the innermost definition around it. -/
structure Owned where
  owner : Option String
  stmt : Stmt

namespace Stmt

mutual

/-- The statements in a statement, itself first, of which the innermost definition around the whole
is given. -/
def owned (owner : Option String) : Stmt → List Owned
  | s@(.expr ..) | s@(.declare ..) | s@(.record ..) | s@(.comment ..) | s@(.ret ..)
  | s@(.define ..) | s@(.bind ..) => [⟨owner, s⟩]
  | s@(.defineBlock name _ _ body _) => ⟨owner, s⟩ :: ownedList (some name) body
  | s@(.loop _ body _) | s@(.block body _) => ⟨owner, s⟩ :: ownedList owner body
  | s@(.branch _ thenBody elseBody _) =>
    ⟨owner, s⟩ :: (ownedList owner thenBody ++ ownedList owner elseBody)

def ownedList (owner : Option String) : List Stmt → List Owned
  | [] => []
  | s :: ss => s.owned owner ++ ownedList owner ss

end

def isReturn : Stmt → Bool
  | .ret .. => true
  | _ => false

/-- The type of what a `return` returns. -/
def returned : Stmt → Ty
  | .ret value _ => value.ty
  | _ => .unknown

/-- The `return`s in a statement that are not inside a definition in it. -/
def exits (s : Stmt) : List Stmt :=
  ((s.owned none).filter fun o => o.owner.isNone && o.stmt.isReturn).map Owned.stmt

/-- Statements whose type is a list of outcomes. -/
def isControl : Stmt → Bool
  | .loop .. | .branch .. | .block .. | .ret .. | .comment .. => true
  | _ => false

theorem mem_owned_self (owner : Option String) (s : Stmt) : ⟨owner, s⟩ ∈ s.owned owner := by
  cases s <;> simp [owned]

theorem mem_ownedList {owner : Option String} {s : Stmt} {ss : List Stmt} (h : s ∈ ss) :
    ⟨owner, s⟩ ∈ ownedList owner ss := by
  induction ss with
  | nil => cases h
  | cons t ss ih =>
    rw [ownedList, List.mem_append]
    rcases List.mem_cons.mp h with rfl | h
    · exact .inl (mem_owned_self owner s)
    · exact .inr (ih h)

section Exits

mutual

theorem isSome_of_mem_owned {name : String} {o : Owned} : ∀ {s : Stmt},
    o ∈ s.owned (some name) → o.owner.isSome = true
  | .expr .., h | .declare .., h | .record .., h | .comment .., h | .ret .., h | .define .., h
  | .bind .., h => by
    cases List.mem_singleton.mp h
    rfl
  | .defineBlock _ _ _ body _, h | .loop _ body _, h | .block body _, h => by
    rcases List.mem_cons.mp h with rfl | h
    · rfl
    · exact isSome_of_mem_ownedList h
  | .branch _ t e _, h => by
    rcases List.mem_cons.mp h with rfl | h
    · rfl
    · rcases List.mem_append.mp h with h | h
      · exact isSome_of_mem_ownedList h
      · exact isSome_of_mem_ownedList h

theorem isSome_of_mem_ownedList {name : String} {o : Owned} : ∀ {ss : List Stmt},
    o ∈ ownedList (some name) ss → o.owner.isSome = true
  | [], h => nomatch h
  | s :: ss, h => by
    rcases List.mem_append.mp h with h | h
    · exact isSome_of_mem_owned h
    · exact isSome_of_mem_ownedList h

end

theorem map_stmt_filter_ownedList (ss : List Stmt) :
    ((ownedList none ss).filter fun o => o.owner.isNone && o.stmt.isReturn).map Owned.stmt =
      ss.flatMap exits := by
  induction ss with
  | nil => rfl
  | cons s ss ih =>
    rw [ownedList, List.filter_append, List.map_append, ih, List.flatMap_cons, exits]

variable {c : Expr} {e t body : List Stmt} {n : Note}

@[simp] theorem exits_ret {value : Expr} : (Stmt.ret value n).exits = [.ret value n] := rfl

@[simp] theorem exits_loop : (Stmt.loop c body n).exits = body.flatMap exits :=
  map_stmt_filter_ownedList body

@[simp] theorem exits_block : (Stmt.block body n).exits = body.flatMap exits :=
  map_stmt_filter_ownedList body

@[simp] theorem exits_branch :
    (Stmt.branch c t e n).exits = t.flatMap exits ++ e.flatMap exits := by
  rw [← map_stmt_filter_ownedList, ← map_stmt_filter_ownedList, ← List.map_append,
    ← List.filter_append]
  rfl

@[simp] theorem exits_defineBlock {name : String} {params : List String}
    {locals : List (String × Expr)} : (Stmt.defineBlock name params locals body n).exits = [] := by
  have hnone : (ownedList (some name) body).filter
      (fun o => o.owner.isNone && o.stmt.isReturn) = [] := by
    rw [List.filter_eq_nil_iff]
    intro o ho
    have hsome := isSome_of_mem_ownedList ho
    rw [Option.isSome_iff_ne_none] at hsome
    simp [hsome]
  exact congrArg (List.map Owned.stmt) hnone

end Exits

end Stmt

/-- The statements of a program, each with the innermost definition around it. -/
def Program.owned (program : Program) : List Owned :=
  Stmt.ownedList none program

section Collects

open Stmt (exits returned)

/-- The type of a statement lists what its `return`s return, each of them what the function around
it is declared to return. -/
structure Owned.Collects (Ω : Context) (o : Owned) : Prop where
  outcomes : o.stmt.ty.outcomes = o.stmt.exits.map returned
  list : o.stmt.isControl = true → ∃ types, o.stmt.ty = .list types
  declared : ∀ exit ∈ o.stmt.exits, ∃ name types variadic, o.owner = some name ∧
    Ω.function? name = some (.function types variadic exit.returned)

/-- What is checked inside a definition is to be returned by it. -/
def Registered (Ω : Context) (owner : Option String) (current : Option Ty) : Prop :=
  ∀ ret, current = some ret → ∃ name types variadic, owner = some name ∧
    Ω.function? name = some (.function types variadic ret)

theorem Ty.Complete.outcomes {Ω : Context} {τ : Ty} (h : τ.Complete Ω) : τ.outcomes = [] := by
  cases h <;> rfl

variable {Ω : Context} {owner : Option String}

theorem Owned.Collects.silent {s : Stmt} (hexits : s.exits = []) (houtcomes : s.ty.outcomes = [])
    (hlist : s.isControl = true → ∃ types, s.ty = .list types) :
    Owned.Collects Ω ⟨owner, s⟩ where
  outcomes := by
    show s.ty.outcomes = s.exits.map returned
    rw [hexits, houtcomes, List.map_nil]
  list := hlist
  declared := by
    show ∀ exit ∈ s.exits, _
    rw [hexits]
    exact List.forall_mem_nil _

theorem Owned.Collects.of_parts {s : Stmt} (parts : List Stmt)
    (hexits : s.exits = parts.flatMap exits) (hty : s.ty = .list (returns parts))
    (h : ∀ part ∈ parts, Owned.Collects Ω ⟨owner, part⟩) :
    Owned.Collects Ω ⟨owner, s⟩ where
  outcomes := by
    show s.ty.outcomes = s.exits.map returned
    rw [hexits, hty, List.map_flatMap]
    exact List.flatMap_congr fun part hpart => (h part hpart).outcomes
  list _ := ⟨_, hty⟩
  declared := by
    show ∀ exit ∈ s.exits, _
    rw [hexits]
    intro exit hexit
    obtain ⟨part, hpart, hexit⟩ := List.mem_flatMap.mp hexit
    exact (h part hpart).declared exit hexit

namespace Stmt

mutual

/-- The types of a typed statement and of those inside it collect what they return. The induction
carries the register with the type that is to be returned. -/
theorem Typed.collects {s a : Stmt} {Δ Δ' : Context} {Γ Γ' : Locals} {owner : Option String} :
    Typed Δ Γ s a Δ' Γ' → s.WellFormed → Δ'.Extends Ω → Context.Complete Ω Δ → Γ.Complete Ω →
      Registered Ω owner Δ.current → ∀ o ∈ a.owned owner, o.Collects Ω
  | .expr h, _, _, hΔ, hΓ, _ =>
    List.forall_mem_singleton.mpr (.silent rfl (h.annotated hΔ hΓ).ty.outcomes nofun)
  | .bind h, _, _, hΔ, hΓ, _ =>
    List.forall_mem_singleton.mpr (.silent rfl (h.annotated hΔ hΓ).ty.outcomes nofun)
  | .declare hw _, hwf, _, hΔ, _, _ => by
    cases hwf with
    | declare _ hwf _ =>
      exact List.forall_mem_singleton.mpr (.silent rfl (hw.complete hΔ hwf).outcomes nofun)
  | .record .., _, _, _, _, _ =>
    List.forall_mem_singleton.mpr (.silent rfl rfl nofun)
  | .define .., _, _, _, _, _ =>
    List.forall_mem_singleton.mpr (.silent rfl rfl nofun)
  | .comment, _, _, _, _, _ =>
    List.forall_mem_singleton.mpr (.silent rfl rfl fun _ => ⟨_, rfl⟩)
  | .ret hcurrent h, _, _, _, _, hreg =>
    List.forall_mem_singleton.mpr
      ⟨rfl, fun _ => ⟨_, rfl⟩, List.forall_mem_singleton.mpr (hreg _ hcurrent)⟩
  | .defineBlock hdef _ _ hes hbody, hwf, hΩ, hΔ, hΓ, _ => by
    cases hwf with
    | defineBlock _ _ hwfs _ =>
      have hf := hΔ.functions _ _ hdef.declared
      obtain ⟨-, -, hΓ₁⟩ := hes.annotated (hΔ.withDefinition _ _) (hΓ.bindAll hf.params _)
      have hkept := hbody.growth.kept.functions hdef.declared
      refine List.forall_mem_cons.mpr ⟨.silent exits_defineBlock rfl nofun, ?_⟩
      refine hbody.collects hwfs ⟨hΩ.functions, hΩ.records⟩
        ((hΔ.withDefinition _ _).returning _) hΓ₁ ?_
      -- the body is to return what its own function is declared to return
      intro ret hret
      cases hret
      exact ⟨_, _, _, rfl, hΩ.functions hkept⟩
  | .loop _ _ hbody, hwf, hΩ, hΔ, hΓ, hreg => by
    cases hwf with
    | loop _ hwfs _ =>
      have hinner := hbody.collects hwfs hΩ hΔ hΓ hreg
      exact List.forall_mem_cons.mpr
        ⟨.of_parts _ exits_loop rfl fun _ hpart => hinner _ (mem_ownedList hpart), hinner⟩
  | .block hbody, hwf, hΩ, hΔ, hΓ, hreg => by
    cases hwf with
    | block hwfs _ =>
      have hinner := hbody.collects hwfs hΩ hΔ hΓ hreg
      exact List.forall_mem_cons.mpr
        ⟨.of_parts _ exits_block rfl fun _ hpart => hinner _ (mem_ownedList hpart), hinner⟩
  | @Typed.branch _ _ _ _ _ _ _ _ _ t' _ e' _ _ _ ht he, hwf, hΩ, hΔ, hΓ, hreg => by
    cases hwf with
    | branch _ hwft hwfe _ =>
      obtain ⟨-, hΔ₁, -⟩ := ht.annotated hwft (he.growth.kept.trans hΩ) hΔ hΓ
      have hthen := ht.collects hwft (he.growth.kept.trans hΩ) hΔ hΓ hreg
      rw [← ht.current] at hreg
      have helse := he.collects hwfe hΩ hΔ₁ hΓ hreg
      refine List.forall_mem_cons.mpr
        ⟨.of_parts (t' ++ e') ?_ ?_ ?_, List.forall_mem_append.mpr ⟨hthen, helse⟩⟩
      · rw [exits_branch, List.flatMap_append]
      · simp only [ty, note, returns, List.flatMap_append]
      · intro part hpart
        rcases List.mem_append.mp hpart with hpart | hpart
        · exact hthen _ (mem_ownedList hpart)
        · exact helse _ (mem_ownedList hpart)

theorem TypedList.collects {ss as : List Stmt} {Δ Δ' : Context} {Γ Γ' : Locals}
    {owner : Option String} : TypedList Δ Γ ss as Δ' Γ' → (∀ s ∈ ss, s.WellFormed) →
      Δ'.Extends Ω → Context.Complete Ω Δ → Γ.Complete Ω → Registered Ω owner Δ.current →
      ∀ o ∈ ownedList owner as, o.Collects Ω
  | .nil, _, _, _, _, _ => List.forall_mem_nil _
  | .cons h hs, hwfs, hΩ, hΔ, hΓ, hreg => by
    rw [List.forall_mem_cons] at hwfs
    have hΩ₁ := hs.growth.kept.trans hΩ
    obtain ⟨-, hΔ₁, hΓ₁⟩ := h.annotated hwfs.1 hΩ₁ hΔ hΓ
    have hfirst := h.collects hwfs.1 hΩ₁ hΔ hΓ hreg
    rw [← h.current] at hreg
    exact List.forall_mem_append.mpr ⟨hfirst, hs.collects hwfs.2 hΩ hΔ₁ hΓ₁ hreg⟩

end

end Stmt

end Collects

section Order

namespace Stmt

open SpanTree (Picks PicksList picks_nothing picksList_nothing)

mutual

/-- The `return`s of a statement are nodes of its tree of which none lies inside another. -/
theorem exits_picks : ∀ s : Stmt, Picks s.spanTree (s.exits.map span)
  | .expr .. | .declare .. | .record .. | .comment .. | .define .. | .bind .. => picks_nothing _
  | .ret .. => .self
  | .defineBlock .. => by
    rw [exits_defineBlock]
    exact picks_nothing _
  | .loop test body _ => by
    rw [exits_loop, spanTree]
    exact .inside (.cons (picks_nothing test.spanTree) (exits_picksList body))
  | .block body _ => by
    rw [exits_block, spanTree]
    exact .inside (exits_picksList body)
  | .branch test t e _ => by
    rw [exits_branch, spanTree, List.map_append, ← List.nil_append (List.map _ _ ++ _)]
    exact .inside
      (.cons (picks_nothing test.spanTree) ((exits_picksList t).append (exits_picksList e)))

theorem exits_picksList : ∀ ss : List Stmt, PicksList (spanTrees ss) ((ss.flatMap exits).map span)
  | [] => .nil
  | s :: ss => by
    rw [spanTrees, List.flatMap_cons, List.map_append]
    exact .cons (exits_picks s) (exits_picksList ss)

end

variable {source : Source} {o : Owned}

mutual

theorem placed_of_mem_owned : ∀ {s : Stmt} {owner : Option String}, s.spanTree.Placed source →
    o ∈ s.owned owner → o.stmt.spanTree.Placed source
  | .expr .., _, h, ho | .declare .., _, h, ho | .record .., _, h, ho | .comment .., _, h, ho
  | .ret .., _, h, ho | .define .., _, h, ho | .bind .., _, h, ho => by
    cases List.mem_singleton.mp ho
    exact h
  | .defineBlock _ _ _ body _, _, h, ho => by
    rcases List.mem_cons.mp ho with rfl | ho
    · exact h
    · cases h with
      | node _ _ _ _ _ _ _ _ placed =>
        exact placed_of_mem_ownedList (List.forall_mem_append.mp placed).2 ho
  | .block body _, _, h, ho => by
    rcases List.mem_cons.mp ho with rfl | ho
    · exact h
    · cases h with
      | node _ _ _ _ _ _ _ _ placed => exact placed_of_mem_ownedList placed ho
  | .loop _ body _, _, h, ho => by
    rcases List.mem_cons.mp ho with rfl | ho
    · exact h
    · cases h with
      | node _ _ _ _ _ _ _ _ placed =>
        exact placed_of_mem_ownedList (List.forall_mem_cons.mp placed).2 ho
  | .branch _ t e _, _, h, ho => by
    rcases List.mem_cons.mp ho with rfl | ho
    · exact h
    · cases h with
      | node _ _ _ _ _ _ _ _ placed =>
        obtain ⟨ht, he⟩ := List.forall_mem_append.mp (List.forall_mem_cons.mp placed).2
        rcases List.mem_append.mp ho with ho | ho
        · exact placed_of_mem_ownedList ht ho
        · exact placed_of_mem_ownedList he ho

theorem placed_of_mem_ownedList : ∀ {ss : List Stmt} {owner : Option String},
    (∀ tree ∈ spanTrees ss, tree.Placed source) → o ∈ ownedList owner ss →
      o.stmt.spanTree.Placed source
  | [], _, _, ho => nomatch ho
  | s :: ss, _, h, ho => by
    rw [spanTrees, List.forall_mem_cons] at h
    rcases List.mem_append.mp ho with ho | ho
    · exact placed_of_mem_owned h.1 ho
    · exact placed_of_mem_ownedList h.2 ho

end

end Stmt

end Order

end PCode
