import PCode.Proofs.Grammar.Spans
import PCode.Proofs.Typing.Rules

namespace PCode

namespace SpanTree

mutual

/-- Spans of nodes of a tree, none inside another, from left to right. -/
inductive Picks : SpanTree → List Span → Prop
  | self {content span children} : Picks (.node content span children) [span]
  | inside {content span children picked} : PicksList children picked →
      Picks (.node content span children) picked

/-- The same of trees in a row. -/
inductive PicksList : List SpanTree → List Span → Prop
  | nil : PicksList [] []
  | cons {tree trees picked others} : Picks tree picked → PicksList trees others →
      PicksList (tree :: trees) (picked ++ others)

end

theorem PicksList.append {trees trees' : List SpanTree} {picked others : List Span}
    (h : PicksList trees picked) (h' : PicksList trees' others) :
    PicksList (trees ++ trees') (picked ++ others) := by
  induction trees generalizing picked with
  | nil =>
    cases h
    exact h'
  | cons tree trees ih =>
    cases h with
    | cons htree htrees =>
      rw [List.append_assoc]
      exact .cons htree (ih htrees)

theorem Picks.single {tree : SpanTree} {picked : List Span} (h : Picks tree picked) :
    PicksList [tree] picked := by
  have hlist := PicksList.cons h .nil
  rwa [List.append_nil] at hlist

mutual

theorem picks_nothing : ∀ tree : SpanTree, Picks tree []
  | .node _ _ children => .inside (picksList_nothing children)

theorem picksList_nothing : ∀ trees : List SpanTree, PicksList trees []
  | [] => .nil
  | tree :: trees => .cons (picks_nothing tree) (picksList_nothing trees)

end

/-- Each span ends before the next one starts. -/
def Ordered (spans : List Span) : Prop :=
  spans.Pairwise fun first second => first.stop ≤ second.start

variable {source : Source}

mutual

theorem Placed.ordered : ∀ {tree : SpanTree} {picked : List Span},
    tree.Placed source → Picks tree picked →
      (∀ span ∈ picked, tree.span.start ≤ span.start ∧ span.stop ≤ tree.span.stop) ∧
      Ordered picked
  | .node _ _ _, _, _, .self =>
    ⟨List.forall_mem_singleton.mpr ⟨Nat.le_refl _, Nat.le_refl _⟩, List.pairwise_singleton _ _⟩
  | .node _ _ _, _, .node _ _ _ _ _ _ contains increasing placed, .inside h => by
    obtain ⟨hinside, hordered⟩ := ordered_of_placed placed increasing h
    refine ⟨?_, hordered⟩
    intro span hspan
    obtain ⟨child, hchild, hstart, hstop⟩ := hinside span hspan
    obtain ⟨hleft, hright⟩ := contains child hchild
    exact ⟨Nat.le_trans hleft hstart, Nat.le_trans hstop hright⟩

/-- What is picked from trees that follow each other is in order, as each span lies in its tree. -/
theorem ordered_of_placed {trees : List SpanTree} {picked : List Span} :
    (∀ tree ∈ trees, tree.Placed source) → Increasing trees → PicksList trees picked →
      (∀ span ∈ picked, ∃ tree ∈ trees,
        tree.span.start ≤ span.start ∧ span.stop ≤ tree.span.stop) ∧ Ordered picked
  | _, _, .nil => ⟨List.forall_mem_nil _, List.Pairwise.nil⟩
  | hplaced, hincreasing, .cons h hs => by
    obtain ⟨htree, htrees⟩ := List.forall_mem_cons.mp hplaced
    obtain ⟨hbefore, hrest⟩ := List.pairwise_cons.mp hincreasing
    obtain ⟨hinside, hordered⟩ := htree.ordered h
    obtain ⟨hothers, hordered'⟩ := ordered_of_placed htrees hrest hs
    refine ⟨List.forall_mem_append.mpr ⟨?_, ?_⟩,
      List.pairwise_append.mpr ⟨hordered, hordered', ?_⟩⟩
    · intro span hspan
      exact ⟨_, List.mem_cons_self, hinside span hspan⟩
    · intro span hspan
      obtain ⟨other, hother, hwithin⟩ := hothers span hspan
      exact ⟨other, List.mem_cons_of_mem _ hother, hwithin⟩
    · intro span hspan span' hspan'
      obtain ⟨other, hother, hstart, -⟩ := hothers span' hspan'
      calc span.stop
        _ ≤ _ := (hinside span hspan).2
        _ ≤ other.span.start := hbefore other hother
        _ ≤ span'.start := hstart

end

end SpanTree

/-- What a literal stands for. -/
inductive Constant where
  | integer (value : Int64)
  | real (bits : Int64)
  | boolean (value : Bool)
  | text (value : String)
deriving DecidableEq

/-- A literal, and where it stands. -/
structure Literal where
  span : Span
  value : Constant
deriving DecidableEq

namespace Expr

mutual

/-- The literals of an expression, in the order of the source. There is none in the name of a member
or of a variable that is assigned to. -/
@[simp] def literals : Expr → List Literal
  | .integer value note => [⟨note.span, .integer value⟩]
  | .real bits note => [⟨note.span, .real bits⟩]
  | .text value note => [⟨note.span, .text value⟩]
  | .boolean value note => [⟨note.span, .boolean value⟩]
  | .name .. => []
  | .unary _ operand _ => operand.literals
  | .binary _ left right _ => left.literals ++ right.literals
  | .member target _ _ _ => target.literals
  | .assign _ value _ => value.literals
  | .cond test thenValue elseValue _ =>
    test.literals ++ (thenValue.literals ++ elseValue.literals)
  | .lambda _ body _ => body.literals
  | .call _ args _ => literalsList args
  | .array items _ => literalsList items
  | .index target position _ => target.literals ++ position.literals

@[simp] def literalsList : List Expr → List Literal
  | [] => []
  | e :: es => e.literals ++ literalsList es

end

end Expr

/-- The literals of bindings. -/
def bindingLiterals (bindings : List (String × Expr)) : List Literal :=
  bindings.flatMap (·.2.literals)

namespace Stmt

mutual

@[simp] def literals : Stmt → List Literal
  | .declare .. | .record .. | .comment .. => []
  | .expr value _ | .ret value _ | .bind _ value _ => value.literals
  | .define _ _ locals value _ => bindingLiterals locals ++ value.literals
  | .defineBlock _ _ locals body _ => bindingLiterals locals ++ literalsList body
  | .block body _ => literalsList body
  | .loop test body _ => test.literals ++ literalsList body
  | .branch test thenBody elseBody _ =>
    test.literals ++ (literalsList thenBody ++ literalsList elseBody)

@[simp] def literalsList : List Stmt → List Literal
  | [] => []
  | s :: ss => s.literals ++ literalsList ss

end

end Stmt

namespace Expr

mutual

theorem Typed.stays {Δ : Context} {Γ : Locals} {e a : Expr} :
    Typed Δ Γ e a → a.spanTree = e.spanTree ∧ a.literals = e.literals
  | .integer | .real | .text | .boolean | .name _ => ⟨rfl, rfl⟩
  | .unary h _ | .member h _ _ _ | .assign _ h => by
    simp only [spanTree, literals, h.stays, and_self]
  | .binary hl hr _ _ | .index hl _ hr _ => by
    simp only [spanTree, literals, hl.stays, hr.stays, and_self]
  | .cond hc _ ht he _ => by
    simp only [spanTree, literals, hc.stays, ht.stays, he.stays, and_self]
  | .call _ _ hargs => by simp only [spanTree, literals, hargs.stay, and_self]
  | .array h hs => by
    simp only [spanTree, spanTrees, literals, literalsList, h.stays, hs.stay, and_self]

theorem TypedArgs.stay {Δ : Context} {Γ : Locals} {τs : List Ty} {es as : List Expr} :
    TypedArgs Δ Γ τs es as → spanTrees as = spanTrees es ∧ literalsList as = literalsList es
  | .nil => ⟨rfl, rfl⟩
  | .value h hs | .extra h hs => by
    simp only [spanTrees, literalsList, h.stays, hs.stay, and_self]
  | .lambda _ _ h hs => by
    simp only [spanTree, spanTrees, literals, literalsList, h.stays, hs.stay, and_self]

theorem TypedItems.stay {Δ : Context} {Γ : Locals} {τ : Ty} {es as : List Expr} :
    TypedItems Δ Γ τ es as → spanTrees as = spanTrees es ∧ literalsList as = literalsList es
  | .nil => ⟨rfl, rfl⟩
  | .cons h hs => by simp only [spanTrees, literalsList, h.stays, hs.stay, and_self]

end

end Expr

theorem TypedBindings.stay {Δ : Context} {Γ Γ' : Locals} {es as : List (String × Expr)}
    (h : TypedBindings Δ Γ es as Γ') : as.map (·.2.spanTree) = es.map (·.2.spanTree) ∧
      bindingLiterals as = bindingLiterals es := by
  unfold bindingLiterals
  induction h with
  | nil => exact ⟨rfl, rfl⟩
  | cons h _ ih => simp only [List.map_cons, List.flatMap_cons, h.stays, ih, and_self]

namespace Stmt

mutual

theorem Typed.stays {s a : Stmt} {Δ Δ' : Context} {Γ Γ' : Locals} :
    Typed Δ Γ s a Δ' Γ' → a.spanTree = s.spanTree ∧ a.literals = s.literals
  | .declare _ _ | .record _ _ _ _ | .comment => ⟨rfl, rfl⟩
  | .expr h | .ret _ h | .bind h => by simp only [spanTree, literals, h.stays, and_self]
  | .define _ _ _ hes h => by simp only [spanTree, literals, hes.stay, h.stays, and_self]
  | .defineBlock _ _ _ hes hbody => by
    simp only [spanTree, literals, hes.stay, hbody.stay, and_self]
  | .block hbody => by simp only [spanTree, literals, hbody.stay, and_self]
  | .loop hc _ hbody => by simp only [spanTree, literals, hc.stays, hbody.stay, and_self]
  | .branch hc _ ht he => by
    simp only [spanTree, literals, hc.stays, ht.stay, he.stay, and_self]

theorem TypedList.stay {ss as : List Stmt} {Δ Δ' : Context} {Γ Γ' : Locals} :
    TypedList Δ Γ ss as Δ' Γ' → spanTrees as = spanTrees ss ∧ literalsList as = literalsList ss
  | .nil => ⟨rfl, rfl⟩
  | .cons h hs => by simp only [spanTrees, literalsList, h.stays, hs.stay, and_self]

end

end Stmt

theorem Program.Typed.spanTrees_eq {Δ Δ' : Context} {program typed : Program}
    (h : program.Typed Δ typed Δ') : typed.spanTrees = program.spanTrees := by
  obtain ⟨Γ, h⟩ := h
  exact h.stay.1

end PCode
