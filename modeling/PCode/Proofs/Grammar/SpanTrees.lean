import PCode.Proofs.Grammar.Progress
import PCode.Syntax.Outline

namespace PCode

/-- What a leaf of a tree says of the text under it. -/
inductive Content where
  | name (name : String)
  | boolean (value : Bool)
  | integer (value : Int64)
  | other

/-- The text is the name, the keyword, or a decimal numeral of the value. -/
def Content.Spells : Content → List Char → Prop
  | .name x, text => text = x.toList
  | .boolean value, text => text = (if value then "true" else "false").toList
  | .integer value, text => ∃ negative digits, text = Grammar.signText negative ++ digits ∧
      digits ≠ [] ∧ (∀ c ∈ digits, c.isDigit = true) ∧
      value.toInt = if negative then -(Text.spelled 10 digits : Int) else Text.spelled 10 digits
  | .other, _ => True

/-- The spans of a tree: that of a node, and its children in the order of the source. -/
inductive SpanTree where
  | node (content : Content) (span : Span) (children : List SpanTree)

namespace SpanTree

def span : SpanTree → Span
  | .node _ span _ => span

mutual

/-- The spans of the nodes, in preorder. -/
def spans : SpanTree → List Span
  | .node _ span children => span :: spansList children

def spansList : List SpanTree → List Span
  | [] => []
  | tree :: trees => tree.spans ++ spansList trees

end

theorem spansList_append (trees trees' : List SpanTree) :
    spansList (trees ++ trees') = spansList trees ++ spansList trees' := by
  induction trees with
  | nil => rfl
  | cons tree trees ih => simp only [List.cons_append, spansList, ih, List.append_assoc]

/-- Each span ends before the next one starts. -/
def Increasing (trees : List SpanTree) : Prop :=
  trees.Pairwise fun first second => first.span.stop ≤ second.span.start

/-- Every node stands on a stretch of the source, not empty and between two characters at both ends,
that spells what the node says. It contains its children, which follow each other. -/
inductive Placed (source : Source) : SpanTree → Prop
  | node {content : Content} {span : Span} {children : List SpanTree} {text : List Char}
      (nonempty : span.start < span.stop)
      (inside : span.stop ≤ byteLength source.text.toList)
      (starts : (Cursor.at? source.text span.start).isSome)
      (stops : (Cursor.at? source.text span.stop).isSome)
      (slice : source.slice? span = some text)
      (spells : content.Spells text)
      (contains : ∀ child ∈ children,
        span.start ≤ child.span.start ∧ child.span.stop ≤ span.stop)
      (increasing : Increasing children)
      (placed : ∀ child ∈ children, Placed source child) :
      Placed source (.node content span children)

end SpanTree

namespace Expr

mutual

/-- The spans of an expression. -/
def spanTree : Expr → SpanTree
  | .integer value note => .node (.integer value) note.span []
  | .real _ note | .text _ note => .node .other note.span []
  | .boolean value note => .node (.boolean value) note.span []
  | .name x note => .node (.name x) note.span []
  | .unary _ operand note => .node .other note.span [operand.spanTree]
  | .binary _ left right note | .member left right _ note | .assign left right note =>
    .node .other note.span [left.spanTree, right.spanTree]
  | .cond test thenValue elseValue note =>
    .node .other note.span [test.spanTree, thenValue.spanTree, elseValue.spanTree]
  | .lambda _ body note => .node .other note.span [body.spanTree]
  | .call _ args note => .node .other note.span (spanTrees args)
  | .array items note => .node .other note.span (spanTrees items)
  | .index target position note => .node .other note.span [target.spanTree, position.spanTree]

def spanTrees : List Expr → List SpanTree
  | [] => []
  | e :: es => e.spanTree :: spanTrees es

end

theorem spanTrees_eq_map (es : List Expr) : spanTrees es = es.map spanTree := by
  induction es with
  | nil => rfl
  | cons e es ih => rw [spanTrees, ih, List.map_cons]

theorem span_spanTree (e : Expr) : e.spanTree.span = e.span := by
  cases e <;> rfl

mutual

theorem spans_spanTree (e : Expr) : e.spanTree.spans = e.outline.map (·.note.span) := by
  cases e with
  | integer | real | text | boolean | name => rfl
  | unary _ operand =>
    simp [spanTree, SpanTree.spans, SpanTree.spansList, outline, operand.spans_spanTree]
  | binary _ left right | member left right | assign left right =>
    simp [spanTree, SpanTree.spans, SpanTree.spansList, outline, left.spans_spanTree,
      right.spans_spanTree]
  | cond test thenValue elseValue =>
    simp [spanTree, SpanTree.spans, SpanTree.spansList, outline, test.spans_spanTree,
      thenValue.spans_spanTree, elseValue.spans_spanTree]
  | lambda _ body =>
    simp [spanTree, SpanTree.spans, SpanTree.spansList, outline, body.spans_spanTree]
  | call _ args =>
    simp [spanTree, SpanTree.spans, outline, spans_spanTrees args]
  | array items =>
    simp [spanTree, SpanTree.spans, outline, spans_spanTrees items]
  | index target position =>
    simp [spanTree, SpanTree.spans, SpanTree.spansList, outline, target.spans_spanTree,
      position.spans_spanTree]

theorem spans_spanTrees (es : List Expr) :
    SpanTree.spansList (spanTrees es) = (outlineList es).map (·.note.span) := by
  match es with
  | [] => rfl
  | e :: es =>
    simp [spanTrees, SpanTree.spansList, outlineList, e.spans_spanTree, spans_spanTrees es]

end

end Expr

namespace Stmt

mutual

/-- The spans of a statement. -/
def spanTree : Stmt → SpanTree
  | .declare _ _ note | .record _ _ note | .comment _ note => .node .other note.span []
  | .expr value note | .ret value note | .bind _ value note =>
    .node .other note.span [value.spanTree]
  | .define _ _ locals value note =>
    .node .other note.span (locals.map (·.2.spanTree) ++ [value.spanTree])
  | .defineBlock _ _ locals body note =>
    .node .other note.span (locals.map (·.2.spanTree) ++ spanTrees body)
  | .block body note => .node .other note.span (spanTrees body)
  | .loop test body note => .node .other note.span (test.spanTree :: spanTrees body)
  | .branch test thenBody elseBody note =>
    .node .other note.span (test.spanTree :: (spanTrees thenBody ++ spanTrees elseBody))

def spanTrees : List Stmt → List SpanTree
  | [] => []
  | s :: ss => s.spanTree :: spanTrees ss

end

theorem spanTrees_eq_map (ss : List Stmt) : spanTrees ss = ss.map spanTree := by
  induction ss with
  | nil => rfl
  | cons s ss ih => rw [spanTrees, ih, List.map_cons]

theorem spansList_locals (locals : List (String × Expr)) :
    SpanTree.spansList (locals.map (·.2.spanTree)) =
      (locals.flatMap (·.2.outline)).map (·.note.span) := by
  induction locals with
  | nil => rfl
  | cons binding locals ih =>
    rw [List.map_cons, SpanTree.spansList, ih, List.flatMap_cons, List.map_append,
      Expr.spans_spanTree]

mutual

theorem spans_spanTree (s : Stmt) : s.spanTree.spans = s.outline.map (·.note.span) := by
  match s with
  | .declare .. | .record .. | .comment .. => rfl
  | .expr value _ | .ret value _ | .bind _ value _ =>
    simp [spanTree, SpanTree.spans, SpanTree.spansList, outline, value.spans_spanTree]
  | .define _ _ locals value _ =>
    simp [spanTree, SpanTree.spans, SpanTree.spansList, SpanTree.spansList_append, outline,
      spansList_locals, value.spans_spanTree]
  | .defineBlock _ _ locals body _ =>
    simp [spanTree, SpanTree.spans, SpanTree.spansList_append, outline, spansList_locals,
      spans_spanTrees body]
  | .block body _ => simp [spanTree, SpanTree.spans, outline, spans_spanTrees body]
  | .loop test body _ =>
    simp [spanTree, SpanTree.spans, SpanTree.spansList, outline, test.spans_spanTree,
      spans_spanTrees body]
  | .branch test thenBody elseBody _ =>
    simp [spanTree, SpanTree.spans, SpanTree.spansList, SpanTree.spansList_append, outline,
      test.spans_spanTree, spans_spanTrees thenBody, spans_spanTrees elseBody]

theorem spans_spanTrees (ss : List Stmt) :
    SpanTree.spansList (spanTrees ss) = (outlineList ss).map (·.note.span) := by
  match ss with
  | [] => rfl
  | s :: ss =>
    simp [spanTrees, SpanTree.spansList, outlineList, s.spans_spanTree, spans_spanTrees ss]

end

end Stmt

/-- The spans of a program. -/
def Program.spanTrees (program : Program) : List SpanTree :=
  Stmt.spanTrees program

theorem Cursor.slice?_spanTo {source : Source} {a b : Cursor} {text : List Char}
    (ha : Cursor.ofText source.text ≤ a) (h : Between a b text) :
    source.slice? (a.spanTo b) = some text := by
  obtain ⟨before, hbefore, hoffset⟩ := ha
  have hstart : splitAt? source.text.toList a.offset = some (before, a.rest) := by
    refine splitAt?_eq_some_iff.mpr ⟨hbefore, ?_⟩
    rw [hoffset]
    exact (Nat.zero_add _).symm
  have hlength : splitAt? a.rest (b.offset - a.offset) = some (text, b.rest) := by
    refine splitAt?_eq_some_iff.mpr ⟨h.1, ?_⟩
    rw [h.2]
    exact (Nat.add_sub_cancel_left _ _).symm
  simp [Source.slice?, Cursor.spanTo, Span.between, hstart, hlength]

namespace SpanTree

mutual

/-- A tree over the text between two places, and what it says of that text is so. -/
inductive Over : Cursor → Cursor → SpanTree → Prop
  | node {start stop : Cursor} {content : Content} {children : List SpanTree} {text : List Char}
      (forward : start < stop) (between : start.Between stop text) (spells : content.Spells text)
      (row : Row start stop children) : Over start stop (.node content (start.spanTo stop) children)

/-- Trees that stand one behind the other between two places, perhaps with gaps. -/
inductive Row : Cursor → Cursor → List SpanTree → Prop
  | nil {start stop : Cursor} (forward : start ≤ stop) : Row start stop []
  | cons {start first last stop : Cursor} {tree : SpanTree} {trees : List SpanTree}
      (before : start ≤ first) (covered : Over first last tree) (row : Row last stop trees) :
      Row start stop (tree :: trees)

end

variable {a b c d : Cursor} {tree : SpanTree} {trees trees' : List SpanTree}

theorem Over.lt (h : Over a b tree) : a < b := by
  cases h with
  | node forward => exact forward

theorem Over.span_eq (h : Over a b tree) : tree.span = a.spanTo b := by
  cases h with
  | node => rfl

theorem Over.row (h : Over a b tree) : Row a b [tree] :=
  .cons (le_refl _) h (.nil (le_refl _))

namespace Row

theorem le (h : Row a b trees) : a ≤ b := by
  induction trees generalizing a with
  | nil =>
    cases h with
    | nil forward => exact forward
  | cons tree trees ih =>
    cases h with
    | cons before covered row => exact le_trans before (le_trans (le_of_lt covered.lt) (ih row))

theorem mono_left (h : Row b c trees) (hle : a ≤ b) : Row a c trees := by
  cases h with
  | nil forward => exact .nil (le_trans hle forward)
  | cons before covered row => exact .cons (le_trans hle before) covered row

theorem append (h : Row a b trees) (h' : Row b c trees') : Row a c (trees ++ trees') := by
  induction trees generalizing a with
  | nil => exact h'.mono_left h.le
  | cons tree trees ih =>
    cases h with
    | cons before covered row => exact .cons before covered (ih row)

theorem sublist (h : Row a b trees) (hsub : trees'.Sublist trees) : Row a b trees' := by
  induction hsub generalizing a with
  | slnil => exact h
  | cons tree _ ih =>
    cases h with
    | cons before covered row => exact (ih row).mono_left (le_trans before (le_of_lt covered.lt))
  | cons_cons tree _ ih =>
    cases h with
    | cons before covered row => exact .cons before covered (ih row)

theorem single (h : Row a b [tree]) :
    ∃ first last, a ≤ first ∧ Over first last tree ∧ last ≤ b := by
  cases h with
  | cons before covered row => exact ⟨_, _, before, covered, row.le⟩

theorem concat (h : Row a b (trees ++ [tree])) :
    ∃ first last, Row a first trees ∧ Over first last tree ∧ last ≤ b := by
  induction trees generalizing a with
  | nil =>
    obtain ⟨first, last, before, covered, hle⟩ := single h
    exact ⟨first, last, .nil before, covered, hle⟩
  | cons tree trees ih =>
    cases h with
    | cons before covered row =>
      obtain ⟨first, last, hrow, hlast, hle⟩ := ih row
      exact ⟨first, last, .cons before covered hrow, hlast, hle⟩

theorem cover {first last : SpanTree} (trees : List SpanTree)
    (h : Row a b (first :: (trees ++ [last])))
    (hsub : trees'.Sublist (first :: (trees ++ [last]))) :
    Row a b [.node .other (first.span.cover last.span) trees'] := by
  cases h with
  | @cons _ start stop _ _ _ before covered row =>
    obtain ⟨start', stop', hrow, hlast, hle⟩ := concat row
    have hforward : start < stop' :=
      lt_of_lt_of_le covered.lt (le_trans hrow.le (le_of_lt hlast.lt))
    have hspan : first.span.cover last.span = start.spanTo stop' := by
      have h₁ := Cursor.offset_lt_of_lt covered.lt
      have h₂ := Cursor.offset_le_of_le hrow.le
      have h₃ := Cursor.offset_lt_of_lt hlast.lt
      rw [covered.span_eq, hlast.span_eq]
      simp only [Span.cover, Cursor.spanTo, Span.between, Span.stop, Span.mk.injEq]
      omega
    obtain ⟨text, htext⟩ := le_of_lt hforward
    have hall : Row start stop' (first :: (trees ++ [last])) :=
      .cons (le_refl _) covered (hrow.append hlast.row)
    rw [hspan]
    exact .cons before (.node hforward htext trivial (hall.sublist hsub)) (.nil hle)

end Row

end SpanTree

namespace Parser

open SpanTree

variable {α β : Type}

/-- A match leaves a row of trees over what it read, and the row belongs to the value. -/
def Lays (p : Parser α) (R : List SpanTree → α → Prop) : Prop :=
  ∀ ⦃cursor value rest⦄, p cursor = some (value, rest) → ∃ row, Row cursor rest row ∧ R row value

namespace Lays

variable {p q : Parser α} {R : List SpanTree → α → Prop} {S : List SpanTree → β → Prop}

theorem pure {a : α} (h : R [] a) : Lays (Pure.pure a) R := by
  intro cursor value rest heq
  obtain ⟨rfl, rfl⟩ := pure_apply_eq_some_iff.mp heq
  exact ⟨[], .nil (le_refl _), h⟩

theorem reject : Lays Parser.reject R := by
  intro cursor value rest heq
  cases heq

theorem bind {f : α → Parser β} (h : Lays p R)
    (hf : ∀ row a, R row a → Lays (f a) fun row' b => S (row ++ row') b) : Lays (p >>= f) S := by
  intro cursor value rest heq
  obtain ⟨a, mid, ha, hb⟩ := bind_apply_eq_some_iff.mp heq
  obtain ⟨row, hrow, hR⟩ := h ha
  obtain ⟨row', hrow', hS⟩ := hf row a hR hb
  exact ⟨row ++ row', hrow.append hrow', hS⟩

theorem after {f : α → Parser β} (h : Follows p) (hf : ∀ a, Lays (f a) S) : Lays (p >>= f) S := by
  intro cursor value rest heq
  obtain ⟨a, mid, ha, hb⟩ := bind_apply_eq_some_iff.mp heq
  obtain ⟨row, hrow, hS⟩ := hf a hb
  exact ⟨row, hrow.mono_left (h ha), hS⟩

theorem map {f : α → β} (h : Lays p R) (hf : ∀ row a, R row a → S row (f a)) :
    Lays (Parser.map p f) S := by
  rw [map_eq_bind]
  refine h.bind fun row a ha => .pure ?_
  rw [List.append_nil]
  exact hf row a ha

theorem alt (h : Lays p R) (h' : Lays q R) : Lays (Parser.alt p q) R := by
  intro cursor value rest heq
  rcases alt_apply_eq_some heq with hreply | hreply
  · exact h hreply
  · exact h' hreply

theorem choice {ps : List (Parser α)} (h : ∀ p ∈ ps, Lays p R) : Lays (Parser.choice ps) R := by
  intro cursor value rest heq
  obtain ⟨p, hp, hreply⟩ := mem_of_choice heq
  exact h p hp hreply

theorem token (h : Lays p R) : Lays (Parser.token p) R := by
  intro cursor value rest heq
  obtain ⟨row, hrow, hR⟩ := h heq
  exact ⟨row, hrow.mono_left cursor.le_skipSpacing, hR⟩

theorem maybe {T : List SpanTree → Option α → Prop} (h : Lays p R) (hnone : T [] none)
    (hsome : ∀ row a, R row a → T row (some a)) : Lays (Parser.maybe p) T := by
  intro cursor value rest heq
  rcases maybe_apply_eq_some_iff.mp heq with ⟨a, rfl, ha⟩ | ⟨rfl, -, rfl⟩
  · obtain ⟨row, hrow, hR⟩ := h ha
    exact ⟨row, hrow, hsome row a hR⟩
  · exact ⟨[], .nil (le_refl _), hnone⟩

theorem many {first : β} {fold : β → α → β} (h : Lays p R) {start cursor rest : Cursor}
    {value : β} (hfirst : ∃ row, Row start cursor row ∧ S row first)
    (hstep : ∀ row acc row' a start stop, S row acc → R row' a → Row start stop (row ++ row') →
      ∃ row, Row start stop row ∧ S row (fold acc a))
    (heq : Parser.many p first fold cursor = some (value, rest)) :
    ∃ row, Row start rest row ∧ S row value := by
  have hall := foldMatches_keeps (p := p)
    (J := fun acc _ cursor => ∃ row, Row start cursor row ∧ S row acc) fold ?_
    (cursor.rest.length + 1) first 0 hfirst
  · cases heq
    exact hall
  · rintro acc _ mid a behind ⟨row, hrow, hacc⟩ ha
    obtain ⟨row', hrow', ha⟩ := h ha
    exact hstep row acc row' a _ _ hacc ha (hrow.append hrow')

theorem list {f : α → SpanTree} (h : Lays p fun row a => row = [f a]) :
    Lays (Parser.list p) fun row as => row = as.map f := by
  refine map (R := fun row as => row = as.reverse.map f) ?_ fun row as hrow => hrow
  intro cursor value rest heq
  refine h.many (S := fun row as => row = as.reverse.map f) ⟨[], .nil (le_refl _), rfl⟩ ?_ heq
  intro row acc row' a start stop hacc ha hrow
  refine ⟨_, hrow, ?_⟩
  rw [hacc, ha, List.reverse_cons, List.map_append, List.map_singleton]

end Lays

end Parser

end PCode
