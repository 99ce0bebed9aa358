import PCode.Proofs.Grammar.SpanTrees

namespace PCode

namespace Grammar

open PCode.Parser SpanTree

/-- The trees of an expression that is read: one, its own. -/
def ExprRow (row : List SpanTree) (e : Expr) : Prop :=
  row = [e.spanTree]

/-- The trees below a form of an expression, whatever its note. -/
def ExprFormRow (row : List SpanTree) (form : Note → Expr) : Prop :=
  ∀ note : Note, (form note).spanTree = .node .other note.span row

def StmtRow (row : List SpanTree) (s : Stmt) : Prop :=
  row = [s.spanTree]

def StmtFormRow (row : List SpanTree) (form : Note → Stmt) : Prop :=
  ∀ note : Note, (form note).spanTree = .node .other note.span row

theorem over_row {start rest : Cursor} {row : List SpanTree} (hlt : start < rest)
    (hrow : Row start rest row) : Row start rest [.node .other (start.spanTo rest) row] := by
  obtain ⟨text, htext⟩ := le_of_lt hlt
  have hover : Over start rest (.node .other (start.spanTo rest) row) :=
    .node hlt htext trivial hrow
  exact hover.row

theorem leaf_lays {α : Type} {p : Parser α} {C : α → Content → Prop} (hp : Advances p)
    (h : ∀ start value rest, start.skipSpacing = start → p start = some (value, rest) →
      ∃ content text, C value content ∧ start.Between rest text ∧ content.Spells text) :
    Lays (token (spanned p)) fun row a => ∃ content, C a.1 content ∧
      row = [.node content a.2 []] := by
  intro cursor value rest heq
  obtain ⟨hvalue, hspan⟩ := spanned_apply_eq_some_iff.mp heq
  obtain ⟨content, text, hcontent, htext, hspells⟩ :=
    h _ _ _ (skipSpacing_skipSpacing cursor) hvalue
  have hlt := hp hvalue
  have hover : Over cursor.skipSpacing rest (.node content value.2 []) := by
    rw [hspan]
    exact .node hlt htext hspells (.nil (le_of_lt hlt))
  exact ⟨_, hover.row.mono_left cursor.le_skipSpacing, content, hcontent, rfl⟩

theorem spannedIdent_lays :
    Lays (token (spanned ident)) fun row a => row = [.node (.name a.1) a.2 []] := by
  have hleaf : Lays (token (spanned ident)) fun row a =>
      ∃ content, content = .name a.1 ∧ row = [.node content a.2 []] := by
    refine leaf_lays (C := fun x content => content = .name x) ident_advances ?_
    intro start x rest hstart hx
    have htext := ident_text hx
    rw [hstart] at htext
    exact ⟨_, _, rfl, htext, rfl⟩
  intro cursor value rest heq
  obtain ⟨row, hrow, content, rfl, hvalue⟩ := hleaf heq
  exact ⟨row, hrow, hvalue⟩

section Expressions

variable {inner operand : Parser Expr}

theorem node_lays {p : Parser (Note → Expr)} (hp : Advances p) (h : Lays p ExprFormRow) :
    Lays (node p) ExprRow := by
  refine .map (.token (p := spanned p) ?_) fun row a ha => ha
  intro cursor value rest heq
  obtain ⟨hvalue, hspan⟩ := spanned_apply_eq_some_iff.mp heq
  obtain ⟨row, hrow, hform⟩ := h hvalue
  refine ⟨_, over_row (hp hvalue) hrow, ?_⟩
  show _ = [_]
  rw [hform, hspan]

theorem leafNode_lays {p : Parser (Note → Expr)} (hp : Advances p)
    (h : ∀ start form rest, start.skipSpacing = start → p start = some (form, rest) →
      ∃ content text, (∀ note : Note, (form note).spanTree = .node content note.span []) ∧
        start.Between rest text ∧ content.Spells text) : Lays (node p) ExprRow := by
  refine .map (leaf_lays hp h) ?_
  rintro row ⟨form, span⟩ ⟨content, hform, rfl⟩
  show _ = [_]
  rw [hform]

theorem number_lays : Lays number ExprRow := by
  intro cursor value rest heq
  obtain ⟨n, hnumeral, hn⟩ := number_apply_eq_some_iff.mp heq
  have hlt := numeral_advances hnumeral
  unfold numeralExpr? at hn
  split at hn
  · cases hn
    exact ⟨_, (over_row hlt (.nil (le_of_lt hlt))).mono_left cursor.le_skipSpacing, rfl⟩
  · rename_i hfraction
    obtain ⟨v, hv, rfl⟩ := Option.map_eq_some_iff.mp hn
    obtain ⟨htext, hne, hdigits⟩ := numeral_text hnumeral hfraction
    have hspells : (Content.integer v).Spells (signText n.negative ++ n.whole) :=
      ⟨n.negative, n.whole, rfl, hne, hdigits, toInt_of_integer? hv⟩
    have hover : Over cursor.skipSpacing _
        (.node (.integer v) (cursor.skipSpacing.spanTo _) []) :=
      .node hlt htext hspells (.nil (le_of_lt hlt))
    exact ⟨_, hover.row.mono_left cursor.le_skipSpacing, rfl⟩

theorem boolean_lays : Lays (node boolean) ExprRow := by
  refine leafNode_lays ?_ ?_
  · exact .alt ((keyword_advances _).map _) ((keyword_advances _).map _)
  · intro start form rest hstart heq
    unfold boolean alt at heq
    split at heq
    · rename_i reply hreply
      rw [heq, map_eq_bind] at hreply
      obtain ⟨_, mid, hword, hform⟩ := bind_apply_eq_some_iff.mp hreply
      obtain ⟨rfl, rfl⟩ := pure_apply_eq_some_iff.mp hform
      have htext := keyword_text hword
      rw [hstart] at htext
      exact ⟨.boolean true, _, fun _ => rfl, htext, rfl⟩
    · rw [map_eq_bind] at heq
      obtain ⟨_, mid, hword, hform⟩ := bind_apply_eq_some_iff.mp heq
      obtain ⟨rfl, rfl⟩ := pure_apply_eq_some_iff.mp hform
      have htext := keyword_text hword
      rw [hstart] at htext
      exact ⟨.boolean false, _, fun _ => rfl, htext, rfl⟩

theorem identifier_lays : Lays (node identifier) ExprRow := by
  refine leafNode_lays (ident_advances.map _) ?_
  intro start form rest hstart heq
  unfold identifier at heq
  rw [map_eq_bind] at heq
  obtain ⟨x, mid, hx, hform⟩ := bind_apply_eq_some_iff.mp heq
  obtain ⟨rfl, rfl⟩ := pure_apply_eq_some_iff.mp hform
  have htext := ident_text hx
  rw [hstart] at htext
  exact ⟨.name x, _, fun _ => rfl, htext, rfl⟩

section

variable (h : Lays inner ExprRow)
include h

theorem conditional_lays : Lays (conditional inner) ExprFormRow := by
  refine .after (keyword_advances _).follows fun _ => .bind h fun _ test htest =>
    .after (keyword_advances _).follows fun _ => .bind h fun _ thenValue hthen =>
    .after (keyword_advances _).follows fun _ => .bind h fun _ elseValue helse =>
      .pure fun note => ?_
  subst htest hthen helse
  rfl

theorem lambda_lays : Lays (lambda inner) ExprFormRow := by
  refine .after (punct_advances (by decide)).follows fun _ =>
    .after ident_advances.list1.follows fun _ => .after (op_advances (by decide)).follows fun _ =>
    .bind h fun _ body hbody => .pure fun note => ?_
  subst hbody
  rfl

theorem arguments_lays : Lays (arguments inner) fun row args => row = args.map Expr.spanTree := by
  have hargument : Lays (argument inner) fun row e => row = [e.spanTree] :=
    fun _ _ _ heq => h (of_argument heq)
  refine .bind (R := fun row o => row = o.toList.map Expr.spanTree) (h.maybe rfl ?_) ?_
  · intro row a ha
    exact ha
  · intro row first hfirst
    cases first with
    | none =>
      refine .pure ?_
      rw [hfirst]
      rfl
    | some first =>
      refine .bind hargument.list fun row' others hothers => .pure ?_
      subst hfirst hothers
      simp

theorem call_lays : Lays (call inner) ExprFormRow := by
  refine .after ident_advances.follows fun callee =>
    .after (Advances.literal (by decide)).follows fun _ => .bind (arguments_lays h)
      fun _ args hargs =>
    .after (punct_advances (by decide)).follows fun _ => .pure fun note => ?_
  subst hargs
  rw [List.append_nil, ← Expr.spanTrees_eq_map]
  rfl

theorem array_lays : Lays (array inner) ExprFormRow := by
  refine .after (punct_advances (by decide)).follows fun _ => .bind (Lays.list h)
    fun _ items hitems =>
    .after (punct_advances (by decide)).follows fun _ => .pure fun note => ?_
  subst hitems
  rw [List.append_nil, ← Expr.spanTrees_eq_map]
  rfl

theorem group_lays : Lays (group inner) ExprRow := by
  refine .after (punct_advances (by decide)).follows fun _ => .bind h fun _ value hvalue =>
    .after (punct_advances (by decide)).follows fun _ => .pure ?_
  rw [List.append_nil]
  exact hvalue

end

theorem atom_lays (hi : Follows inner) (h : Lays inner ExprRow) : Lays (atom inner) ExprRow := by
  apply Lays.choice
  simp only [List.forall_mem_cons]
  refine ⟨number_lays, ?text, boolean_lays,
    node_lays (conditional_advances hi) (conditional_lays h),
    node_lays (lambda_advances hi) (lambda_lays h), node_lays (call_advances hi) (call_lays h),
    node_lays (array_advances hi) (array_lays h), identifier_lays, group_lays h, nofun⟩
  refine node_lays (quoted_advances.map _) ?_
  rw [map_eq_bind]
  exact .after quoted_advances.follows fun _ => .pure fun _ => rfl

/-- The trees of a suffix; the bracket that closes an index counts as one. -/
def SuffixRow (row : List SpanTree) : Suffix → Prop
  | .member field span => row = [.node (.name field) span []]
  | .index position closing => row = [position.spanTree, .node .other closing []]

theorem suffix_lays (h : Lays inner ExprRow) : Lays (suffix inner) SuffixRow := by
  refine .after (Advances.literal (by decide)).follows.maybe fun point => ?_
  cases point with
  | some _ =>
    refine .bind spannedIdent_lays fun row a ha => .pure ?_
    rw [List.append_nil]
    exact ha
  | none =>
    have hclosing : Lays (token (spanned (literal "]"))) fun row a =>
        ∃ content, content = .other ∧ row = [.node content a.2 []] := by
      refine leaf_lays (C := fun _ content => content = .other) (.literal (by decide)) ?_
      intro start value rest _ hvalue
      exact ⟨_, _, rfl, literal_text hvalue, trivial⟩
    refine .after (Advances.literal (by decide)).follows fun _ =>
      .bind h fun _ position hposition =>
      .bind hclosing fun _ closing hclosing => .pure ?_
    obtain ⟨_, rfl, rfl⟩ := hclosing
    subst hposition
    rfl

theorem applySuffix_row {a b : Cursor} {target : Expr} {row : List SpanTree} {behind : Suffix}
    (hbehind : SuffixRow row behind) (h : Row a b ([target.spanTree] ++ row)) :
    Row a b [(applySuffix target behind).spanTree] := by
  cases behind with
  | member field span =>
    cases hbehind
    have hcover := h.cover [] (.refl _)
    rwa [Expr.span_spanTree] at hcover
  | index position closing =>
    cases hbehind
    have hsub : List.Sublist [target.spanTree, position.spanTree]
        (target.spanTree :: ([position.spanTree] ++ [.node .other closing []])) := by simp
    have hcover := h.cover [position.spanTree] hsub
    rwa [Expr.span_spanTree] at hcover

theorem postfixed_lays (hi : Follows inner) (h : Lays inner ExprRow) :
    Lays (postfixed inner) ExprRow := by
  intro cursor value rest heq
  unfold postfixed at heq
  rw [andThen_eq_bind] at heq
  obtain ⟨first, mid, hfirst, hmany⟩ := bind_apply_eq_some_iff.mp heq
  refine (suffix_lays h).many (atom_lays hi h hfirst) ?_ hmany
  intro row target row' behind start stop htarget hbehind hrow
  cases htarget
  exact ⟨_, applySuffix_row hbehind hrow, rfl⟩

theorem prefixed_lays (ho : Follows operand) (h : Lays operand ExprRow) :
    Lays (prefixed operand) ExprRow := by
  intro cursor value rest heq
  unfold prefixed at heq
  dsimp only at heq
  split at heq
  · rename_i op e behind hpair
    cases heq
    have hlt := unaryOp_advances.pair ho hpair
    rw [pair_eq_bind] at hpair
    obtain ⟨_, mid, hop, hpair⟩ := bind_apply_eq_some_iff.mp hpair
    obtain ⟨_, mid', he, hpair⟩ := bind_apply_eq_some_iff.mp hpair
    obtain ⟨heq, rfl⟩ := pure_apply_eq_some_iff.mp hpair
    cases heq
    obtain ⟨row, hrow, rfl⟩ := h he
    exact ⟨_, (over_row hlt (hrow.mono_left (unaryOp_advances.follows hop))).mono_left
      cursor.le_skipSpacing, rfl⟩
  · cases heq

theorem unary_lays (hi : Follows inner) (h : Lays inner ExprRow) (fuel : Nat) :
    Lays (unary inner fuel) ExprRow := by
  induction fuel with
  | zero => exact .reject
  | succ fuel ih =>
    rw [unary_succ]
    exact (postfixed_lays hi h).alt (prefixed_lays (unary_advances hi fuel).follows ih)

theorem binary_lays (h : Lays operand ExprRow) (levels : List (List BinaryOp)) :
    Lays (binary operand levels) ExprRow := by
  induction levels with
  | nil => exact h
  | cons level tighter ih =>
    have hpair : Lays (pair (binaryOp level) (binary operand tighter))
        fun row a => row = [a.2.spanTree] := by
      rw [pair_eq_bind]
      refine .after (binaryOp_advances level).follows fun _ => .bind ih fun row e he => .pure ?_
      rw [List.append_nil]
      exact he
    intro cursor value rest heq
    unfold binary chainLeft at heq
    rw [andThen_eq_bind] at heq
    obtain ⟨first, mid, hfirst, hmany⟩ := bind_apply_eq_some_iff.mp heq
    refine hpair.many (ih hfirst) ?_ hmany
    intro row left row' right start stop hleft hright hrow
    cases hleft
    cases hright
    have hcover := hrow.cover [] (.refl _)
    rw [Expr.span_spanTree, Expr.span_spanTree] at hcover
    exact ⟨_, hcover, rfl⟩

theorem assignment_lays (h : Lays inner ExprRow) : Lays (assignment inner) ExprRow := by
  have hrow : Lays (assignment inner) fun row e => ∃ x span value,
      e = .assign (.name x ⟨span, .unknown⟩) value ⟨span.cover value.span, .unknown⟩ ∧
        row = [.node (.name x) span [], value.spanTree] := by
    refine .bind spannedIdent_lays fun _ target htarget =>
      .after (op_advances (by decide)).follows fun _ => .bind h fun _ value hvalue =>
      .pure ⟨_, _, _, rfl, ?_⟩
    subst htarget hvalue
    rfl
  intro cursor e rest heq
  obtain ⟨row, hrow, x, span, value, rfl, rfl⟩ := hrow heq
  have hcover := hrow.cover [] (.refl _)
  rw [Expr.span_spanTree] at hcover
  exact ⟨_, hcover, rfl⟩

theorem expression_lays (fuel : Nat) : Lays (expression fuel) ExprRow := by
  induction fuel with
  | zero => exact .reject
  | succ fuel ih =>
    rw [expression_succ]
    exact (assignment_lays ih).alt
      (binary_lays (unary_lays (expression_advances fuel).follows ih _) _)

end Expressions

section Statements

variable {ty : Parser Ty} {expr : Parser Expr} {body : Parser (List Stmt)}
  {further : Parser (Note → Stmt)} {inner : Parser Stmt}

/-- The trees of statements in a row. -/
def BodyRow (row : List SpanTree) (body : List Stmt) : Prop :=
  row = Stmt.spanTrees body

theorem comment_lays : Lays comment StmtFormRow :=
  .after (punct_advances (by decide)).follows fun _ =>
    .after (Advances.satisfy _).follows.list fun _ => .pure fun _ => rfl

theorem record_lays (ht : Follows ty) : Lays (record ty) StmtFormRow :=
  .after (keyword_advances _).follows fun _ => .after ident_advances.follows fun _ =>
    .after (op_advances (by decide)).follows fun _ =>
    .after (recordMember_advances ht).list1.follows fun _ => .pure fun _ => rfl

theorem declaration_lays (ht : Follows ty) : Lays (declaration ty) StmtFormRow :=
  .after ident_advances.follows fun _ => .after (op_advances (by decide)).follows fun _ =>
    .after ht.list fun _ => .after (op_advances (by decide)).follows fun _ =>
    .after ht fun _ => .pure fun _ => rfl

section

variable (h : Lays expr ExprRow)
include h

theorem binding_lays : Lays (binding expr) fun row b => row = [b.2.spanTree] := by
  refine .after ident_advances.follows fun _ => .after (op_advances (by decide)).follows fun _ =>
    .bind h fun _ value hvalue => .pure ?_
  rw [List.append_nil]
  exact hvalue

theorem localBindings_lays :
    Lays (localBindings expr) fun row bs => row = bs.map (·.2.spanTree) := by
  have hothers : Lays (right (punct ",") (binding expr)) fun row b => row = [b.2.spanTree] := by
    rw [right_eq_bind]
    exact .after (punct_advances (by decide)).follows fun _ => binding_lays h
  refine .after (keyword_advances _).follows fun _ => .bind (binding_lays h) fun _ first hfirst =>
    .bind hothers.list fun _ others hothers => .after (keyword_advances _).follows fun _ => .pure ?_
  subst hfirst hothers
  simp

theorem definition_lays (hbody : Lays body BodyRow) : Lays (definition expr body) StmtFormRow := by
  have hmaybe : Lays (maybe body) fun row o => row = Stmt.spanTrees (o.getD []) :=
    hbody.maybe rfl fun _ _ hrow => hrow
  have hlocals : Lays (maybe (localBindings expr)) fun row o =>
      row = (o.getD []).map (·.2.spanTree) :=
    (localBindings_lays h).maybe rfl fun _ _ hrow => hrow
  refine .after ident_advances.follows fun name => .after parameter_advances.follows.list
    fun params =>
    .after (op_advances (by decide)).follows fun _ => .bind hmaybe fun _ found hfound => ?_
  subst hfound
  cases found with
  | some found =>
    refine .pure fun note => ?_
    rw [List.append_nil]
    rfl
  | none =>
    refine .bind hlocals fun _ locals hlocals => .bind h fun _ value hvalue => .pure fun note => ?_
    subst hlocals hvalue
    rfl

theorem returning_lays : Lays (returning expr) StmtFormRow := by
  unfold returning
  rw [right_eq_bind]
  refine .map (.after (keyword_advances _).follows fun _ => h) fun row value hvalue note => ?_
  cases hvalue
  rfl

theorem loop_lays (hbody : Lays body BodyRow) : Lays (loop expr body) StmtFormRow := by
  refine .after (keyword_advances _).follows fun _ => .bind h fun _ test htest =>
    .bind hbody fun _ statements hstatements => .pure fun note => ?_
  subst htest hstatements
  rw [List.append_nil]
  rfl

end

theorem spannedForm_lays (hf : Advances further) (h : Lays further StmtFormRow) :
    Lays (token (spanned further)) fun row a => row = [(a.1 ⟨a.2, .unknown⟩).spanTree] := by
  refine .token fun cursor value rest heq => ?_
  obtain ⟨hvalue, hspan⟩ := spanned_apply_eq_some_iff.mp heq
  obtain ⟨row, hrow, hform⟩ := h hvalue
  refine ⟨_, over_row (hf hvalue) hrow, ?_⟩
  rw [hform, hspan]

theorem branchForm_lays (hf : Advances further) (h : Lays expr ExprRow) (hbody : Lays body BodyRow)
    (hfurther : Lays further StmtFormRow) : Lays (branchForm expr body further) StmtFormRow := by
  have hmaybe : Lays (maybe body) fun row o => row = Stmt.spanTrees (o.getD []) :=
    hbody.maybe rfl fun _ _ hrow => hrow
  refine .after (keyword_advances _).follows fun _ => .bind h fun _ test htest =>
    .bind hbody fun _ thenBody hthen => .after (keyword_advances _).follows.maybe fun behind => ?_
  subst htest hthen
  cases behind with
  | none => exact .pure fun note => rfl
  | some _ =>
    refine .bind hmaybe fun _ found hfound => ?_
    subst hfound
    cases found with
    | some elseBody =>
      refine .pure fun note => ?_
      rw [List.append_nil]
      rfl
    | none =>
      refine .bind (spannedForm_lays hf hfurther) fun _ a ha => .pure fun note => ?_
      subst ha
      rfl

theorem branch_lays (he : Follows expr) (hb : Follows body) (h : Lays expr ExprRow)
    (hbody : Lays body BodyRow) (fuel : Nat) : Lays (branch expr body fuel) StmtFormRow := by
  induction fuel with
  | zero => exact .reject
  | succ fuel ih =>
    rw [branch_succ]
    exact branchForm_lays (branch_advances he hb fuel) h hbody ih

theorem bindStatement_lays (h : Lays expr ExprRow) : Lays (bindStatement expr) StmtFormRow := by
  refine .after (keyword_advances _).follows fun _ => .bind (binding_lays h) fun _ b hb =>
    .pure fun note => ?_
  subst hb
  rfl

theorem block_lays (h : Lays inner StmtRow) : Lays (block inner) BodyRow := by
  refine .after (punct_advances (by decide)).follows fun _ => .bind (Lays.list h)
    fun _ body hbody =>
    .after (punct_advances (by decide)).follows fun _ => .pure ?_
  rw [List.append_nil, hbody]
  exact (Stmt.spanTrees_eq_map body).symm

theorem statement_lays (fuel : Nat) : Lays (statement fuel) StmtRow := by
  induction fuel with
  | zero => exact .reject
  | succ fuel ih =>
    have hty := (type_advances (fuel + 1)).follows
    have he := expression_advances (fuel + 1)
    have hb := block_advances (statement_advances fuel).follows
    have hexpr := expression_lays (fuel + 1)
    have hblock := block_lays ih
    have hbranch := branch_advances he.follows hb.follows (fuel + 1)
    rw [statement_succ]
    refine .map (spannedForm_lays (stmtForm_advances hty he hb hbranch) ?_) fun row a ha => ha
    apply Lays.choice
    simp only [List.forall_mem_cons]
    refine ⟨comment_lays, record_lays hty, declaration_lays hty, definition_lays hexpr hblock,
      returning_lays hexpr, loop_lays hexpr hblock, branch_lays he.follows hb.follows
        hexpr hblock _,
      bindStatement_lays hexpr, ?block, ?expr, nofun⟩
    case block =>
      refine .map hblock fun row body hbody note => ?_
      cases hbody
      rfl
    case expr =>
      refine .map hexpr fun row value hvalue note => ?_
      cases hvalue
      rfl

end Statements

end Grammar

namespace SpanTree

variable {source : Source}

mutual

theorem Over.placed {a b : Cursor} {tree : SpanTree} (h : Over a b tree)
    (ha : Cursor.ofText source.text ≤ a) : tree.Placed source := by
  cases h with
  | node forward between spells row =>
    have hb : Cursor.ofText source.text ≤ b := le_trans ha (le_of_lt forward)
    have hlt := Cursor.offset_lt_of_lt forward
    have hstop : (a.spanTo b).stop = b.offset := by
      simp only [Cursor.spanTo, Span.between, Span.stop]
      omega
    have hat : ∀ {c : Cursor}, Cursor.ofText source.text ≤ c →
        (Cursor.at? source.text c.offset).isSome :=
      fun hc => Option.isSome_iff_exists.mpr ⟨_, Cursor.at?_eq_some_iff.mpr ⟨hc, rfl⟩⟩
    obtain ⟨hplaced, hinside, hincreasing⟩ := row.placed ha
    refine .node ?_ ?_ (hat ha) ?_ (Cursor.slice?_spanTo ha between) spells ?_ hincreasing hplaced
    · rw [hstop]
      exact hlt
    · rw [hstop]
      exact Cursor.offset_le_byteLength hb
    · rw [hstop]
      exact hat hb
    · rw [hstop]
      exact hinside

theorem Row.placed {a b : Cursor} {trees : List SpanTree} (h : Row a b trees)
    (ha : Cursor.ofText source.text ≤ a) : (∀ tree ∈ trees, tree.Placed source) ∧
      (∀ tree ∈ trees, a.offset ≤ tree.span.start ∧ tree.span.stop ≤ b.offset) ∧
      Increasing trees := by
  cases h with
  | nil forward => exact ⟨nofun, nofun, .nil⟩
  | @cons _ first last _ tree trees before covered row =>
    have hfirst := le_trans ha before
    have hlast := le_trans hfirst (le_of_lt covered.lt)
    obtain ⟨hplaced, hinside, hincreasing⟩ := row.placed hlast
    have h₁ := Cursor.offset_le_of_le before
    have h₂ := Cursor.offset_lt_of_lt covered.lt
    have h₃ := Cursor.offset_le_of_le row.le
    have hstart : tree.span.start = first.offset := by rw [covered.span_eq]; rfl
    have hstop : tree.span.stop = last.offset := by
      rw [covered.span_eq]
      simp only [Cursor.spanTo, Span.between, Span.stop]
      omega
    refine ⟨List.forall_mem_cons.mpr ⟨covered.placed hfirst, hplaced⟩,
      List.forall_mem_cons.mpr ⟨?_, ?_⟩, List.pairwise_cons.mpr ⟨?_, hincreasing⟩⟩
    · omega
    · intro t ht
      have ht := hinside t ht
      omega
    · intro t ht
      rw [hstop]
      exact (hinside t ht).1

end

end SpanTree

open PCode.Parser PCode.Grammar SpanTree

theorem Program.parse_row {text : String} {program : Program}
    (h : Program.parse text = .ok program) :
    ∃ rest, Row (Cursor.ofText text) rest program.spanTrees := by
  have hrow := Lays.list (p := statement (text.toList.length + 1)) (f := Stmt.spanTree)
    (statement_lays _)
  unfold Program.parse at h
  dsimp only at h
  split at h
  · cases h
    have hlist : list (statement (text.toList.length + 1)) (Cursor.ofText text) =
      some (_, _) := rfl
    obtain ⟨row, hrow, rfl⟩ := hrow hlist
    rw [← Stmt.spanTrees_eq_map] at hrow
    exact ⟨_, hrow⟩
  · cases h

/-- The spans of a program that is read form a tree over its text. They are the spans of its nodes,
in the order of its outline, and the statements of the program follow each other. -/
theorem Program.parse_placed {source : Source} {program : Program}
    (h : Program.parse source.text = .ok program) :
    SpanTree.spansList program.spanTrees = program.outline.map (·.note.span) ∧
    (∀ tree ∈ program.spanTrees, tree.Placed source) ∧ Increasing program.spanTrees := by
  obtain ⟨rest, hrow⟩ := Program.parse_row h
  obtain ⟨hplaced, -, hincreasing⟩ := hrow.placed (le_refl _)
  exact ⟨Stmt.spans_spanTrees program, hplaced, hincreasing⟩

/-- An assignment of an index behind a group, and a name behind a character of two bytes. -/
def spansSample : Source where
  path := Source.defaultPath
  text := "a := (f(true) + -12)[b.c]\n\x7b \"é\" d \x7d"

theorem spansSample_reads : (match Program.parse spansSample.text with
    | .ok program => program.outline.map fun node => (node.label, node.note.span)
    | .error _ => []) =
    [("stmt expr", ⟨0, 25⟩), ("binary :=", ⟨0, 25⟩), ("iden", ⟨0, 1⟩), ("index", ⟨6, 19⟩),
      ("binary +", ⟨6, 13⟩), ("call", ⟨6, 7⟩), ("bool", ⟨8, 4⟩), ("integer", ⟨16, 3⟩),
      ("binary .", ⟨21, 3⟩), ("iden", ⟨21, 1⟩), ("iden", ⟨23, 1⟩),
      ("stmt block", ⟨26, 10⟩), ("stmt expr", ⟨28, 4⟩), ("str", ⟨28, 4⟩),
      ("stmt expr", ⟨33, 1⟩), ("iden", ⟨33, 1⟩)] := by
  decide +kernel

theorem Program.parse_placed_sample :
    ∃ program, Program.parse spansSample.text = .ok program ∧
      SpanTree.spansList program.spanTrees = program.outline.map (·.note.span) ∧
      program.outline ≠ [] ∧
      (∀ tree ∈ program.spanTrees, tree.Placed spansSample) ∧ Increasing program.spanTrees := by
  have h := spansSample_reads
  split at h
  · rename_i program hprogram
    obtain ⟨hspans, hplaced, hincreasing⟩ := Program.parse_placed hprogram
    refine ⟨program, hprogram, hspans, ?_, hplaced, hincreasing⟩
    intro hnil
    rw [hnil] at h
    cases h
  · cases h

end PCode
