import PCode.Proofs.Grammar.Lexemes
import PCode.Proofs.Grammar.Places

namespace PCode.Grammar

open PCode.Parser

section Rules

/-- The forms of a type. -/
def typeForm (inner : Parser Ty) : Parser Ty :=
  choice [
    map (op "...") fun _ => .vararg,
    arrayType inner,
    functionType inner,
    map ident typeNamed]

theorem type_succ (fuel : Nat) : type (fuel + 1) = typeForm (type fuel) :=
  rfl

/-- An operand behind a prefix operator. -/
def prefixed (operand : Parser Expr) : Parser Expr := fun cursor =>
  let start := cursor.skipSpacing
  match pair unaryOp operand start with
  | some ((op, operand), rest) => some (.unary op operand ⟨start.spanTo rest, .unknown⟩, rest)
  | none => none

theorem unary_succ (inner : Parser Expr) (fuel : Nat) :
    unary inner (fuel + 1) = alt (postfixed inner) (prefixed (unary inner fuel)) :=
  rfl

theorem expression_succ (fuel : Nat) : expression (fuel + 1) =
    alt (assignment (expression fuel)) (binary (unary (expression fuel) (fuel + 1)) levels) :=
  rfl

/-- A branch, with the parser of a further one behind `else`. -/
def branchForm (expr : Parser Expr) (block : Parser (List Stmt)) (further : Parser (Note → Stmt)) :
    Parser (Note → Stmt) := do
  keyword "if"
  let test ← expr
  let thenBody ← block
  match ← maybe (keyword "else") with
  | none => return .branch test thenBody []
  | some () =>
    match ← maybe block with
    | some elseBody => return .branch test thenBody elseBody
    | none =>
      let (form, span) ← token (spanned further)
      return .branch test thenBody [form ⟨span, .unknown⟩]

theorem branch_succ (expr : Parser Expr) (block : Parser (List Stmt)) (fuel : Nat) :
    branch expr block (fuel + 1) = branchForm expr block (branch expr block fuel) :=
  rfl

/-- The forms of a statement. -/
def stmtForm (ty : Parser Ty) (expr : Parser Expr) (block : Parser (List Stmt))
    (branch : Parser (Note → Stmt)) : Parser (Note → Stmt) :=
  choice [
    comment,
    record ty,
    declaration ty,
    definition expr block,
    returning expr,
    loop expr block,
    branch,
    bindStatement expr,
    map block .block,
    map expr .expr]

/-- A statement, from the parser of its form. -/
def stmtNode (form : Parser (Note → Stmt)) : Parser Stmt :=
  map (token (spanned form)) fun (form, span) => form ⟨span, .unknown⟩

theorem statement_succ (fuel : Nat) : statement (fuel + 1) =
    stmtNode (stmtForm (type (fuel + 1)) (expression (fuel + 1)) (block (statement fuel))
      (branch (expression (fuel + 1)) (block (statement fuel)) (fuel + 1))) :=
  rfl

end Rules

section Lexemes

theorem word_advances : Advances word :=
  (((Advances.satisfy _).chars).verify _).token

theorem ident_advances : Advances ident :=
  word_advances.verify _

theorem keyword_advances (expected : String) : Advances (keyword expected) :=
  (word_advances.verify _).map _

theorem punct_advances {symbol : String} (hne : symbol.toList ≠ []) : Advances (punct symbol) :=
  ((Advances.literal hne).token).map _

theorem op_advances {symbol : String} (hne : symbol.toList ≠ []) : Advances (op symbol) := by
  refine (punct_advances hne).bind fun _ => Follows.bind ?_ fun cursor => ?_
  · intro cursor value rest heq
    cases heq
    exact le_refl _
  · split
    · split
      · exact .reject
      · exact .pure _
    · exact .pure _

theorem digits_advances : Advances digits :=
  (Advances.satisfy _).chars

theorem numeral_advances : Advances numeral :=
  .after (Advances.literal (by decide)).follows.maybe fun _ => digits_advances.bind fun _ =>
    ((Advances.literal (by decide)).right digits_advances.follows).follows.maybe.bind
      fun _ => .pure _

theorem stringChar_advances : Advances stringChar := by
  apply Advances.choice
  simp only [List.forall_mem_cons]
  exact ⟨(Advances.literal (by decide)).map _, (Advances.literal (by decide)).map _,
    (Advances.literal (by decide)).map _, (Advances.literal (by decide)).map _,
    Advances.satisfy _, nofun⟩

theorem quoted_advances : Advances quoted :=
  (Advances.literal (by decide)).bind fun _ => (stringChar_advances.follows.many _ _).bind fun _ =>
    (Advances.literal (by decide)).follows.bind fun _ => .pure _

variable {a b : Cursor}

theorem word_text {w : String} (h : word a = some (w, b)) : a.skipSpacing.Between b w.toList :=
  chars_text (verify_apply_eq_some_iff.mp h).1

theorem ident_text {x : String} (h : ident a = some (x, b)) : a.skipSpacing.Between b x.toList :=
  word_text (verify_apply_eq_some_iff.mp h).1

theorem keyword_text {k : String} {value : Unit} (h : keyword k a = some (value, b)) :
    a.skipSpacing.Between b k.toList := by
  unfold keyword at h
  rw [map_eq_bind] at h
  obtain ⟨w, mid, hw, hvalue⟩ := bind_apply_eq_some_iff.mp h
  obtain ⟨-, rfl⟩ := pure_apply_eq_some_iff.mp hvalue
  obtain ⟨hword, hk⟩ := verify_apply_eq_some_iff.mp hw
  rw [← beq_iff_eq.mp hk]
  exact word_text hword

theorem toInt_of_integer? {n : Numeral} {v : Int64} (h : n.integer? = some v) :
    v.toInt = if n.negative then -(Text.spelled 10 n.whole : Int) else Text.spelled 10 n.whole := by
  unfold Numeral.integer? Text.word? at h
  dsimp only at h
  generalize (if n.negative then -(Text.spelled 10 n.whole : Int) else Text.spelled 10 n.whole)
    = value at h ⊢
  obtain ⟨hrange, hvalue⟩ := Option.ite_none_right_eq_some.mp h
  rw [Bool.and_eq_true, decide_eq_true_eq, decide_eq_true_eq] at hrange
  cases hvalue
  exact Int64.toInt_ofInt_of_le (by simpa using hrange.1) (by simpa using hrange.2)

theorem numeral_text {n : Numeral} (h : numeral a = some (n, b)) (hfraction : n.fraction = none) :
    a.Between b (signText n.negative ++ n.whole) ∧ n.whole ≠ [] ∧
      ∀ c ∈ n.whole, c.isDigit = true := by
  obtain ⟨sign, first, hsign, h⟩ := bind_apply_eq_some_iff.mp h
  obtain ⟨whole, second, hwhole, h⟩ := bind_apply_eq_some_iff.mp h
  obtain ⟨fraction, third, hpoint, h⟩ := bind_apply_eq_some_iff.mp h
  obtain ⟨rfl, rfl⟩ := pure_apply_eq_some_iff.mp h
  obtain ⟨hne, hdigits⟩ := Yields.chars .satisfy hwhole
  have hsignText : a.Between first (signText sign.isSome) := by
    rcases maybe_apply_eq_some_iff.mp hsign with ⟨value, rfl, hvalue⟩ | ⟨rfl, -, rfl⟩
    · exact literal_text hvalue
    · exact ⟨rfl, rfl⟩
  have hend : third = second := by
    rcases maybe_apply_eq_some_iff.mp hpoint with ⟨value, rfl, -⟩ | ⟨-, -, rfl⟩
    · cases hfraction
    · rfl
  subst hend
  exact ⟨hsignText.append (chars_text hwhole), hne, hdigits⟩

end Lexemes

section Types

variable {inner : Parser Ty}

theorem typeForm_advances (h : Follows inner) : Advances (typeForm inner) := by
  apply Advances.choice
  simp only [List.forall_mem_cons]
  refine ⟨(op_advances (by decide)).map _, ?array, ?function, ident_advances.map _, nofun⟩
  case array =>
    exact (punct_advances (by decide)).bind fun _ => h.bind fun _ =>
      (punct_advances (by decide)).follows.bind fun _ => .pure _
  case function =>
    exact (punct_advances (by decide)).bind fun _ => h.list.bind fun _ =>
      (op_advances (by decide)).follows.bind fun _ => h.bind fun _ =>
        (punct_advances (by decide)).follows.bind fun _ => .pure _

theorem type_advances (fuel : Nat) : Advances (type fuel) := by
  induction fuel with
  | zero => exact .reject
  | succ fuel ih =>
    rw [type_succ]
    exact typeForm_advances ih.follows

end Types

section Expressions

variable {inner operand : Parser Expr}

theorem node_advances {p : Parser (Note → Expr)} (h : Advances p) : Advances (node p) :=
  (h.spanned.token).map _

theorem number_advances : Advances number := by
  intro cursor value rest heq
  obtain ⟨n, hnumeral, -⟩ := number_apply_eq_some_iff.mp heq
  exact lt_of_le_of_lt cursor.le_skipSpacing (numeral_advances hnumeral)

theorem argument_follows (h : Follows inner) : Follows (argument inner) :=
  fun _ _ _ heq => h (of_argument heq)

theorem argument_advances (h : Advances inner) : Advances (argument inner) :=
  fun _ _ _ heq => h (of_argument heq)

section

variable (h : Follows inner)
include h

theorem arguments_follows : Follows (arguments inner) := by
  refine h.maybe.bind fun first => ?_
  cases first with
  | none => exact .pure _
  | some first => exact (argument_follows h).list.bind fun _ => .pure _

theorem conditional_advances : Advances (conditional inner) :=
  (keyword_advances _).bind fun _ => h.bind fun _ => (keyword_advances _).follows.bind fun _ =>
    h.bind fun _ => (keyword_advances _).follows.bind fun _ => h.bind fun _ => .pure _

theorem lambda_advances : Advances (lambda inner) :=
  (punct_advances (by decide)).bind fun _ => ident_advances.list1.follows.bind fun _ =>
    (op_advances (by decide)).follows.bind fun _ => h.bind fun _ => .pure _

theorem call_advances : Advances (call inner) :=
  ident_advances.bind fun _ => (Advances.literal (by decide)).follows.bind fun _ =>
    (arguments_follows h).bind fun _ => (punct_advances (by decide)).follows.bind fun _ => .pure _

theorem array_advances : Advances (array inner) :=
  (punct_advances (by decide)).bind fun _ => h.list.bind fun _ =>
    (punct_advances (by decide)).follows.bind fun _ => .pure _

theorem group_advances : Advances (group inner) :=
  (punct_advances (by decide)).bind fun _ => h.bind fun _ =>
    (punct_advances (by decide)).follows.bind fun _ => .pure _

theorem atom_advances : Advances (atom inner) := by
  apply Advances.choice
  simp only [List.forall_mem_cons]
  refine ⟨number_advances, node_advances (quoted_advances.map _), ?boolean,
    node_advances (conditional_advances h), node_advances (lambda_advances h),
    node_advances (call_advances h), node_advances (array_advances h),
    node_advances (ident_advances.map _), group_advances h, nofun⟩
  exact node_advances (.alt ((keyword_advances _).map _) ((keyword_advances _).map _))

theorem suffix_advances : Advances (suffix inner) := by
  refine .after (Advances.literal (by decide)).follows.maybe fun point => ?_
  cases point with
  | some _ => exact (ident_advances.spanned.token).bind fun _ => .pure _
  | none =>
    exact (Advances.literal (by decide)).bind fun _ => h.bind fun _ =>
      ((Advances.literal (by decide)).spanned.token).follows.bind fun _ => .pure _

theorem postfixed_advances : Advances (postfixed inner) := by
  unfold postfixed
  rw [andThen_eq_bind]
  exact (atom_advances h).bind fun _ => (suffix_advances h).follows.many _ _

end

theorem unaryOp_advances : Advances unaryOp := by
  apply Advances.choice
  simp only [List.forall_mem_cons]
  exact ⟨(op_advances (by decide)).map _, (op_advances (by decide)).map _,
    (op_advances (by decide)).map _, nofun⟩

theorem prefixed_advances (h : Follows operand) : Advances (prefixed operand) := by
  intro cursor value rest heq
  unfold prefixed at heq
  dsimp only at heq
  split at heq
  · rename_i hpair
    cases heq
    exact lt_of_le_of_lt cursor.le_skipSpacing (unaryOp_advances.pair h hpair)
  · cases heq

theorem unary_advances (h : Follows inner) (fuel : Nat) : Advances (unary inner fuel) := by
  induction fuel with
  | zero => exact .reject
  | succ fuel ih =>
    rw [unary_succ]
    exact (postfixed_advances h).alt (prefixed_advances ih.follows)

theorem binaryOp_advances (table : List BinaryOp) : Advances (binaryOp table) := by
  apply Advances.choice
  intro p hp
  obtain ⟨operator, -, rfl⟩ := List.mem_map.mp hp
  refine (op_advances ?_).map _
  cases operator <;> decide

theorem binary_follows (h : Follows operand) (levels : List (List BinaryOp)) :
    Follows (binary operand levels) := by
  induction levels with
  | nil => exact h
  | cons level tighter ih =>
    unfold binary chainLeft
    rw [andThen_eq_bind]
    exact ih.bind fun _ => ((binaryOp_advances level).pair ih).follows.many _ _

theorem binary_advances (h : Advances operand) (levels : List (List BinaryOp)) :
    Advances (binary operand levels) := by
  induction levels with
  | nil => exact h
  | cons level tighter ih =>
    unfold binary chainLeft
    rw [andThen_eq_bind]
    exact ih.bind fun _ => ((binaryOp_advances level).pair ih.follows).follows.many _ _

theorem assignment_advances (h : Follows inner) : Advances (assignment inner) :=
  (ident_advances.spanned.token).bind fun _ => (op_advances (by decide)).follows.bind fun _ =>
    h.bind fun _ => .pure _

theorem expression_advances (fuel : Nat) : Advances (expression fuel) := by
  induction fuel with
  | zero => exact .reject
  | succ fuel ih =>
    rw [expression_succ]
    exact (assignment_advances ih.follows).alt (binary_advances (unary_advances ih.follows _) _)

end Expressions

section Statements

variable {ty : Parser Ty} {expr : Parser Expr} {body : Parser (List Stmt)}
  {further : Parser (Note → Stmt)} {inner : Parser Stmt}

theorem comment_advances : Advances comment :=
  (punct_advances (by decide)).bind fun _ => (Advances.satisfy _).follows.list.bind fun _ => .pure _

theorem recordMember_advances (h : Follows ty) : Advances (recordMember ty) :=
  (punct_advances (by decide)).bind fun _ => ident_advances.follows.bind fun _ => h.bind fun _ =>
    (punct_advances (by decide)).follows.bind fun _ => .pure _

theorem record_advances (h : Follows ty) : Advances (record ty) :=
  (keyword_advances _).bind fun _ => ident_advances.follows.bind fun _ =>
    (op_advances (by decide)).follows.bind fun _ =>
      (recordMember_advances h).list1.follows.bind fun _ => .pure _

theorem declaration_advances (h : Follows ty) : Advances (declaration ty) :=
  ident_advances.bind fun _ => (op_advances (by decide)).follows.bind fun _ => h.list.bind fun _ =>
    (op_advances (by decide)).follows.bind fun _ => h.bind fun _ => .pure _

theorem binding_advances (h : Follows expr) : Advances (binding expr) :=
  ident_advances.bind fun _ => (op_advances (by decide)).follows.bind fun _ => h.bind fun _ =>
    .pure _

theorem localBinding_advances (h : Follows expr) : Advances (right (punct ",") (binding expr)) :=
  (punct_advances (by decide)).right (binding_advances h).follows

theorem localBindings_advances (h : Follows expr) : Advances (localBindings expr) :=
  (keyword_advances _).bind fun _ => (binding_advances h).follows.bind fun _ =>
    (localBinding_advances h).follows.list.bind fun _ => (keyword_advances _).follows.bind fun _ =>
      .pure _

theorem parameter_advances : Advances parameter :=
  fun _ _ _ heq => ident_advances (parameter_apply_eq_some_iff.mp heq).2

section

variable (h : Follows expr)
include h

theorem definition_advances (hbody : Follows body) : Advances (definition expr body) := by
  refine ident_advances.bind fun _ => parameter_advances.follows.list.bind fun _ =>
    (op_advances (by decide)).follows.bind fun _ => hbody.maybe.bind fun found => ?_
  cases found with
  | some _ => exact .pure _
  | none => exact (localBindings_advances h).follows.maybe.bind fun _ => h.bind fun _ => .pure _

theorem returning_advances : Advances (returning expr) :=
  ((keyword_advances _).right h).map _

theorem loop_advances (hbody : Follows body) : Advances (loop expr body) :=
  (keyword_advances _).bind fun _ => h.bind fun _ => hbody.bind fun _ => .pure _

theorem branchForm_advances (hbody : Follows body) (hfurther : Follows further) :
    Advances (branchForm expr body further) := by
  refine (keyword_advances _).bind fun _ => h.bind fun _ => hbody.bind fun _ =>
    (keyword_advances _).follows.maybe.bind fun behind => ?_
  cases behind with
  | none => exact .pure _
  | some _ =>
    refine hbody.maybe.bind fun found => ?_
    cases found with
    | some _ => exact .pure _
    | none => exact hfurther.spanned.token.bind fun _ => .pure _

theorem branch_advances (hbody : Follows body) (fuel : Nat) : Advances (branch expr body fuel) := by
  induction fuel with
  | zero => exact .reject
  | succ fuel ih =>
    rw [branch_succ]
    exact branchForm_advances h hbody ih.follows

theorem bindStatement_advances : Advances (bindStatement expr) :=
  (keyword_advances _).bind fun _ => (binding_advances h).follows.bind fun _ => .pure _

end

theorem block_advances (h : Follows inner) : Advances (block inner) :=
  (punct_advances (by decide)).bind fun _ => h.list.bind fun _ =>
    (punct_advances (by decide)).follows.bind fun _ => .pure _

theorem stmtForm_advances (hty : Follows ty) (hexpr : Advances expr) (hbody : Advances body)
    (hbranch : Advances further) : Advances (stmtForm ty expr body further) := by
  apply Advances.choice
  simp only [List.forall_mem_cons]
  exact ⟨comment_advances, record_advances hty, declaration_advances hty,
    definition_advances hexpr.follows hbody.follows, returning_advances hexpr.follows,
    loop_advances hexpr.follows hbody.follows, hbranch, bindStatement_advances hexpr.follows,
    hbody.map _, hexpr.map _, nofun⟩

theorem stmtNode_advances {form : Parser (Note → Stmt)} (h : Advances form) :
    Advances (stmtNode form) :=
  (h.spanned.token).map _

theorem statement_advances (fuel : Nat) : Advances (statement fuel) := by
  induction fuel with
  | zero => exact .reject
  | succ fuel ih =>
    have hexpr := expression_advances (fuel + 1)
    have hblock := block_advances ih.follows
    rw [statement_succ]
    exact stmtNode_advances (stmtForm_advances (type_advances _).follows hexpr hblock
      (branch_advances hexpr.follows hblock.follows _))

end Statements

end PCode.Grammar
