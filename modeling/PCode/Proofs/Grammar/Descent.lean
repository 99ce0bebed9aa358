import Mathlib.Logic.Relation
import PCode.Proofs.Grammar.Programs
import PCode.Proofs.Grammar.Progress

namespace PCode.Parser

variable {α β : Type}

/-- Two parsers do the same from a place on. -/
def Same (start : Cursor) (p q : Parser α) : Prop :=
  ∀ ⦃cursor⦄, start ≤ cursor → p cursor = q cursor

/-- Two parsers do the same behind a place. -/
def SameBehind (start : Cursor) (p q : Parser α) : Prop :=
  ∀ ⦃cursor⦄, start < cursor → p cursor = q cursor

section SameBehind

variable {start place : Cursor} {p q : Parser α}

theorem SameBehind.same (h : SameBehind start p q) (hlt : start < place) : Same place p q :=
  fun _ hle => h (lt_of_lt_of_le hlt hle)

theorem SameBehind.later (h : SameBehind start p q) (hle : start ≤ place) : SameBehind place p q :=
  fun _ hlt => h (lt_of_le_of_lt hle hlt)

theorem Same.behind (h : Same start p q) : SameBehind start p q :=
  fun _ hlt => h (le_of_lt hlt)

theorem SameBehind.of_same (h : ∀ place, start < place → Same place p q) : SameBehind start p q :=
  fun cursor hlt => h cursor hlt (le_refl cursor)

end SameBehind

namespace Same

variable {start : Cursor} {p q p' q' : Parser α}

theorem refl (p : Parser α) : Same start p p :=
  fun _ _ => rfl

theorem bind {f g : α → Parser β} (h : Same start p q) (hp : Follows p)
    (hf : ∀ a, Same start (f a) (g a)) : Same start (p >>= f) (q >>= g) := by
  intro cursor hle
  show StateT.bind p f cursor = StateT.bind q g cursor
  simp only [StateT.bind, ← h hle]
  cases hreply : p cursor with
  | none => rfl
  | some reply => exact hf _ (le_trans hle (hp hreply))

theorem guard {f g : α → Parser β} (hp : Advances p) (hf : ∀ a, SameBehind start (f a) (g a)) :
    Same start (p >>= f) (p >>= g) := by
  intro cursor hle
  show StateT.bind p f cursor = StateT.bind p g cursor
  simp only [StateT.bind]
  cases hreply : p cursor with
  | none => rfl
  | some reply => exact hf _ (lt_of_le_of_lt hle (hp hreply))

section

variable (h : Same start p q)
include h

theorem map (f : α → β) : Same start (Parser.map p f) (Parser.map q f) := by
  intro cursor hle
  simp only [Parser.map, h hle]

theorem alt (h' : Same start p' q') : Same start (Parser.alt p p') (Parser.alt q q') := by
  intro cursor hle
  simp only [Parser.alt, h hle, h' hle]

theorem choice_cons {ps qs : List (Parser α)} (hs : Same start (choice ps) (choice qs)) :
    Same start (choice (p :: ps)) (choice (q :: qs)) :=
  h.alt hs

theorem token : Same start (Parser.token p) (Parser.token q) :=
  fun cursor hle => h (le_trans hle cursor.le_skipSpacing)

theorem spanned : Same start (Parser.spanned p) (Parser.spanned q) := by
  intro cursor hle
  simp only [Parser.spanned, h hle]

theorem maybe : Same start (Parser.maybe p) (Parser.maybe q) := by
  intro cursor hle
  simp only [Parser.maybe, h hle]

end

theorem foldMatches (h : Same start p q) (hp : Follows p) (fold : β → α → β) (fuel : Nat) (acc : β)
    (n : Nat) {cursor : Cursor} (hle : start ≤ cursor) :
    foldMatches p fold fuel acc n cursor = foldMatches q fold fuel acc n cursor := by
  induction fuel generalizing acc n cursor with
  | zero => rfl
  | succ fuel ih =>
    rw [Parser.foldMatches, Parser.foldMatches, ← h hle]
    cases hreply : p cursor with
    | none => rfl
    | some reply =>
      dsimp only
      rw [ih _ _ (le_trans hle (hp hreply))]

variable (h : Same start p q)
include h

theorem many (hp : Follows p) (init : β) (fold : β → α → β) :
    Same start (Parser.many p init fold) (Parser.many q init fold) := by
  intro cursor hle
  simp only [Parser.many, Parser.repeated, h.foldMatches hp fold _ _ _ hle]

theorem list (hp : Follows p) : Same start (Parser.list p) (Parser.list q) :=
  (h.many hp _ _).map _

theorem list1 (hp : Follows p) : Same start (Parser.list1 p) (Parser.list1 q) := by
  refine map (fun cursor hle => ?_) _
  unfold Parser.many1 Parser.repeated
  rw [h.foldMatches hp _ _ _ _ hle]

theorem right {r r' : Parser β} (hp : Follows p) (h' : Same start r r') :
    Same start (Parser.right p r) (Parser.right q r') := by
  rw [right_eq_bind, right_eq_bind]
  exact h.bind hp fun _ => h'

theorem pair {r r' : Parser β} (hp : Follows p) (h' : Same start r r') (hr : Follows r) :
    Same start (Parser.pair p r) (Parser.pair q r') := by
  rw [pair_eq_bind, pair_eq_bind]
  exact h.bind hp fun a => h'.bind hr fun b => refl _

omit h in
/-- Parsers with more fuel than there are characters do the same if each does, with one unit more,
what the one before does behind a token. -/
theorem of_fuel {p q : Nat → Parser α} (hstep : ∀ (fuel fuel' : Nat) (cursor : Cursor),
      start ≤ cursor → cursor.rest.length < fuel + 1 → cursor.rest.length < fuel' + 1 →
      SameBehind cursor (p fuel) (q fuel') → p (fuel + 1) cursor = q (fuel' + 1) cursor)
    {fuel fuel' : Nat} (hfuel : start.rest.length < fuel) (hfuel' : start.rest.length < fuel') :
    Same start (p fuel) (q fuel') := by
  intro cursor hle
  have hlength := Cursor.length_le_of_le hle
  replace hfuel := Nat.lt_of_le_of_lt hlength hfuel
  replace hfuel' := Nat.lt_of_le_of_lt hlength hfuel'
  clear hlength
  induction fuel generalizing cursor fuel' with
  | zero => exact absurd hfuel (Nat.not_lt_zero _)
  | succ fuel ih =>
    obtain ⟨fuel', rfl⟩ := Nat.exists_eq_succ_of_ne_zero (Nat.ne_of_gt (Nat.zero_lt_of_lt hfuel'))
    refine hstep _ _ _ hle hfuel hfuel' fun later hlt => ?_
    have hlength := Cursor.length_lt_of_lt hlt
    exact ih (le_trans hle (le_of_lt hlt)) (by omega) (by omega)

end Same

end PCode.Parser

namespace PCode.Grammar

open PCode.Parser

section Types

variable {start : Cursor} {inner inner' : Parser Ty}

theorem typeForm_same (hi : Follows inner) (h : SameBehind start inner inner') :
    Same start (typeForm inner) (typeForm inner') := by
  refine .choice_cons (.refl _) (.choice_cons ?array (.choice_cons ?function (.refl _)))
  case array =>
    exact .guard (punct_advances (by decide)) fun _ => .of_same fun _ hd =>
      (h.same hd).bind hi fun _ => .refl _
  case function =>
    exact .guard (punct_advances (by decide)) fun _ => .of_same fun _ hd =>
      ((h.same hd).list hi).bind hi.list fun _ => (Same.refl _).bind
        (op_advances (by decide)).follows fun _ => (h.same hd).bind hi fun _ => .refl _

end Types

section Expressions

variable {start : Cursor} {inner inner' operand operand' : Parser Expr}

theorem node_same {p q : Parser (Note → Expr)} (h : Same start p q) :
    Same start (node p) (node q) :=
  (h.spanned.token).map _

theorem conditional_same (hi : Follows inner) (h : SameBehind start inner inner') :
    Same start (conditional inner) (conditional inner') :=
  .guard (keyword_advances _) fun _ => .of_same fun _ hd => (h.same hd).bind hi fun _ =>
    (Same.refl _).bind (keyword_advances _).follows fun _ => (h.same hd).bind hi fun _ =>
      (Same.refl _).bind (keyword_advances _).follows fun _ => (h.same hd).bind hi fun _ => .refl _

theorem lambda_same (h : SameBehind start inner inner') :
    Same start (lambda inner) (lambda inner') :=
  .guard (punct_advances (by decide)) fun _ => .of_same fun _ hd =>
    (Same.refl _).bind ident_advances.list1.follows fun _ =>
      (Same.refl _).bind (op_advances (by decide)).follows fun _ cursor hle => by
        show StateT.bind inner _ cursor = StateT.bind inner' _ cursor
        simp only [StateT.bind, h (lt_of_lt_of_le hd hle)]

theorem argument_same (h : Same start inner inner') :
    Same start (argument inner) (argument inner') := by
  intro cursor hle
  simp only [argument, h hle]

section

variable (hi : Follows inner)
include hi

theorem arguments_same (h : Same start inner inner') :
    Same start (arguments inner) (arguments inner') := by
  refine h.maybe.bind hi.maybe fun first => ?_
  cases first with
  | none => exact .refl _
  | some first =>
    exact ((argument_same h).list (argument_follows hi)).bind (argument_follows hi).list
      fun _ => .refl _

theorem call_same (h : SameBehind start inner inner') : Same start (call inner) (call inner') :=
  .guard ident_advances fun _ => .of_same fun _ hd =>
    (Same.refl _).bind (Advances.literal (by decide)).follows fun _ =>
      (arguments_same hi (h.same hd)).bind (arguments_follows hi) fun _ => .refl _

theorem array_same (h : SameBehind start inner inner') : Same start (array inner) (array inner') :=
  .guard (punct_advances (by decide)) fun _ => .of_same fun _ hd =>
    ((h.same hd).list hi).bind hi.list fun _ => .refl _

theorem group_same (h : SameBehind start inner inner') : Same start (group inner) (group inner') :=
  .guard (punct_advances (by decide)) fun _ => .of_same fun _ hd =>
    (h.same hd).bind hi fun _ => .refl _

theorem atom_same (h : SameBehind start inner inner') : Same start (atom inner) (atom inner') :=
  .choice_cons (.refl _) <| .choice_cons (.refl _) <| .choice_cons (.refl _) <|
    .choice_cons (node_same (conditional_same hi h)) <|
    .choice_cons (node_same (lambda_same h)) <|
    .choice_cons (node_same (call_same hi h)) <|
    .choice_cons (node_same (array_same hi h)) <| .choice_cons (.refl _) <|
    .choice_cons (group_same hi h) (.refl _)

theorem suffix_same (h : SameBehind start inner inner') :
    Same start (suffix inner) (suffix inner') := by
  refine (Same.refl _).bind (Advances.literal (by decide)).follows.maybe fun point => ?_
  cases point with
  | some _ => exact .refl _
  | none =>
    exact .guard (Advances.literal (by decide)) fun _ => .of_same fun _ hd =>
      (h.same hd).bind hi fun _ => .refl _

theorem postfixed_same (h : SameBehind start inner inner') :
    Same start (postfixed inner) (postfixed inner') := by
  unfold postfixed
  rw [andThen_eq_bind, andThen_eq_bind]
  exact (atom_same hi h).bind (atom_advances hi).follows fun _ =>
    (suffix_same hi h).many (suffix_advances hi).follows _ _

end

theorem prefixed_same (ho : Follows operand) (h : SameBehind start operand operand') :
    Same start (prefixed operand) (prefixed operand') := by
  intro cursor hle
  have hpair : Same start (pair unaryOp operand) (pair unaryOp operand') := by
    rw [pair_eq_bind, pair_eq_bind]
    exact .guard unaryOp_advances fun _ => .of_same fun _ hd => (h.same hd).bind ho fun _ => .refl _
  simp only [prefixed, hpair (le_trans hle cursor.le_skipSpacing)]

theorem unary_same (hi : Follows inner) (h : SameBehind start inner inner') {fuel fuel' : Nat}
    (hfuel : start.rest.length < fuel) (hfuel' : start.rest.length < fuel') :
    Same start (unary inner fuel) (unary inner' fuel') := by
  refine .of_fuel (fun _ _ _ hle _ _ hbehind => ?_) hfuel hfuel'
  rw [unary_succ, unary_succ]
  exact (postfixed_same hi (h.later hle)).alt
    (prefixed_same (unary_advances hi _).follows hbehind) (le_refl _)

theorem binary_same (ho : Follows operand) (h : Same start operand operand')
    (levels : List (List BinaryOp)) :
    Same start (binary operand levels) (binary operand' levels) := by
  induction levels with
  | nil => exact h
  | cons level tighter ih =>
    unfold binary chainLeft
    rw [andThen_eq_bind, andThen_eq_bind]
    have hop := (binaryOp_advances level).follows
    have htighter := binary_follows ho tighter
    exact ih.bind htighter fun _ =>
      ((Same.refl _).pair hop ih htighter).many (hop.pair htighter) _ _

theorem assignment_same (hi : Follows inner) (h : SameBehind start inner inner') :
    Same start (assignment inner) (assignment inner') :=
  .guard (ident_advances.spanned.token) fun _ => .of_same fun _ hd =>
    (Same.refl _).bind (op_advances (by decide)).follows fun _ => (h.same hd).bind hi fun _ =>
      .refl _

end Expressions

section Statements

variable {start : Cursor} {ty ty' : Parser Ty} {expr expr' : Parser Expr}
  {body body' : Parser (List Stmt)} {further further' : Parser (Note → Stmt)}
  {inner inner' : Parser Stmt}

theorem recordMember_same (ht : Follows ty) (h : SameBehind start ty ty') :
    Same start (recordMember ty) (recordMember ty') :=
  .guard (punct_advances (by decide)) fun _ => .of_same fun _ hd =>
    (Same.refl _).bind ident_advances.follows fun _ => (h.same hd).bind ht fun _ => .refl _

theorem record_same (ht : Follows ty) (h : SameBehind start ty ty') :
    Same start (record ty) (record ty') :=
  .guard (keyword_advances _) fun _ => .of_same fun _ hd =>
    (Same.refl _).bind ident_advances.follows fun _ =>
      (Same.refl _).bind (op_advances (by decide)).follows fun _ =>
        ((recordMember_same ht (h.later (le_of_lt hd))).list1
          (recordMember_advances ht).follows).bind (recordMember_advances ht).list1.follows
            fun _ => .refl _

theorem declaration_same (ht : Follows ty) (h : SameBehind start ty ty') :
    Same start (declaration ty) (declaration ty') :=
  .guard ident_advances fun _ => .of_same fun _ hd =>
    (Same.refl _).bind (op_advances (by decide)).follows fun _ =>
      ((h.same hd).list ht).bind ht.list fun _ =>
        (Same.refl _).bind (op_advances (by decide)).follows fun _ => (h.same hd).bind ht fun _ =>
          .refl _

theorem binding_same (he : Follows expr) (h : Same start expr expr') :
    Same start (binding expr) (binding expr') :=
  (Same.refl _).bind ident_advances.follows fun _ =>
    (Same.refl _).bind (op_advances (by decide)).follows fun _ => h.bind he fun _ => .refl _

theorem localBindings_same (he : Follows expr) (h : Same start expr expr') :
    Same start (localBindings expr) (localBindings expr') := by
  have hcomma : Follows (punct ",") := (punct_advances (by decide)).follows
  exact (Same.refl _).bind (keyword_advances _).follows fun _ =>
    (binding_same he h).bind (binding_advances he).follows fun _ =>
      (((Same.refl _).right hcomma (binding_same he h)).list
        (localBinding_advances he).follows).bind (localBinding_advances he).follows.list
          fun _ => .refl _

theorem definition_same (he : Follows expr) (hb : Follows body) (h : SameBehind start expr expr')
    (h' : SameBehind start body body') :
    Same start (definition expr body) (definition expr' body') := by
  refine .guard ident_advances fun _ => .of_same fun _ hd =>
    (Same.refl _).bind parameter_advances.follows.list fun _ =>
      (Same.refl _).bind (op_advances (by decide)).follows fun _ =>
        (h'.same hd).maybe.bind hb.maybe fun found => ?_
  cases found with
  | some _ => exact .refl _
  | none =>
    exact (localBindings_same he (h.same hd)).maybe.bind (localBindings_advances he).follows.maybe
      fun _ => (h.same hd).bind he fun _ => .refl _

theorem returning_same (h : SameBehind start expr expr') :
    Same start (returning expr) (returning expr') := by
  unfold returning
  rw [right_eq_bind, right_eq_bind]
  exact (Same.guard (keyword_advances _) fun _ => h).map _

theorem loop_same (he : Follows expr) (hb : Follows body) (h : SameBehind start expr expr')
    (h' : SameBehind start body body') : Same start (loop expr body) (loop expr' body') :=
  .guard (keyword_advances _) fun _ => .of_same fun _ hd => (h.same hd).bind he fun _ =>
    (h'.same hd).bind hb fun _ => .refl _

theorem branchForm_same (he : Follows expr) (hb : Follows body) (hf : Follows further)
    (h : SameBehind start expr expr') (h' : SameBehind start body body')
    (h'' : SameBehind start further further') :
    Same start (branchForm expr body further) (branchForm expr' body' further') := by
  refine .guard (keyword_advances _) fun _ => .of_same fun _ hd => (h.same hd).bind he fun _ =>
    (h'.same hd).bind hb fun _ => (Same.refl _).bind (keyword_advances _).follows.maybe
      fun behind => ?_
  cases behind with
  | none => exact .refl _
  | some _ =>
    refine (h'.same hd).maybe.bind hb.maybe fun found => ?_
    cases found with
    | some _ => exact .refl _
    | none => exact ((h''.same hd).spanned.token).bind hf.spanned.token fun _ => .refl _

theorem branch_same (he : Follows expr) (hb : Follows body) (h : SameBehind start expr expr')
    (h' : SameBehind start body body') {fuel fuel' : Nat} (hfuel : start.rest.length < fuel)
    (hfuel' : start.rest.length < fuel') :
    Same start (branch expr body fuel) (branch expr' body' fuel') := by
  refine .of_fuel (fun _ _ _ hle _ _ hbehind => ?_) hfuel hfuel'
  rw [branch_succ, branch_succ]
  exact branchForm_same he hb (branch_advances he hb _).follows (h.later hle) (h'.later hle) hbehind
    (le_refl _)

theorem bindStatement_same (he : Follows expr) (h : SameBehind start expr expr') :
    Same start (bindStatement expr) (bindStatement expr') :=
  .guard (keyword_advances _) fun _ => .of_same fun _ hd =>
    (binding_same he (h.same hd)).bind (binding_advances he).follows fun _ => .refl _

theorem block_same (hi : Follows inner) (h : SameBehind start inner inner') :
    Same start (block inner) (block inner') :=
  .guard (punct_advances (by decide)) fun _ => .of_same fun _ hd =>
    ((h.same hd).list hi).bind hi.list fun _ => .refl _

theorem stmtForm_same (ht : Follows ty) (he : Follows expr) (hb : Follows body)
    (h : SameBehind start ty ty') (h' : Same start expr expr') (h'' : Same start body body')
    (hbranch : Same start further further') :
    Same start (stmtForm ty expr body further) (stmtForm ty' expr' body' further') :=
  .choice_cons (.refl _) <| .choice_cons (record_same ht h) <|
    .choice_cons (declaration_same ht h) <|
    .choice_cons (definition_same he hb h'.behind h''.behind) <|
    .choice_cons (returning_same h'.behind) <|
    .choice_cons (loop_same he hb h'.behind h''.behind) <|
    .choice_cons hbranch <| .choice_cons (bindStatement_same he h'.behind) <|
    .choice_cons (h''.map _) <| .choice_cons (h'.map _) (.refl _)

theorem stmtNode_same {p q : Parser (Note → Stmt)} (h : Same start p q) :
    Same start (stmtNode p) (stmtNode q) :=
  (h.spanned.token).map _

end Statements

section Fuel

variable {cursor : Cursor} {fuel fuel' : Nat}

/-- The parser of types, with fuel for all characters ahead. -/
def readType : Parser Ty := fun cursor =>
  type (cursor.rest.length + 1) cursor

/-- The parser of expressions, with fuel for all characters ahead. -/
def readExpr : Parser Expr := fun cursor =>
  expression (cursor.rest.length + 1) cursor

/-- The parser of operands, with fuel for all characters ahead. -/
def readOperand : Parser Expr := fun cursor =>
  unary readExpr (cursor.rest.length + 1) cursor

/-- The parser of statements, with fuel for all characters ahead. -/
def readStmt : Parser Stmt := fun cursor =>
  statement (cursor.rest.length + 1) cursor

/-- The parser of branches, with fuel for all characters ahead. -/
def readBranch : Parser (Note → Stmt) := fun cursor =>
  branch readExpr (block readStmt) (cursor.rest.length + 1) cursor

theorem type_fuel (hfuel : cursor.rest.length < fuel) (hfuel' : cursor.rest.length < fuel') :
    Same cursor (type fuel) (type fuel') := by
  refine .of_fuel (fun _ _ _ _ _ _ hbehind => ?_) hfuel hfuel'
  rw [type_succ, type_succ]
  exact typeForm_same (type_advances _).follows hbehind (le_refl _)

theorem expression_fuel (hfuel : cursor.rest.length < fuel) (hfuel' : cursor.rest.length < fuel') :
    Same cursor (expression fuel) (expression fuel') := by
  refine .of_fuel (fun fuel _ _ _ hlt hlt' hbehind => ?_) hfuel hfuel'
  have hi := (expression_advances fuel).follows
  rw [expression_succ, expression_succ]
  exact (assignment_same hi hbehind).alt (binary_same (unary_advances hi _).follows
    (unary_same hi hbehind hlt hlt') levels) (le_refl _)

theorem statement_fuel (hfuel : cursor.rest.length < fuel) (hfuel' : cursor.rest.length < fuel') :
    Same cursor (statement fuel) (statement fuel') := by
  refine .of_fuel (fun fuel _ _ _ hlt hlt' hbehind => ?_) hfuel hfuel'
  have hs := (statement_advances fuel).follows
  have he := (expression_advances (fuel + 1)).follows
  have hb := (block_advances hs).follows
  have hexpr := expression_fuel hlt hlt'
  have hblock := block_same hs hbehind
  rw [statement_succ, statement_succ]
  exact stmtNode_same (stmtForm_same (type_advances _).follows he hb
    (type_fuel hlt hlt').behind hexpr hblock
    (branch_same he hb hexpr.behind hblock.behind hlt hlt')) (le_refl _)

theorem type_eq_readType (h : cursor.rest.length < fuel) : type fuel cursor = readType cursor :=
  type_fuel h (Nat.lt_succ_self _) (le_refl _)

theorem expression_eq_readExpr (h : cursor.rest.length < fuel) :
    expression fuel cursor = readExpr cursor :=
  expression_fuel h (Nat.lt_succ_self _) (le_refl _)

theorem statement_eq_readStmt (h : cursor.rest.length < fuel) :
    statement fuel cursor = readStmt cursor :=
  statement_fuel h (Nat.lt_succ_self _) (le_refl _)

theorem readType_advances : Advances readType :=
  fun _ _ _ heq => type_advances _ heq

theorem readExpr_advances : Advances readExpr :=
  fun _ _ _ heq => expression_advances _ heq

theorem readOperand_advances : Advances readOperand :=
  fun _ _ _ heq => unary_advances readExpr_advances.follows _ heq

theorem readStmt_advances : Advances readStmt :=
  fun _ _ _ heq => statement_advances _ heq

theorem readBranch_advances : Advances readBranch :=
  fun _ _ _ heq => branch_advances readExpr_advances.follows
    (block_advances readStmt_advances.follows).follows _ heq

theorem expression_sameBehind (cursor : Cursor) :
    SameBehind cursor (expression cursor.rest.length) readExpr :=
  fun _ hlt => expression_eq_readExpr (Cursor.length_lt_of_lt hlt)

theorem unary_same_readOperand {inner : Parser Expr} (hi : Follows inner)
    (h : SameBehind cursor inner readExpr) (hfuel : cursor.rest.length < fuel) :
    Same cursor (unary inner fuel) readOperand := by
  intro later hle
  have hlength := Cursor.length_le_of_le hle
  exact unary_same hi (h.later hle) (by omega) (Nat.lt_succ_self _) (le_refl later)

theorem readType_eq : readType = typeForm readType := by
  funext cursor
  exact typeForm_same (type_advances _).follows
    (fun _ hlt => type_eq_readType (Cursor.length_lt_of_lt hlt)) (le_refl cursor)

theorem readOperand_eq : readOperand = alt (postfixed readExpr) (prefixed readOperand) := by
  funext cursor
  have hi := readExpr_advances.follows
  refine (Same.alt (.refl _) (prefixed_same (unary_advances hi _).follows ?_)) (le_refl cursor)
  intro later hlt
  exact unary_same_readOperand hi (fun _ _ => rfl) (Cursor.length_lt_of_lt hlt) (le_refl later)

theorem readExpr_eq : readExpr = alt (assignment readExpr) (binary readOperand levels) := by
  funext cursor
  have hi := (expression_advances cursor.rest.length).follows
  have hbehind := expression_sameBehind cursor
  exact (assignment_same hi hbehind).alt (binary_same (unary_advances hi _).follows
    (unary_same_readOperand hi hbehind (Nat.lt_succ_self _)) levels) (le_refl cursor)

theorem readBranch_eq :
    readBranch = branchForm readExpr (block readStmt) readBranch := by
  funext cursor
  have he := readExpr_advances.follows
  have hb := (block_advances readStmt_advances.follows).follows
  refine branchForm_same he hb (branch_advances he hb _).follows (fun _ _ => rfl)
    (fun _ _ => rfl) ?_ (le_refl cursor)
  intro later hlt
  exact branch_same he hb (fun _ _ => rfl) (fun _ _ => rfl) (Cursor.length_lt_of_lt hlt)
    (Nat.lt_succ_self _) (le_refl later)

theorem readStmt_eq : readStmt =
    stmtNode (stmtForm readType readExpr (block readStmt) readBranch) := by
  funext cursor
  have hs := (statement_advances cursor.rest.length).follows
  have he := (expression_advances (cursor.rest.length + 1)).follows
  have hb := (block_advances hs).follows
  have hexpr : Same cursor (expression (cursor.rest.length + 1)) readExpr := by
    intro later hle
    exact expression_eq_readExpr (Nat.lt_succ_of_le (Cursor.length_le_of_le hle))
  have hblock : Same cursor (block (statement cursor.rest.length)) (block readStmt) :=
    block_same hs fun _ hlt => statement_eq_readStmt (Cursor.length_lt_of_lt hlt)
  refine stmtNode_same (stmtForm_same (type_advances _).follows he hb ?_ hexpr hblock ?_)
    (le_refl cursor)
  · intro later hlt
    exact type_eq_readType (Nat.lt_succ_of_lt (Cursor.length_lt_of_lt hlt))
  · intro later hle
    have hlength := Cursor.length_le_of_le hle
    exact branch_same he hb (hexpr.behind.later hle) (hblock.behind.later hle) (by omega)
      (Nat.lt_succ_self _) (le_refl later)

end Fuel

end PCode.Grammar
