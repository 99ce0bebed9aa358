import PCode.Proofs.Grammar.Types

namespace PCode

/-- A text in parentheses. -/
def paren (text : List Char) : List Char :=
  '(' :: (text ++ [')'])

/-- An integer as text. -/
def integerText (value : Int64) : List Char :=
  Grammar.signText (value.toInt < 0) ++ Nat.toDigits 10 value.toInt.natAbs

mutual

/-- An expression as text, its parts in parentheses. There is none for a real. -/
def Expr.form : Expr → List Char
  | .integer v _ => integerText v
  | .real .. => []
  | .text v _ => Grammar.quotedText v.toList
  | .boolean v _ => (toString v).toList
  | .name x _ => x.toList
  | .unary op e _ => op.symbol.toList ++ paren e.form
  | .binary op l r _ => paren l.form ++ (op.symbol.toList ++ paren r.form)
  | .member t field _ _ => paren t.form ++ ('.' :: field.form)
  | .assign t v _ => t.form ++ (":=".toList ++ paren v.form)
  | .cond c t e _ => "if".toList ++ (paren c.form ++ ("then".toList ++ (paren t.form ++
      ("else".toList ++ paren e.form))))
  | .lambda params body _ =>
    '\\' :: (params.flatMap (fun x => ' ' :: x.toList) ++ (" ->".toList ++ paren body.form))
  | .call f args _ => f.toList ++ ('(' :: (Expr.formList args ++ [')']))
  | .array items _ => '[' :: (Expr.formList items ++ [']'])
  | .index t p _ => paren t.form ++ ('[' :: (paren p.form ++ [']']))

/-- Expressions in parentheses, one after the other. -/
def Expr.formList : List Expr → List Char
  | [] => []
  | e :: es => paren e.form ++ Expr.formList es

end

theorem Expr.formList_eq_flatMap (es : List Expr) :
    Expr.formList es = es.flatMap fun e => paren e.form := by
  induction es with
  | nil => rfl
  | cons e es ih => rw [List.flatMap_cons, ← ih]; rfl

namespace Grammar

open PCode.Parser

section Starts

variable {inner : Parser Expr}

theorem numeral_opens : Opens numeral fun c => c.isDigit || c == '-' := by
  intro cursor value rest heq
  obtain ⟨sign, mid, hsign, hrest⟩ := bind_apply_eq_some_iff.mp heq
  obtain ⟨whole, mid', hwhole, -⟩ := bind_apply_eq_some_iff.mp hrest
  unfold maybe at hsign
  split at hsign
  · rename_i hminus
    obtain ⟨c, hc, hS⟩ := Opens.literal (by decide) hminus
    obtain rfl : '-' = c := by simpa using hS
    exact ⟨'-', hc, rfl⟩
  · cases hsign
    obtain ⟨c, hc, hS⟩ := (Opens.satisfy Char.isDigit).chars hwhole
    exact ⟨c, hc, by simp [hS]⟩

theorem number_begins : Begins number fun c => c.isDigit || c == '-' := by
  intro cursor value rest heq
  obtain ⟨n, hnumeral, -⟩ := number_apply_eq_some_iff.mp heq
  exact numeral_opens hnumeral

theorem node_begins {p : Parser (Note → Expr)} {S : Char → Bool} (h : Begins p S) :
    Begins (node p) S :=
  (h.spanned.token).map _

theorem string_begins : Begins (node (map quoted .text)) fun c => "\"".toList.head? == some c :=
  (((((Opens.literal (by decide)).bind _).map _).spanned).token).map _

theorem boolean_begins : Begins (node boolean) isWordChar :=
  node_begins (.alt ((keyword_begins _).map _) ((keyword_begins _).map _))

theorem conditional_begins : Begins (node (conditional inner)) isWordChar :=
  node_begins ((keyword_begins _).bind _)

theorem lambda_begins : Begins (node (lambda inner)) fun c => "\\".toList.head? == some c :=
  node_begins ((punct_begins (by decide)).bind _)

theorem call_begins : Begins (node (call inner)) isWordChar :=
  node_begins (ident_begins.bind _)

theorem array_begins : Begins (node (array inner)) fun c => "[".toList.head? == some c :=
  node_begins ((punct_begins (by decide)).bind _)

theorem identifier_begins : Begins (node identifier) isWordChar :=
  node_begins (ident_begins.map _)

theorem group_begins : Begins (group inner) fun c => "(".toList.head? == some c :=
  (punct_begins (by decide)).bind _

/-- The characters with which an expression can start. -/
def exprStart (c : Char) : Bool :=
  isWordChar c || ['"', '\\', '[', '(', '-', '+', '!'].contains c

theorem atom_begins : Begins (atom inner) exprStart := by
  apply Begins.choice
  simp only [List.forall_mem_cons]
  have hword : ∀ c, isWordChar c = true → exprStart c = true := by
    intro c hc
    rw [exprStart, hc, Bool.true_or]
  refine ⟨number_begins.mono ?_, string_begins.mono (of_starts (by decide)),
    boolean_begins.mono hword, conditional_begins.mono hword,
    lambda_begins.mono (of_starts (by decide)), call_begins.mono hword,
    array_begins.mono (of_starts (by decide)), identifier_begins.mono hword,
    group_begins.mono (of_starts (by decide)), nofun⟩
  intro c hc
  rw [Bool.or_eq_true, beq_iff_eq] at hc
  rcases hc with hc | rfl
  · exact hword c (isWordChar_of_isDigit hc)
  · rfl

theorem unaryOp_begins : Begins unaryOp exprStart := by
  apply Begins.choice
  simp only [List.forall_mem_cons]
  exact ⟨((op_begins (by decide)).mono (of_starts (by decide))).map _,
    ((op_begins (by decide)).mono (of_starts (by decide))).map _,
    ((op_begins (by decide)).mono (of_starts (by decide))).map _, nofun⟩

theorem unary_begins (fuel : Nat) : Begins (unary inner fuel) exprStart := by
  cases fuel with
  | zero => exact .reject
  | succ fuel =>
    refine .alt ?_ ?_
    · unfold postfixed
      rw [andThen_eq_bind]
      exact atom_begins.bind _
    · intro cursor value rest heq
      dsimp only at heq
      split at heq
      · rename_i hpair
        unfold pair at hpair
        rw [andThen_eq_bind] at hpair
        rw [← ahead_skipSpacing]
        exact unaryOp_begins.bind _ hpair
      · cases heq

theorem binary_begins {operand : Parser Expr} {S : Char → Bool} (h : Begins operand S)
    (levels : List (List BinaryOp)) : Begins (binary operand levels) S := by
  induction levels with
  | nil => exact h
  | cons level tighter ih =>
    unfold binary chainLeft
    rw [andThen_eq_bind]
    exact ih.bind _

theorem expression_begins (fuel : Nat) : Begins (expression fuel) exprStart := by
  cases fuel with
  | zero => exact .reject
  | succ fuel =>
    refine .alt ?_ (binary_begins (unary_begins _) _)
    refine Begins.bind (Begins.mono ident_begins.spanned.token ?_) _
    intro c hc
    simp [exprStart, hc]

end Starts

section Ends

variable {inner : Parser Expr} {rest : List Char}

/-- No suffix of an expression stands here. -/
def SuffixEnds (rest : List Char) : Prop :=
  ∀ c, rest.head? = some c → c ≠ '.' ∧ c ≠ '['

/-- The characters with which binary operators start. -/
def operatorStarts : List Char :=
  ['|', '&', '=', '!', '<', '>', '+', '-', '*', '/', '%']

/-- No expression goes on here. -/
def ExprEnds (rest : List Char) : Prop :=
  SuffixEnds rest ∧ ∀ c, ahead rest = some c → c ∉ operatorStarts

theorem exprEnds_cons {c : Char} (rest : List Char) (hspace : Text.isSpacing c = false)
    (hc : c ∉ '.' :: '[' :: operatorStarts) : ExprEnds (c :: rest) := by
  simp only [List.mem_cons, not_or] at hc
  refine ⟨?_, ?_⟩
  · intro d hd
    cases hd
    exact ⟨hc.1, hc.2.1⟩
  · intro d hd
    rw [ahead_cons rest hspace] at hd
    cases hd
    simpa [operatorStarts] using hc.2.2

theorem suffix_fails (hrest : SuffixEnds rest) : Fails (suffix inner) rest := by
  refine Reads.bind_fails (s := []) (Reads.maybe_none (literal_fails (by decide) ?_)) ?_
  · intro c hc hpoint
    cases hpoint
    exact (hrest '.' hc).1 rfl
  · intro o ho
    rw [ho]
    refine (literal_fails (by decide) ?_).bind _
    intro c hc hbracket
    cases hbracket
    exact (hrest '[' hc).2 rfl

theorem head_symbol (op : BinaryOp) :
    ∃ c ∈ operatorStarts, op.symbol.toList.head? = some c := by
  cases op <;> exact ⟨_, by decide, rfl⟩

theorem binaryOp_fails (hrest : ∀ c, ahead rest = some c → c ∉ operatorStarts)
    (table : List BinaryOp) : Fails (binaryOp table) rest := by
  apply Fails.choice
  intro p hp
  obtain ⟨op, -, rfl⟩ := List.mem_map.mp hp
  obtain ⟨c, hc, hhead⟩ := head_symbol op
  have hne : op.symbol.toList ≠ [] := by
    intro hnil
    rw [hnil] at hhead
    cases hhead
  refine ((op_begins hne).fails ?_).map _
  intro d hd
  rw [hhead]
  refine beq_eq_false_iff_ne.mpr ?_
  rintro ⟨⟩
  exact hrest c hd hc

theorem many_none {α β : Type} {p : Parser α} {fold : β → α → β} {init : β} (h : Fails p rest) :
    Reads (many p init fold) (fun b => b = init) [] rest := by
  intro offset
  refine ⟨init, ?_, rfl⟩
  simp only [many, repeated, foldMatches, List.nil_append, h offset]
  rfl

theorem many_one {α β : Type} {p : Parser α} {P : α → Prop} {fold : β → α → β} {init : β}
    {text : List Char} (h : Reads p P text rest) (hne : text ≠ []) (hend : Fails p rest) :
    Reads (many p init fold) (fun b => ∃ a, P a ∧ b = fold init a) text rest := by
  intro offset
  obtain ⟨a, ha, hPa⟩ := h offset
  refine ⟨fold init a, ?_, a, hPa, rfl⟩
  have hmoved : offset + byteLength text ≠ offset := by
    have hpos := byteLength_pos hne
    omega
  -- one round for the match and one to see that there is no other
  obtain ⟨fuel, hfuel⟩ : ∃ fuel, (text ++ rest).length = fuel + 1 :=
    Nat.exists_eq_succ_of_ne_zero fun hzero =>
      hne (List.append_eq_nil_iff.mp (List.eq_nil_of_length_eq_zero hzero)).1
  simp only [many, repeated, hfuel, foldMatches, ha, hmoved, if_false, hend _]

end Ends

/-- Up to places, a value is this expression. -/
def SameAs (e a : Expr) : Prop :=
  a.unplaced = e.unplaced

/-- What stands between the parentheses of an expression is read as that expression. -/
def ReadsForm (inner : Parser Expr) (e : Expr) : Prop :=
  ∀ rest, Reads inner (SameAs e) e.form (')' :: rest)

/-- An expression in parentheses is read as that expression. -/
def ReadsParen (inner : Parser Expr) (e : Expr) : Prop :=
  ∀ rest, ExprEnds rest → Reads inner (SameAs e) (paren e.form) rest

theorem unplaced_of_unknown {n : Note} (h : n.ty = .unknown) :
    n.unplaced = ⟨.point 0, .unknown⟩ := by
  rw [Note.unplaced, h]

theorem unplaced_note {n m : Note} (hn : n.ty = .unknown) (hm : m.ty = .unknown) :
    n.unplaced = m.unplaced := by
  rw [unplaced_of_unknown hn, unplaced_of_unknown hm]

section Lifts

variable {inner operand : Parser Expr} {P : Expr → Prop} {text rest : List Char} {e : Expr}

theorem postfixed_of_atom (h : Reads (atom inner) P text rest) (hrest : SuffixEnds rest) :
    Reads (postfixed inner) P text rest := by
  unfold postfixed
  rw [andThen_eq_bind]
  refine h.last fun first hfirst => (many_none (suffix_fails hrest)).imp ?_
  intro a ha
  rwa [ha]

theorem unary_of_postfixed (h : Reads (postfixed inner) P text rest) (fuel : Nat) :
    Reads (unary inner (fuel + 1)) P text rest :=
  h.alt_left

theorem pair_fails {α β : Type} {p : Parser α} {q : Parser β} (h : Fails p text) :
    Fails (pair p q) text := by
  unfold pair
  rw [andThen_eq_bind]
  exact h.bind _

theorem chainLeft_of_operand {level : List BinaryOp} (h : Reads operand P text rest)
    (hrest : Fails (binaryOp level) rest) :
    Reads (chainLeft operand (binaryOp level) applyBinary) P text rest := by
  unfold chainLeft
  rw [andThen_eq_bind]
  refine h.last fun first hfirst => (many_none (pair_fails hrest)).imp ?_
  intro a ha
  rwa [ha]

theorem binary_of_operand (h : Reads operand P text rest) {levels : List (List BinaryOp)}
    (hrest : ∀ level ∈ levels, Fails (binaryOp level) rest) :
    Reads (binary operand levels) P text rest := by
  induction levels with
  | nil => exact h
  | cons level tighter ih =>
    rw [List.forall_mem_cons] at hrest
    exact chainLeft_of_operand (ih hrest.2) hrest.1

theorem assignment_fails (h : Fails ident text) : Fails (assignment inner) text := by
  refine Fails.bind ?_ _
  intro offset
  have hident : ident (Cursor.skipSpacing ⟨offset, text⟩) = none := by
    rw [ident_skips]
    exact h offset
  simp only [token, spanned, hident]

theorem ahead_word {w : String} (hw : IsWord w) (rest : List Char) :
    ahead (w.toList ++ rest) = (w.toList ++ rest).head? := by
  obtain ⟨c, hahead, hhead, -, -⟩ := hw.ahead rest
  rw [hahead, hhead]

theorem assignment_fails_name {x : String} (hx : IsName x) (hrest : WordEnds rest)
    (hop : Fails (op ":=") rest) : Fails (assignment inner) (x.toList ++ rest) :=
  ((ident_reads hx hrest).spanned.token (ahead_word (isWord_of_isName hx) rest)).bind_fails
    fun _ _ => hop.bind _

theorem op_fails_cons {symbol : String} {c : Char} (hspace : Text.isSpacing c = false)
    (hne : symbol.toList ≠ []) (hc : (symbol.toList.head? == some c) = false) :
    Fails (op symbol) (c :: rest) :=
  (op_begins hne).fails_cons hspace hc

theorem expression_of_unary {fuel : Nat}
    (hassign : Fails (assignment (expression fuel)) (text ++ rest))
    (h : Reads (unary (expression fuel) (fuel + 1)) P text rest) (hrest : ExprEnds rest) :
    Reads (expression (fuel + 1)) P text rest :=
  Reads.alt_right hassign (binary_of_operand h fun level _ => binaryOp_fails hrest.2 level)

theorem expression_of_atom {fuel : Nat}
    (hassign : Fails (assignment (expression fuel)) (text ++ rest))
    (h : Reads (atom (expression fuel)) P text rest) (hrest : ExprEnds rest) :
    Reads (expression (fuel + 1)) P text rest :=
  expression_of_unary hassign (unary_of_postfixed (postfixed_of_atom h hrest.1) fuel) hrest

theorem atom_of_symbol {c : Char} (hc : c ∈ ['\\', '[', '('])
    (h : Reads (choice [node (lambda inner), node (call inner), node (array inner),
      node identifier, group inner]) P (c :: text) rest) :
    Reads (atom inner) P (c :: text) rest := by
  have hspace : Text.isSpacing c = false := eq_false_of_mem hc (by decide)
  have hword : isWordChar c = false := eq_false_of_mem hc (by decide)
  have hnumber := eq_false_of_mem (S := fun d => d.isDigit || d == '-') hc (by decide)
  have hquote := eq_false_of_mem (S := fun d => "\"".toList.head? == some d) hc (by decide)
  apply Reads.alt_right (number_begins.fails_cons hspace hnumber)
  apply Reads.alt_right (string_begins.fails_cons hspace hquote)
  apply Reads.alt_right (boolean_begins.fails_cons hspace hword)
  exact Reads.alt_right (conditional_begins.fails_cons hspace hword) h

theorem atom_reads_paren (h : Reads inner P text (')' :: rest)) :
    Reads (atom inner) P (paren text) rest := by
  refine atom_of_symbol (by decide) ?_
  refine Reads.alt_right (lambda_begins.fails_cons rfl (by decide)) ?_
  refine Reads.alt_right (call_begins.fails_cons rfl (by decide)) ?_
  refine Reads.alt_right (array_begins.fails_cons rfl (by decide)) ?_
  refine Reads.alt_right (identifier_begins.fails_cons rfl (by decide)) ?_
  refine Reads.alt_left ?_
  refine Reads.bind (s := ['(']) (punct_reads rfl (by decide)) fun _ _ => ?_
  refine Reads.bind h fun a ha => ?_
  exact Reads.last (punct_reads rfl (by decide)) fun _ _ => Reads.pure ha

theorem assignment_fails_paren : Fails (assignment inner) (paren text ++ rest) :=
  assignment_fails (ident_begins.fails_cons rfl (by decide))

theorem expression_reads_paren {fuel : Nat} (h : Reads (expression fuel) P text (')' :: rest))
    (hrest : ExprEnds rest) : Reads (expression (fuel + 1)) P (paren text) rest :=
  expression_of_atom assignment_fails_paren (atom_reads_paren h) hrest

end Lifts

end Grammar

end PCode
