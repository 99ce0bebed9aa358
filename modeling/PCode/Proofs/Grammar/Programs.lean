import PCode.Proofs.Grammar.Expressions

namespace PCode

/-- The text of the type of a declared function. -/
def Ty.declared : Ty → List Char
  | .function params _ ret =>
    params.flatMap (fun t => ' ' :: t.written) ++ (" ->".toList ++ (' ' :: ret.written))
  | _ => []

/-- A member of a record as text. -/
def memberText (m : String × Ty) : List Char :=
  '(' :: (m.1.toList ++ (' ' :: m.2.written ++ [')']))

/-- The parameters of a function as text. -/
def paramsText (params : List String) : List Char :=
  params.flatMap fun x => ' ' :: x.toList

/-- A name and its value as text. -/
def bindingText (b : String × Expr) : List Char :=
  ' ' :: b.1.toList ++ ('=' :: paren b.2.form)

/-- The bindings before the value of a function as text, if there are any. -/
def localsText : List (String × Expr) → List Char
  | [] => []
  | first :: others => "let".toList ++ (bindingText first ++
      (others.flatMap (fun b => ',' :: bindingText b) ++ "in".toList))

/-- Lines between braces. -/
def braced (lines : List Char) : List Char :=
  '\x7b' :: (lines ++ ['\n', '\x7d'])

mutual

/-- A statement as text. The second pair of parentheses around an expression keeps it apart from the
members of a record that stands before it. -/
def Stmt.written : Stmt → List Char
  | .expr e _ => paren (paren e.form)
  | .declare name ty _ => name.toList ++ (':' :: ty.declared)
  | .record name members _ =>
    "set".toList ++ (' ' :: name.toList ++ ('=' :: members.flatMap memberText))
  | .comment text _ => '#' :: text.toList
  | .ret e _ => "return".toList ++ paren e.form
  | .define name params locals e _ =>
    name.toList ++ (paramsText params ++ ('=' :: (localsText locals ++ paren e.form)))
  | .defineBlock name params locals body _ =>
    name.toList ++ (paramsText params ++ ('=' :: (localsText locals ++ braced (Stmt.lines body))))
  | .loop c body _ => "while".toList ++ (paren c.form ++ braced (Stmt.lines body))
  | .branch c t e _ => "if".toList ++ (paren c.form ++ (braced (Stmt.lines t) ++
      ("else".toList ++ braced (Stmt.lines e))))
  | .bind x e _ => "let".toList ++ bindingText (x, e)
  | .block body _ => braced (Stmt.lines body)

/-- Statements as text, each behind the end of a line. -/
def Stmt.lines : List Stmt → List Char
  | [] => []
  | s :: ss => '\n' :: s.written ++ Stmt.lines ss

end

theorem Stmt.lines_eq_flatMap (ss : List Stmt) :
    Stmt.lines ss = ss.flatMap fun s => '\n' :: s.written := by
  induction ss with
  | nil => rfl
  | cons s ss ih => rw [List.flatMap_cons, ← ih]; rfl

namespace Grammar

open PCode.Parser

section Starts

variable {ty : Parser Ty} {expr : Parser Expr} {body : Parser (List Stmt)} {inner : Parser Stmt}

theorem comment_begins : Begins comment fun c => "#".toList.head? == some c :=
  (punct_begins (by decide)).bind _

theorem recordMember_begins : Begins (recordMember ty) fun c => "(".toList.head? == some c :=
  (punct_begins (by decide)).bind _

theorem record_begins : Begins (record ty) isWordChar :=
  (keyword_begins _).bind _

theorem declaration_begins : Begins (declaration ty) isWordChar :=
  ident_begins.bind _

theorem definition_begins : Begins (definition expr body) isWordChar :=
  ident_begins.bind _

theorem returning_begins : Begins (returning expr) isWordChar := by
  unfold returning right pair
  rw [andThen_eq_bind]
  exact (((keyword_begins _).bind _).map _).map _

theorem loop_begins : Begins (loop expr body) isWordChar :=
  (keyword_begins _).bind _

theorem branch_begins (fuel : Nat) : Begins (branch expr body fuel) isWordChar := by
  cases fuel with
  | zero => exact .reject
  | succ fuel => exact (keyword_begins _).bind _

theorem bindStatement_begins : Begins (bindStatement expr) isWordChar :=
  (keyword_begins _).bind _

theorem block_begins : Begins (block inner) fun c => "\x7b".toList.head? == some c :=
  (punct_begins (by decide)).bind _

/-- The characters with which a statement can start. -/
def stmtStart (c : Char) : Bool :=
  exprStart c || ['#', '\x7b'].contains c

theorem statement_begins (fuel : Nat) : Begins (statement fuel) stmtStart := by
  cases fuel with
  | zero => exact .reject
  | succ fuel =>
    have hexpr : ∀ c, exprStart c = true → stmtStart c = true := by
      intro c hc
      rw [stmtStart, hc, Bool.true_or]
    have hword : ∀ c, isWordChar c = true → stmtStart c = true := by
      intro c hc
      apply hexpr
      rw [exprStart, hc, Bool.true_or]
    refine Begins.map (Begins.token (Begins.spanned ?_)) _
    apply Begins.choice
    simp only [List.forall_mem_cons]
    exact ⟨comment_begins.mono (of_starts (by decide)), record_begins.mono hword,
      declaration_begins.mono hword, definition_begins.mono hword, returning_begins.mono hword,
      loop_begins.mono hword, (branch_begins _).mono hword, bindStatement_begins.mono hword,
      (block_begins.mono (of_starts (by decide))).map _, ((expression_begins _).mono hexpr).map _,
      List.forall_mem_nil _⟩

theorem statement_skips (fuel : Nat) : Skips (statement fuel) := by
  cases fuel with
  | zero => exact fun _ => rfl
  | succ fuel => exact (Skips.token _).map _

end Starts

section Ends

variable {rest : List Char}

/-- No statement goes on here: there is nothing more on the line, and what follows neither continues
an expression nor is a member of a record. -/
structure StmtEnds (rest : List Char) : Prop where
  line : ∀ c, rest.head? = some c → c = '\n'
  operator : ∀ c, ahead rest = some c → c ∉ operatorStarts
  member : ∀ fuel, Fails (recordMember (type fuel)) rest

theorem StmtEnds.not_head (h : StmtEnds rest) {S : Char → Bool} (hS : S '\n' = false) :
    ∀ c, rest.head? = some c → S c = false := by
  intro c hc
  rw [h.line c hc]
  exact hS

theorem StmtEnds.expr (h : StmtEnds rest) : ExprEnds rest := by
  refine ⟨?_, h.operator⟩
  intro c hc
  rw [h.line c hc]
  decide

theorem StmtEnds.type (h : StmtEnds rest) : TypeEnds rest :=
  ⟨h.not_head (by decide), h.not_head (by decide)⟩

theorem stmtEnds_nil : StmtEnds [] :=
  ⟨nofun, nofun, fun _ => recordMember_begins.fails nofun⟩

theorem stmtEnds_line {c : Char} (rest : List Char) (hspace : Text.isSpacing c = false)
    (hc : c ∉ '(' :: operatorStarts) : StmtEnds ('\n' :: c :: rest) := by
  rw [List.mem_cons, not_or] at hc
  have hahead : ahead ('\n' :: c :: rest) = some c :=
    (ahead_space _ rfl).trans (ahead_cons rest hspace)
  refine ⟨?_, ?_, ?_⟩
  · rintro d ⟨⟩
    rfl
  · intro d hd
    rw [hahead] at hd
    cases hd
    exact hc.2
  · intro fuel
    apply recordMember_begins.fails
    intro d hd
    rw [hahead] at hd
    cases hd
    exact beq_eq_false_iff_ne.mpr fun h => hc.1 (Option.some.inj h).symm

theorem stmtEnds_word {w : String} (hw : IsWord w) (rest : List Char) :
    StmtEnds ('\n' :: (w.toList ++ rest)) := by
  obtain ⟨c, text, htext⟩ := List.exists_cons_of_ne_nil hw.nonempty
  have hc := hw.chars c (by rw [htext]; exact List.mem_cons_self)
  rw [htext, List.cons_append]
  refine stmtEnds_line _ (isSpacing_of_isWordChar hc) ?_
  intro hmem
  rw [eq_false_of_mem (S := isWordChar) hmem (by decide)] at hc
  cases hc

theorem stmtEnds_paren (text rest : List Char) :
    StmtEnds ('\n' :: (paren (paren text) ++ rest)) := by
  refine ⟨?_, ?_, ?_⟩
  · rintro d ⟨⟩
    rfl
  · rintro d ⟨⟩
    decide
  · intro fuel
    -- the name of a member would have to stand behind the first parenthesis
    have hopen : Reads (punct "(") (fun _ => True) ['\n', '('] (paren text ++ [')'] ++ rest) :=
      Reads.space (punct_reads rfl (by decide)) (punct_skips _) rfl
    exact hopen.bind_fails fun _ _ => (ident_begins.fails_cons rfl (by decide)).bind _

theorem stmtEnds_written {s : Stmt} (h : s.WellFormed) (rest : List Char) :
    StmtEnds ('\n' :: s.written ++ rest) := by
  have hkeyword : ∀ k ∈ keywords, ∀ text : List Char,
      StmtEnds ('\n' :: (k.toList ++ text) ++ rest) := by
    intro k hk text
    rw [List.cons_append, List.append_assoc]
    exact stmtEnds_word (isWord_of_mem_keywords hk) _
  have hname : ∀ x, IsName x → ∀ text : List Char,
      StmtEnds ('\n' :: (x.toList ++ text) ++ rest) := by
    intro x hx text
    rw [List.cons_append, List.append_assoc]
    exact stmtEnds_word (isWord_of_isName hx) _
  cases h with
  | expr => exact stmtEnds_paren _ rest
  | declare hx => exact hname _ hx _
  | define hx => exact hname _ hx _
  | defineBlock hx => exact hname _ hx _
  | record => exact hkeyword "set" (by decide) _
  | ret => exact hkeyword "return" (by decide) _
  | loop => exact hkeyword "while" (by decide) _
  | branch => exact hkeyword "if" (by decide) _
  | bind => exact hkeyword "let" (by decide) _
  | comment => exact stmtEnds_line _ rfl (by decide)
  | block => exact stmtEnds_line _ rfl (by decide)

end Ends

/-- Up to places, a value is this statement. -/
def SameStmt (s a : Stmt) : Prop :=
  a.unplaced = s.unplaced

/-- The form of a statement which, given any note of a node that is not checked, is this one. -/
def FormOf (s : Stmt) (form : Note → Stmt) : Prop :=
  ∀ m : Note, m.ty = .unknown → SameStmt s (form m)

/-- A statement is read where it ends. -/
def ReadsStmt (inner : Parser Stmt) (s : Stmt) : Prop :=
  ∀ rest, StmtEnds rest → Reads inner (SameStmt s) s.written rest

/-- Statements between braces are read, whatever follows them. -/
def ReadsBlock (inner : Parser Stmt) (body : List Stmt) : Prop :=
  ∀ rest, Reads (block inner) (fun ss => Stmt.unplacedList ss = Stmt.unplacedList body)
    (braced (Stmt.lines body)) rest

section Parts

variable {expr : Parser Expr} {inner : Parser Stmt} {text rest : List Char} {fuel : Nat}

theorem readsEach_types {ts : List Ty} (hts : ∀ t ∈ ts, t.WellFormed)
    (hfuel : (ts.flatMap fun t => ' ' :: t.written).length ≤ fuel) :
    ReadsEach (type fuel) id TypeEnds id (fun t => ' ' :: t.written) ts := by
  intro t ht
  refine ⟨List.cons_ne_nil _ _, fun rest => typeEnds_cons _ (by decide) (by decide), ?_⟩
  intro rest hrest
  have hlength := length_le_flatMap (fun t : Ty => ' ' :: t.written) ht
  rw [List.length_cons] at hlength
  exact (type_reads (hts t ht) (by omega) hrest).space (type_skips fuel) rfl

theorem declaration_reads {name : String} {params : List Ty} {variadic : Bool} {ret : Ty} {n : Note}
    (hname : IsName name) (hty : (Ty.function params variadic ret).WellFormed)
    (hfuel : (Ty.function params variadic ret).declared.length ≤ fuel) (hn : n.ty = .unknown)
    (hrest : TypeEnds rest) :
    Reads (declaration (type fuel)) (FormOf (.declare name (.function params variadic ret) n))
      (name.toList ++ (':' :: (Ty.function params variadic ret).declared)) rest := by
  cases hty with
  | function hparams hret =>
    simp only [Ty.declared, List.length_append, List.length_cons] at hfuel ⊢
    have harrow : Fails (type fuel) (" ->".toList ++ ' ' :: ret.written ++ rest) :=
      ((type_begins fuel).fails_cons rfl (by decide)).space (type_skips fuel) rfl
    refine Reads.bind (ident_reads hname (wordEnds_cons _ (by decide))) fun name' hname' => ?_
    refine Reads.bind (s := [':']) (op_reads rfl (by decide) ?_) fun _ _ => ?_
    · -- the character behind the colon is the space before a type or before the arrow
      cases params with
      | nil => exact opEnds_cons _ (by decide)
      | cons => exact opEnds_cons _ (by decide)
    refine Reads.bind ((readsEach_types hparams (by omega)).list
      (typeEnds_cons _ (by decide) (by decide)) harrow) fun params' hparams' => ?_
    refine Reads.bind (Reads.space (op_reads rfl (by decide) (opEnds_cons _ (by decide)))
      (op_skips _) rfl) fun _ _ => ?_
    refine Reads.last ((type_reads hret (by omega) hrest).space (type_skips fuel) rfl)
      fun ret' hret' => Reads.pure fun m hm => ?_
    rw [List.map_id, List.map_id] at hparams'
    rw [SameStmt, Stmt.unplaced, Stmt.unplaced, hname', hparams', hret', unplaced_note hm hn]

theorem recordMember_reads {m : String × Ty} (hname : IsName m.1) (hty : m.2.WellFormed)
    (hfuel : (memberText m).length ≤ fuel) :
    Reads (recordMember (type fuel)) (fun a => a = m) (memberText m) rest := by
  simp only [memberText, List.length_cons, List.length_append] at hfuel ⊢
  refine Reads.bind (s := ['(']) (punct_reads rfl (by decide)) fun _ _ => ?_
  refine Reads.bind (ident_reads hname (wordEnds_cons _ (by decide))) fun name hname => ?_
  refine Reads.bind ((type_reads hty (by omega) (typeEnds_cons _ (by decide) (by decide))).space
    (type_skips fuel) rfl) fun ty hty => ?_
  refine Reads.last (punct_reads rfl (by decide)) fun _ _ => Reads.pure ?_
  rw [hname, hty]

theorem record_reads {name : String} {members : List (String × Ty)} {n : Note}
    (hname : IsName name) (hne : members ≠ [])
    (hmembers : ∀ m ∈ members, IsName m.1 ∧ m.2.WellFormed)
    (hfuel : (members.flatMap memberText).length ≤ fuel) (hn : n.ty = .unknown)
    (hrest : StmtEnds rest) :
    Reads (record (type fuel)) (FormOf (.record name members n))
      ("set".toList ++ (' ' :: name.toList ++ ('=' :: members.flatMap memberText))) rest := by
  have heach : ReadsEach (recordMember (type fuel)) id (fun _ => True) id memberText members := by
    intro m hm
    refine ⟨List.cons_ne_nil _ _, fun _ => trivial, fun _ _ => ?_⟩
    exact recordMember_reads (hmembers m hm).1 (hmembers m hm).2
      (Nat.le_trans (length_le_flatMap memberText hm) hfuel)
  refine Reads.bind (keyword_reads (by decide) (wordEnds_cons _ (by decide))) fun _ _ => ?_
  refine Reads.bind (Reads.space (ident_reads hname (wordEnds_cons _ (by decide))) ident_skips rfl)
    fun name' hname' => ?_
  refine Reads.bind (s := ['=']) (op_reads rfl (by decide) ?_) fun _ _ => ?_
  · obtain ⟨m, ms, rfl⟩ := List.exists_cons_of_ne_nil hne
    exact opEnds_cons _ (by decide)
  refine Reads.last (heach.list1 trivial (hrest.member fuel) hne) fun members' hmembers' =>
    Reads.pure fun m hm => ?_
  rw [List.map_id, List.map_id] at hmembers'
  rw [SameStmt, Stmt.unplaced, Stmt.unplaced, hname', hmembers', unplaced_note hm hn]

theorem trim_of_trimmed {text : List Char} (h : Text.Trimmed text) : Text.trim text = text := by
  have hkeep : ∀ l : List Char, (∀ c, l.head? = some c → Text.isBlank c = false) →
      l.dropWhile Text.isBlank = l := by
    intro l hl
    cases l with
    | nil => rfl
    | cons c l => rw [List.dropWhile_cons_of_neg (by simp [hl c rfl])]
  rw [Text.trim, hkeep text h.1, hkeep text.reverse, List.reverse_reverse]
  intro c hc
  rw [List.head?_reverse] at hc
  exact h.2 c hc

theorem comment_reads {text : String} {n : Note} (htrim : Text.Trimmed text.toList)
    (hline : '\n' ∉ text.toList) (hn : n.ty = .unknown) (hrest : StmtEnds rest) :
    Reads comment (FormOf (.comment text n)) ('#' :: text.toList) rest := by
  have heach : ReadsEach (satisfy (· != '\n')) id (fun _ => True) id (fun c => [c])
      text.toList := by
    intro c hc
    refine ⟨List.cons_ne_nil _ _, fun _ => trivial, fun _ _ => Reads.satisfy ?_⟩
    exact bne_iff_ne.mpr fun heq => hline (heq ▸ hc)
  have hend : Fails (satisfy (· != '\n')) rest := by
    intro offset
    cases rest with
    | nil => rfl
    | cons c rest =>
      rw [hrest.line c rfl]
      rfl
  have hread := heach.list trivial hend
  rw [List.flatMap_singleton'] at hread
  refine Reads.bind (s := ['#']) (punct_reads rfl (by decide)) fun _ _ => ?_
  refine Reads.last hread fun chars hchars => Reads.pure fun m hm => ?_
  rw [List.map_id, List.map_id] at hchars
  rw [SameStmt, Stmt.unplaced, Stmt.unplaced, hchars, trim_of_trimmed htrim, String.ofList_toList,
    unplaced_note hm hn]

theorem binding_reads {b : String × Expr} (hname : IsName b.1) (hvalue : ReadsParen expr b.2)
    (hrest : ExprEnds rest) :
    Reads (binding expr) (fun a => (a.1, a.2.unplaced) = (b.1, b.2.unplaced)) (bindingText b)
      rest := by
  refine Reads.bind (Reads.space (ident_reads hname (wordEnds_cons _ (by decide))) ident_skips rfl)
    fun x hx => ?_
  refine Reads.bind (s := ['=']) (op_reads rfl (by decide) (opEnds_cons _ (by decide)))
    fun _ _ => ?_
  refine Reads.last (hvalue _ hrest) fun e he => Reads.pure ?_
  rw [hx, he]

theorem localBindings_reads {first : String × Expr} {others : List (String × Expr)}
    (h : ∀ b ∈ first :: others, IsName b.1 ∧ ReadsParen expr b.2) (hrest : WordEnds rest) :
    Reads (localBindings expr)
      (fun bs => bs.map (fun b => (b.1, b.2.unplaced)) =
        (first :: others).map fun b => (b.1, b.2.unplaced))
      (localsText (first :: others)) rest := by
  rw [List.forall_mem_cons] at h
  have heach : ReadsEach (right (punct ",") (binding expr)) (fun b => (b.1, b.2.unplaced)) ExprEnds
      (fun b => (b.1, b.2.unplaced)) (fun b => ',' :: bindingText b) others := by
    intro b hb
    refine ⟨List.cons_ne_nil _ _, fun _ => exprEnds_cons _ rfl (by decide), fun rest hrest => ?_⟩
    exact Reads.right (s := [',']) (punct_reads rfl (by decide))
      (binding_reads (h.2 b hb).1 (h.2 b hb).2 hrest)
  have hin : IsWord "in" := isWord_of_mem_keywords (by decide)
  have hend : Fails (right (punct ",") (binding expr)) ("in".toList ++ rest) :=
    (pair_fails (punct_fails_word hin (by decide) (by decide))).map _
  refine Reads.bind (keyword_reads (by decide) (wordEnds_cons _ (by decide))) fun _ _ => ?_
  refine Reads.bind (binding_reads h.1.1 h.1.2 ?_) fun first' hfirst' => ?_
  · rw [List.append_assoc]
    exact heach.follows (exprEnds_word hin)
  refine Reads.bind (heach.list (exprEnds_word hin) hend) fun others' hothers' => ?_
  refine Reads.last (keyword_reads (by decide) hrest) fun _ _ => Reads.pure ?_
  rw [List.map_cons, List.map_cons, hfirst', hothers']

theorem parameter_reads {x : String} (hx : IsName x) (hrest : WordEnds rest) :
    Reads parameter (fun a => a = x) (' ' :: x.toList) rest := by
  intro offset
  have hline : Cursor.newlineAhead ⟨offset, ' ' :: x.toList ++ rest⟩ = false := by
    obtain ⟨c, text, htext⟩ := List.exists_cons_of_ne_nil hx.nonempty
    have hc := (isWord_of_isName hx).chars c (by rw [htext]; exact List.mem_cons_self)
    have hspace : Text.isSpacing ' ' = true := rfl
    simp [Cursor.newlineAhead, htext, isSpacing_of_isWordChar hc, hspace]
  obtain ⟨a, ha, heq⟩ := Reads.space (c := ' ') (ident_reads hx hrest) ident_skips rfl offset
  refine ⟨a, ?_, heq⟩
  rw [parameter, hline]
  exact ha

theorem parameter_fails (h : Fails ident text) : Fails parameter text := by
  intro offset
  unfold parameter
  split
  · rfl
  · exact h offset

theorem readsEach_params {params : List String} (hparams : ∀ x ∈ params, IsName x) :
    ReadsEach parameter id WordEnds id (fun x => ' ' :: x.toList) params := by
  intro x hx
  refine ⟨List.cons_ne_nil _ _, fun _ => wordEnds_cons _ (by decide), fun rest hrest => ?_⟩
  exact parameter_reads (hparams x hx) hrest

theorem block_reads {body : List Stmt} (hbody : ∀ s ∈ body, s.WellFormed ∧ ReadsStmt inner s)
    (hskips : Skips inner) (hbegins : Begins inner stmtStart) : ReadsBlock inner body := by
  intro rest
  have heach : ReadsEach inner Stmt.unplaced StmtEnds Stmt.unplaced (fun s => '\n' :: s.written)
      body := by
    intro s hs
    refine ⟨List.cons_ne_nil _ _, stmtEnds_written (hbody s hs).1, fun rest hrest => ?_⟩
    exact ((hbody s hs).2 rest hrest).space hskips rfl
  have hend : Fails inner ('\n' :: '\x7d' :: rest) :=
    (hbegins.fails_cons rfl (by decide)).space hskips rfl
  rw [braced, Stmt.lines_eq_flatMap]
  refine Reads.bind (s := ['\x7b']) (punct_reads rfl (by decide)) fun _ _ => ?_
  refine Reads.bind (heach.list (stmtEnds_line _ rfl (by decide)) hend) fun body' hbody' => ?_
  refine Reads.last (Reads.space (punct_reads rfl (by decide)) (punct_skips _) rfl) fun _ _ =>
    Reads.pure ?_
  rw [Stmt.unplacedList_eq_map, Stmt.unplacedList_eq_map, hbody']

end Parts

section Statements

variable {inner : Parser Stmt} {text rest : List Char} {fuel : Nat} {n : Note}
  {P : (Note → Stmt) → Prop}
variable {params : List String}

theorem statementForm_of_symbol {c : Char} (hspace : Text.isSpacing c = false)
    (hword : isWordChar c = false) (hcomment : ("#".toList.head? == some c) = false)
    (h : Reads (choice [map (block inner) .block, map (expression fuel) .expr]) P (c :: text)
      rest) : Reads (statementForm fuel inner) P (c :: text) rest :=
  Reads.alt_right (comment_begins.fails_cons hspace hcomment) <|
    Reads.alt_right (record_begins.fails_cons hspace hword) <|
    Reads.alt_right (declaration_begins.fails_cons hspace hword) <|
    Reads.alt_right (definition_begins.fails_cons hspace hword) <|
    Reads.alt_right (returning_begins.fails_cons hspace hword) <|
    Reads.alt_right (loop_begins.fails_cons hspace hword) <|
    Reads.alt_right ((branch_begins fuel).fails_cons hspace hword) <|
    Reads.alt_right (bindStatement_begins.fails_cons hspace hword) h

theorem comment_fails_word {w : String} (hw : IsWord w) : Fails comment (w.toList ++ rest) :=
  (punct_fails_word hw (by decide) (by decide)).bind _

theorem statementForm_of_keyword {k : String} (hk : k ∈ keywords) (hset : k ≠ "set")
    (hrest : WordEnds (text ++ rest))
    (h : Reads (choice [returning (expression fuel), loop (expression fuel) (block inner),
      branch (expression fuel) (block inner) fuel, bindStatement (expression fuel),
      map (block inner) .block, map (expression fuel) .expr]) P (k.toList ++ text) rest) :
    Reads (statementForm fuel inner) P (k.toList ++ text) rest := by
  have hword := isWord_of_mem_keywords hk
  refine Reads.alt_right ?_ (Reads.alt_right ?_ (Reads.alt_right ?_ (Reads.alt_right ?_ h)))
  all_goals rw [List.append_assoc]
  · exact comment_fails_word hword
  · exact (keyword_fails hword hset hrest).bind _
  · exact (ident_fails hk hrest).bind _
  · exact (ident_fails hk hrest).bind _

theorem returning_fails_word {w : String} (hw : IsWord w) (hne : w ≠ "return")
    (hrest : WordEnds rest) : Fails (returning (expression fuel)) (w.toList ++ rest) :=
  ((pair_fails (keyword_fails hw hne hrest)).map _).map _

theorem loop_fails_word {w : String} (hw : IsWord w) (hne : w ≠ "while") (hrest : WordEnds rest) :
    Fails (loop (expression fuel) (block inner)) (w.toList ++ rest) :=
  (keyword_fails hw hne hrest).bind _

theorem branch_fails_word {w : String} (hw : IsWord w) (hne : w ≠ "if") (hrest : WordEnds rest) :
    Fails (branch (expression fuel) (block inner) fuel) (w.toList ++ rest) := by
  cases fuel with
  | zero => exact fun _ => rfl
  | succ fuel => exact (keyword_fails hw hne hrest).bind _

theorem form_reads_ret {e : Expr} (he : ReadsParen (expression fuel) e) (hn : n.ty = .unknown)
    (hrest : ExprEnds rest) :
    Reads (statementForm fuel inner) (FormOf (.ret e n)) ("return".toList ++ paren e.form)
      rest := by
  refine statementForm_of_keyword (by decide) (by decide) (wordEnds_paren _ _) (Reads.alt_left ?_)
  refine (Reads.right (keyword_reads (by decide) (wordEnds_paren _ _)) (he _ hrest)).map ?_
  intro e' he' m hm
  rw [SameStmt, Stmt.unplaced, Stmt.unplaced, he', unplaced_note hm hn]

theorem form_reads_loop {c : Expr} {body : List Stmt} (hc : ReadsParen (expression fuel) c)
    (hbody : ReadsBlock inner body) (hn : n.ty = .unknown) :
    Reads (statementForm fuel inner) (FormOf (.loop c body n))
      ("while".toList ++ (paren c.form ++ braced (Stmt.lines body))) rest := by
  have hends : WordEnds (paren c.form ++ braced (Stmt.lines body) ++ rest) :=
    wordEnds_cons _ (by decide)
  refine statementForm_of_keyword (by decide) (by decide) hends (Reads.alt_right ?_
    (Reads.alt_left ?_))
  · rw [List.append_assoc]
    exact returning_fails_word (isWord_of_mem_keywords (by decide)) (by decide) hends
  refine Reads.bind (keyword_reads (by decide) hends) fun _ _ => ?_
  refine Reads.bind (hc _ (exprEnds_cons _ rfl (by decide))) fun c' hc' => ?_
  refine Reads.last (hbody rest) fun body' hbody' => Reads.pure fun m hm => ?_
  rw [SameStmt, Stmt.unplaced, Stmt.unplaced, hc', hbody', unplaced_note hm hn]

theorem form_reads_branch {c : Expr} {t e : List Stmt} (hc : ReadsParen (expression (fuel + 1)) c)
    (ht : ReadsBlock inner t) (he : ReadsBlock inner e) (hn : n.ty = .unknown) :
    Reads (statementForm (fuel + 1) inner) (FormOf (.branch c t e n))
      ("if".toList ++ (paren c.form ++ (braced (Stmt.lines t) ++
        ("else".toList ++ braced (Stmt.lines e))))) rest := by
  have hends : WordEnds (paren c.form ++ (braced (Stmt.lines t) ++
      ("else".toList ++ braced (Stmt.lines e))) ++ rest) := wordEnds_cons _ (by decide)
  have hif : IsWord "if" := isWord_of_mem_keywords (by decide)
  refine statementForm_of_keyword (by decide) (by decide) hends (Reads.alt_right ?_
    (Reads.alt_right ?_ (Reads.alt_left ?_)))
  · rw [List.append_assoc]
    exact returning_fails_word hif (by decide) hends
  · rw [List.append_assoc]
    exact loop_fails_word hif (by decide) hends
  refine Reads.bind (keyword_reads (by decide) hends) fun _ _ => ?_
  refine Reads.bind (hc _ (exprEnds_cons _ rfl (by decide))) fun c' hc' => ?_
  refine Reads.bind (ht _) fun t' ht' => ?_
  -- both blocks are written, also an empty one behind `else`
  refine Reads.bind (Reads.maybe_some (keyword_reads (by decide) (wordEnds_cons _ (by decide)))) ?_
  intro o ⟨found, ho, _⟩
  rw [ho]
  refine Reads.last (Reads.maybe_some (he _)) ?_
  intro o ⟨e', ho, he'⟩
  rw [ho]
  refine Reads.pure fun m hm => ?_
  rw [SameStmt, Stmt.unplaced, Stmt.unplaced, hc', ht', he', unplaced_note hm hn]

theorem form_reads_bind {x : String} {e : Expr} (hx : IsName x)
    (he : ReadsParen (expression fuel) e) (hn : n.ty = .unknown) (hrest : ExprEnds rest) :
    Reads (statementForm fuel inner) (FormOf (.bind x e n)) ("let".toList ++ bindingText (x, e))
      rest := by
  have hends : WordEnds (bindingText (x, e) ++ rest) := wordEnds_cons _ (by decide)
  have hlet : IsWord "let" := isWord_of_mem_keywords (by decide)
  refine statementForm_of_keyword (by decide) (by decide) hends (Reads.alt_right ?_
    (Reads.alt_right ?_ (Reads.alt_right ?_ (Reads.alt_left ?_))))
  · rw [List.append_assoc]
    exact returning_fails_word hlet (by decide) hends
  · rw [List.append_assoc]
    exact loop_fails_word hlet (by decide) hends
  · rw [List.append_assoc]
    exact branch_fails_word hlet (by decide) hends
  refine Reads.bind (keyword_reads (by decide) hends) fun _ _ => ?_
  refine Reads.last (binding_reads (b := (x, e)) hx he hrest) fun b hb => Reads.pure fun m hm => ?_
  rw [Prod.mk.injEq] at hb
  rw [SameStmt, Stmt.unplaced, Stmt.unplaced, hb.1, hb.2, unplaced_note hm hn]

theorem form_reads_block {body : List Stmt} (hbody : ReadsBlock inner body)
    (hn : n.ty = .unknown) :
    Reads (statementForm fuel inner) (FormOf (.block body n)) (braced (Stmt.lines body)) rest := by
  refine statementForm_of_symbol rfl (by decide) (by decide) (Reads.alt_left ((hbody rest).map ?_))
  intro body' hbody' m hm
  rw [SameStmt, Stmt.unplaced, Stmt.unplaced, hbody', unplaced_note hm hn]

theorem form_reads_expr {e : Expr} (he : ReadsParen (expression fuel) e) (hn : n.ty = .unknown)
    (hrest : ExprEnds rest) :
    Reads (statementForm (fuel + 1) inner) (FormOf (.expr e n)) (paren (paren e.form)) rest := by
  refine statementForm_of_symbol rfl (by decide) (by decide) (Reads.alt_right
    ((block_begins.fails_cons rfl (by decide)).map _) (Reads.alt_left ?_))
  refine (expression_reads_paren (he _ (exprEnds_close rest)) hrest).map ?_
  intro e' he' m hm
  rw [SameStmt, Stmt.unplaced, Stmt.unplaced, he', unplaced_note hm hn]

theorem form_reads_record (h : Reads (record (type fuel)) P ("set".toList ++ text) rest) :
    Reads (statementForm fuel inner) P ("set".toList ++ text) rest := by
  refine Reads.alt_right ?_ (Reads.alt_left h)
  rw [List.append_assoc]
  exact comment_fails_word (isWord_of_mem_keywords (by decide))

theorem statementForm_of_name {x : String} (hx : IsName x) (hrest : WordEnds (text ++ rest))
    (h : Reads (choice [declaration (type fuel), definition (expression fuel) (block inner),
      returning (expression fuel), loop (expression fuel) (block inner),
      branch (expression fuel) (block inner) fuel, bindStatement (expression fuel),
      map (block inner) .block, map (expression fuel) .expr]) P (x.toList ++ text) rest) :
    Reads (statementForm fuel inner) P (x.toList ++ text) rest := by
  have hword := isWord_of_isName hx
  have hset : x ≠ "set" := fun heq => hx.keyword (heq ▸ by decide)
  refine Reads.alt_right ?_ (Reads.alt_right ?_ h)
  · rw [List.append_assoc]
    exact comment_fails_word hword
  · rw [List.append_assoc]
    exact (keyword_fails hword hset hrest).bind _

variable {name : String} (hname : IsName name)
include hname

theorem definition_of_head {expr : Parser Expr} {body : Parser (List Stmt)}
    (hparams : ∀ x ∈ params, IsName x) (hop : OpEnds (text ++ rest))
    (h : Reads (do
      match ← maybe body with
      | some body => return .defineBlock name params [] body
      | none =>
        let locals ← maybe (localBindings expr)
        let value ← expr
        return .define name params (locals.getD []) value) P text rest) :
    Reads (definition expr body) P (name.toList ++ (paramsText params ++ ('=' :: text))) rest := by
  have heach := readsEach_params hparams
  have hequals : WordEnds ('=' :: text ++ rest) := wordEnds_cons _ (by decide)
  have hend : Fails parameter ('=' :: text ++ rest) :=
    parameter_fails (ident_begins.fails_cons rfl (by decide))
  refine Reads.bind (ident_reads hname ?_) fun name' hname' => ?_
  · rw [List.append_assoc]
    exact heach.follows hequals
  rw [hname']
  refine Reads.bind (heach.list hequals hend) fun params' hparams' => ?_
  rw [List.map_id, List.map_id] at hparams'
  rw [hparams']
  exact Reads.bind (s := ['=']) (op_reads rfl (by decide) hop) fun _ _ => h

theorem declaration_fails_head (hparams : ∀ x ∈ params, IsName x) :
    Fails (declaration (type fuel)) (name.toList ++ (paramsText params ++ ('=' :: text))) := by
  -- behind the name stands the `=` or the first parameter, and no colon
  cases params with
  | nil =>
    exact (ident_reads hname (wordEnds_cons _ (by decide))).bind_fails fun _ _ =>
      (op_fails_cons rfl (by decide) rfl).bind _
  | cons x params =>
    have hx : Fails (op ":") (' ' :: (x.toList ++ (paramsText params ++ '=' :: text))) :=
      Fails.space (op_fails_word (isWord_of_isName (hparams x List.mem_cons_self)) (by decide)
        (by decide)) (op_skips _) rfl
    have hhead : paramsText (x :: params) ++ '=' :: text =
        ' ' :: (x.toList ++ (paramsText params ++ '=' :: text)) := by
      simp [paramsText]
    rw [hhead]
    exact (ident_reads hname (wordEnds_cons _ (by decide))).bind_fails fun _ _ => hx.bind _

theorem statementForm_of_definition (hparams : ∀ x ∈ params, IsName x)
    (h : Reads (definition (expression fuel) (block inner)) P (name.toList ++ (paramsText params
      ++ ('=' :: text))) rest) :
    Reads (statementForm fuel inner) P (name.toList ++ (paramsText params ++ ('=' :: text)))
      rest := by
  refine statementForm_of_name hname ?_ (Reads.alt_right ?_ (Reads.alt_left h))
  · rw [List.append_assoc]
    exact (readsEach_params hparams).follows (wordEnds_cons _ (by decide))
  · rw [List.append_assoc, List.append_assoc, List.cons_append]
    exact declaration_fails_head hname hparams

theorem form_reads_defineBlock {body : List Stmt} (hparams : ∀ x ∈ params, IsName x)
    (hbody : ReadsBlock inner body) (hn : n.ty = .unknown) :
    Reads (statementForm fuel inner) (FormOf (.defineBlock name params [] body n))
      (name.toList ++ (paramsText params ++ ('=' :: braced (Stmt.lines body)))) rest := by
  apply statementForm_of_definition hname hparams
  apply definition_of_head hname hparams (opEnds_cons _ (by decide))
  refine Reads.last (Reads.maybe_some (hbody rest)) ?_
  intro o ⟨body', ho, hbody'⟩
  rw [ho]
  refine Reads.pure fun m hm => ?_
  rw [SameStmt, Stmt.unplaced, Stmt.unplaced, hbody', unplaced_note hm hn]

theorem form_reads_define {locals : List (String × Expr)} {e : Expr}
    (hparams : ∀ x ∈ params, IsName x)
    (hlocals : ∀ b ∈ locals, IsName b.1 ∧ ReadsParen (expression fuel) b.2)
    (he : ReadsParen (expression fuel) e) (hn : n.ty = .unknown) (hrest : ExprEnds rest) :
    Reads (statementForm fuel inner) (FormOf (.define name params locals e n))
      (name.toList ++ (paramsText params ++ ('=' :: (localsText locals ++ paren e.form))))
      rest := by
  apply statementForm_of_definition hname hparams
  cases locals with
  | nil =>
    -- without bindings the value follows at once
    have hlet : Fails (localBindings (expression fuel)) (paren e.form ++ rest) :=
      ((keyword_begins _).fails_cons rfl (by decide)).bind _
    apply definition_of_head hname hparams (opEnds_cons _ (by decide))
    refine Reads.bind (s := []) (Reads.maybe_none (block_begins.fails_cons rfl (by decide))) ?_
    intro o ho
    rw [ho]
    refine Reads.bind (s := []) (Reads.maybe_none hlet) fun locals' hlocals' => ?_
    refine Reads.last (he _ hrest) fun e' he' => Reads.pure fun m hm => ?_
    rw [hlocals', SameStmt, Stmt.unplaced, Stmt.unplaced, he', unplaced_note hm hn]
    rfl
  | cons first others =>
    apply definition_of_head hname hparams (opEnds_cons _ (by decide))
    refine Reads.bind (s := []) (Reads.maybe_none (block_begins.fails_cons rfl (by decide))) ?_
    intro o ho
    rw [ho]
    refine Reads.bind (Reads.maybe_some (localBindings_reads hlocals (wordEnds_paren _ _))) ?_
    intro locals' ⟨bs, hsome, hbs⟩
    refine Reads.last (he _ hrest) fun e' he' => Reads.pure fun m hm => ?_
    rw [hsome, SameStmt, Stmt.unplaced, Stmt.unplaced, he', unplaced_note hm hn]
    exact congrArg (Stmt.define name params · _ _) hbs

end Statements

theorem ahead_written {s : Stmt} (h : s.WellFormed) (rest : List Char) :
    ahead (s.written ++ rest) = (s.written ++ rest).head? := by
  have hword : ∀ w : String, IsWord w → ∀ text : List Char,
      ahead (w.toList ++ text ++ rest) = (w.toList ++ text ++ rest).head? := by
    intro w hw text
    rw [List.append_assoc]
    exact ahead_word hw _
  have hkeyword : ∀ k ∈ keywords, IsWord k := fun k => isWord_of_mem_keywords
  cases h with
  | expr => exact ahead_cons _ rfl
  | declare hx => exact hword _ (isWord_of_isName hx) _
  | define hx => exact hword _ (isWord_of_isName hx) _
  | defineBlock hx => exact hword _ (isWord_of_isName hx) _
  | record => exact hword _ (hkeyword "set" (by decide)) _
  | ret => exact hword _ (hkeyword "return" (by decide)) _
  | loop => exact hword _ (hkeyword "while" (by decide)) _
  | branch => exact hword _ (hkeyword "if" (by decide)) _
  | bind => exact hword _ (hkeyword "let" (by decide)) _
  | comment => exact ahead_cons _ rfl
  | block => exact ahead_cons _ rfl

/-- With more fuel than a statement has characters, it is read. -/
def Legible (s : Stmt) : Prop :=
  ∀ fuel, s.written.length ≤ fuel → ∀ rest, StmtEnds rest →
    Reads (statementForm (fuel + 1) (statement fuel)) (FormOf s) s.written rest

namespace Legible

variable {fuel : Nat}

theorem statement {s : Stmt} (h : Legible s) (hs : s.WellFormed) (hfuel : s.written.length < fuel) :
    ReadsStmt (Grammar.statement fuel) s := by
  intro rest hrest
  obtain ⟨fuel, rfl⟩ := Nat.exists_eq_succ_of_ne_zero (Nat.ne_of_gt (Nat.zero_lt_of_lt hfuel))
  have hform := h fuel (Nat.le_of_lt_succ hfuel) rest hrest
  exact (hform.spanned.token (ahead_written hs rest)).map fun _ hs => hs _ rfl

theorem block {body : List Stmt} (h : ∀ s ∈ body, Legible s) (hbody : ∀ s ∈ body, s.WellFormed)
    (hfuel : (braced (Stmt.lines body)).length ≤ fuel) :
    ReadsBlock (Grammar.statement fuel) body := by
  rw [braced, Stmt.lines_eq_flatMap] at hfuel
  simp only [List.length_cons, List.length_append] at hfuel
  refine block_reads (fun s hs => ⟨hbody s hs, (h s hs).statement (hbody s hs) ?_⟩)
    (statement_skips _) (statement_begins _)
  have hlength := length_le_flatMap (fun s : Stmt => '\n' :: s.written) hs
  rw [List.length_cons] at hlength
  omega

end Legible

theorem length_bindingText_le {locals : List (String × Expr)} {b : String × Expr}
    (h : b ∈ locals) : (bindingText b).length ≤ (localsText locals).length := by
  cases locals with
  | nil => cases h
  | cons first others =>
    rw [localsText]
    simp only [List.length_append]
    rcases List.mem_cons.mp h with rfl | hb
    · omega
    · have hlength := length_le_flatMap (fun b => ',' :: bindingText b) hb
      rw [List.length_cons] at hlength
      omega

theorem legible_of_wellFormed {s : Stmt} (h : s.WellFormed) (hreal : s.realFree = true) :
    Legible s := by
  -- a statement needs one unit of fuel more than those in its blocks
  induction h with
  | @expr e n he hn =>
    intro fuel hfuel rest hrest
    change (paren (paren e.form)).length ≤ fuel at hfuel
    rw [length_paren] at hfuel
    exact form_reads_expr ((readable_of_wellFormed he hreal).paren (by omega)) hn hrest.expr
  | @declare name params variadic ret n hname hty hn =>
    intro fuel hfuel rest hrest
    change (name.toList ++ (':' :: (Ty.function params variadic ret).declared)).length ≤
      fuel at hfuel
    rw [List.length_append, List.length_cons] at hfuel
    exact statementForm_of_name hname (wordEnds_cons _ (by decide))
      (Reads.alt_left (declaration_reads hname hty (by omega) hn hrest.type))
  | @record name members n hname hne hmembers hn =>
    intro fuel hfuel rest hrest
    change ("set".toList ++ (' ' :: name.toList ++ ('=' :: members.flatMap memberText))).length ≤
      fuel at hfuel
    simp only [List.length_append, List.length_cons] at hfuel
    exact form_reads_record (record_reads hname hne hmembers (by omega) hn hrest)
  | comment htrim hline hn =>
    intro fuel hfuel rest hrest
    exact Reads.alt_left (comment_reads htrim hline hn hrest)
  | @ret e n he hn =>
    intro fuel hfuel rest hrest
    change ("return".toList ++ paren e.form).length ≤ fuel at hfuel
    rw [List.length_append] at hfuel
    exact form_reads_ret ((readable_of_wellFormed he hreal).paren (by omega)) hn hrest.expr
  | @define name params locals e n hname hparams hlocals he hn =>
    intro fuel hfuel rest hrest
    change (name.toList ++ (paramsText params ++ ('=' ::
      (localsText locals ++ paren e.form)))).length ≤ fuel at hfuel
    simp only [List.length_append, List.length_cons] at hfuel
    rw [Stmt.realFree, Bool.and_eq_true, List.all_eq_true] at hreal
    refine form_reads_define hname hparams (fun b hb => ⟨(hlocals b hb).1, ?_⟩)
      ((readable_of_wellFormed he hreal.2).paren (by omega)) hn hrest.expr
    have hlength := length_bindingText_le hb
    simp only [bindingText, List.length_append, List.length_cons] at hlength
    exact (readable_of_wellFormed (hlocals b hb).2 (hreal.1 b hb)).paren (by omega)
  | @defineBlock name params body n hname hparams hbody hn ih =>
    intro fuel hfuel rest hrest
    change (name.toList ++ (paramsText params ++ ('=' :: braced (Stmt.lines body)))).length ≤
      fuel at hfuel
    simp only [List.length_append, List.length_cons] at hfuel
    rw [Stmt.realFree, Bool.and_eq_true, Stmt.realFreeList_iff] at hreal
    exact form_reads_defineBlock hname hparams
      (Legible.block (fun s hs => ih s hs (hreal.2 s hs)) hbody (by omega)) hn
  | @loop c body n hc hbody hn ih =>
    intro fuel hfuel rest hrest
    change ("while".toList ++ (paren c.form ++ braced (Stmt.lines body))).length ≤ fuel at hfuel
    simp only [List.length_append] at hfuel
    rw [Stmt.realFree, Bool.and_eq_true, Stmt.realFreeList_iff] at hreal
    exact form_reads_loop ((readable_of_wellFormed hc hreal.1).paren (by omega))
      (Legible.block (fun s hs => ih s hs (hreal.2 s hs)) hbody (by omega)) hn
  | @branch c t e n hc ht he hn iht ihe =>
    intro fuel hfuel rest hrest
    change ("if".toList ++ (paren c.form ++ (braced (Stmt.lines t) ++
      ("else".toList ++ braced (Stmt.lines e))))).length ≤ fuel at hfuel
    simp only [List.length_append] at hfuel
    simp only [Stmt.realFree, Bool.and_eq_true, Stmt.realFreeList_iff] at hreal
    exact form_reads_branch ((readable_of_wellFormed hc hreal.1.1).paren (by omega))
      (Legible.block (fun s hs => iht s hs (hreal.1.2 s hs)) ht (by omega))
      (Legible.block (fun s hs => ihe s hs (hreal.2 s hs)) he (by omega)) hn
  | @bind x e n hx he hn =>
    intro fuel hfuel rest hrest
    change ("let".toList ++ bindingText (x, e)).length ≤ fuel at hfuel
    simp only [bindingText, List.length_append, List.length_cons] at hfuel
    exact form_reads_bind hx ((readable_of_wellFormed he hreal).paren (by omega)) hn hrest.expr
  | @block body n hbody hn ih =>
    intro fuel hfuel rest hrest
    rw [Stmt.realFree, Stmt.realFreeList_iff] at hreal
    exact form_reads_block (Legible.block (fun s hs => ih s hs (hreal s hs)) hbody hfuel) hn

end Grammar

namespace Program

open PCode.Parser PCode.Grammar

/-- The text of a well-formed program without real literals is read as that program, up to
places. -/
theorem parse_lines {program : Program} (h : program.WellFormed)
    (hreal : Stmt.realFreeList program = true) :
    ∃ program', Program.parse (String.ofList (Stmt.lines program)) = .ok program' ∧
      Stmt.unplacedList program' = Stmt.unplacedList program := by
  rw [Stmt.realFreeList_iff] at hreal
  have heach : ReadsEach (statement ((Stmt.lines program).length + 1)) Stmt.unplaced StmtEnds
      Stmt.unplaced (fun s => '\n' :: s.written) program := by
    intro s hs
    refine ⟨List.cons_ne_nil _ _, stmtEnds_written (h s hs), fun rest hrest => ?_⟩
    have hlength := length_le_flatMap (fun s : Stmt => '\n' :: s.written) hs
    rw [← Stmt.lines_eq_flatMap, List.length_cons] at hlength
    have hread := (legible_of_wellFormed (h s hs) (hreal s hs)).statement (h s hs)
      (Nat.lt_succ_of_lt hlength) rest hrest
    exact hread.space (statement_skips _) rfl
  -- no statement starts at the end of the text, and there is nothing left but the end
  obtain ⟨program', hsame, hall⟩ := heach.repeated (fun items s => s :: items) stmtEnds_nil
    ((statement_begins _).fails nofun) [] 0
  rw [List.append_nil, ← Stmt.lines_eq_flatMap] at hall
  refine ⟨program', ?_, ?_⟩
  · simp only [Program.parse, Cursor.ofText, String.toList_ofList, hall]
    rw [List.foldl_flip_cons_eq_append', List.append_nil, List.reverse_reverse]
    rfl
  · rw [Stmt.unplacedList_eq_map, Stmt.unplacedList_eq_map, hsame]

/-- The image of the parser: every program that is read is well-formed, and every well-formed
program without real literals is, up to places, what some text is read as. -/
theorem parse_image :
    (∀ (text : String) (program : Program), Program.parse text = .ok program →
      program.WellFormed) ∧
    ∀ program : Program, program.WellFormed → Stmt.realFreeList program = true →
      ∃ (text : String) (program' : Program), Program.parse text = .ok program' ∧
        Stmt.unplacedList program' = Stmt.unplacedList program := by
  refine ⟨fun text program => parse_wellFormed, fun program h hreal => ?_⟩
  obtain ⟨program', hparse, hsame⟩ := parse_lines h hreal
  exact ⟨_, program', hparse, hsame⟩

end Program

section Samples

/-- A node that is not checked. -/
def bare : Note :=
  ⟨.point 0, .unknown⟩

/-- Boxes that hold further boxes, and their sizes. -/
def boxesProgram : Program :=
  [.comment "boxes in boxes" bare,
    .record "box" [("size", .i64), ("inner", .array (.named "box"))] bare,
    .declare "twice" (.function [.named "box"] false .i64) bare,
    .define "twice" ["b"] [("two", .integer 2 bare)]
      (.binary .mul (.member (.name "b" bare) (.name "size" bare) none bare) (.name "two" bare)
        bare) bare,
    .defineBlock "main" [] []
      [.bind "b" (.call "box" [.integer (-1) bare, .array [] bare] bare) bare,
        .loop (.unary .not (.boolean false bare) bare)
          [.ret (.call "twice" [.name "b" bare] bare) bare] bare] bare]

theorem boxesProgram_wellFormed : boxesProgram.WellFormed := by
  have hbox : (Ty.named "box").WellFormed := .named (by decide) (by decide)
  have hb : (Expr.name "b" bare).WellFormed := .name (by decide) rfl
  have htrim : Text.Trimmed "boxes in boxes".toList := by
    simp [Text.Trimmed, Text.isBlank, Text.CodeRanges.mem, Text.blanks]
  simp only [Program.WellFormed, boxesProgram, List.forall_mem_cons]
  refine ⟨.comment htrim (by decide) rfl, .record (by decide) (by decide) ?_ rfl,
    .declare (by decide) (.function ?_ .i64) rfl, .define (by decide) (by decide) ?_ ?_ rfl,
    .defineBlock (by decide) (by decide) ?_ rfl, nofun⟩
  · simp only [List.forall_mem_cons]
    exact ⟨⟨by decide, .i64⟩, ⟨by decide, .array hbox⟩, nofun⟩
  · simp only [List.forall_mem_cons]
    exact ⟨hbox, nofun⟩
  · simp only [List.forall_mem_cons]
    exact ⟨⟨by decide, .integer rfl⟩, nofun⟩
  · exact .binary (.member hb (by decide) rfl rfl) (.name (by decide) rfl) rfl
  · simp only [List.forall_mem_cons]
    refine ⟨.bind (by decide) (.call (by decide) ?_ rfl) rfl,
      .loop (.unary (.boolean rfl) rfl) ?_ rfl, nofun⟩
    · simp only [List.forall_mem_cons]
      exact ⟨.integer rfl, .array nofun rfl, nofun⟩
    · simp only [List.forall_mem_cons]
      refine ⟨.ret (.call (by decide) ?_ rfl) rfl, nofun⟩
      simp only [List.forall_mem_cons]
      exact ⟨hb, nofun⟩

theorem parse_image_boxes :
    boxesProgram.WellFormed ∧ Stmt.realFreeList boxesProgram = true ∧
      ∃ (text : String) (program : Program), Program.parse text = .ok program ∧
        Stmt.unplacedList program = Stmt.unplacedList boxesProgram ∧ program.WellFormed := by
  obtain ⟨text, program, hparse, hsame⟩ :=
    Program.parse_image.2 boxesProgram boxesProgram_wellFormed rfl
  exact ⟨boxesProgram_wellFormed, rfl, text, program, hparse, hsame,
    Program.parse_image.1 text program hparse⟩

end Samples

end PCode
