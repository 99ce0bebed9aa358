import PCode.Proofs.Grammar.CutExpressions
import PCode.Proofs.Grammar.Termination

namespace PCode.Grammar

open PCode.Parser

variable {α β : Type} {tail : List Char} {c d : Cursor}

section Forms

variable {params : List String}

/-- The forms of a statement that start with a word or a brace. -/
def wordForms : List (Parser (Note → Stmt)) :=
  [record readType, declaration readType, definition readExpr (block readStmt), returning readExpr,
    loop readExpr (block readStmt), readBranch, bindStatement readExpr, map (block readStmt) .block]

/-- The forms of a statement without the first ones. -/
def formsFrom (n : Nat) : Parser (Note → Stmt) :=
  choice ((comment :: (wordForms ++ [map readExpr Stmt.expr])).drop n)

theorem block_starts : Starts (block readStmt) fun ch => "\x7b".toList.head? == some ch :=
  (punct_starts (by decide)).first (block_advances readStmt_advances.follows)

/-- The characters with which statements other than comments start. -/
def formStart (ch : Char) : Bool :=
  exprStart ch || ch == '\x7b'

theorem exprStart_of_wordStart (ch : Char) (h : wordStart ch = true) : exprStart ch = true := by
  simp only [wordStart, Bool.and_eq_true] at h
  rw [exprStart, h.1, Bool.true_or]

/-- What stands behind the `if` of a branch. -/
def branchBody : Parser (Note → Stmt) := do
  let test ← readExpr
  let thenBody ← block readStmt
  match ← maybe (keyword "else") with
  | none => return .branch test thenBody []
  | some () =>
    match ← maybe (block readStmt) with
    | some elseBody => return .branch test thenBody elseBody
    | none =>
      let (form, span) ← token (spanned readBranch)
      return .branch test thenBody [form ⟨span, .unknown⟩]

theorem branchForm_eq : branchForm readExpr (block readStmt) readBranch =
    keyword "if" >>= fun _ => branchBody :=
  rfl

theorem branchBody_follows : Follows branchBody := by
  have hblock := block_starts.advances.follows
  refine readExpr_advances.follows.bind fun _ => hblock.bind fun _ =>
    (keyword_advances _).follows.maybe.bind fun behind => ?_
  cases behind with
  | none => exact .pure _
  | some _ =>
    refine hblock.maybe.bind fun found => ?_
    cases found with
    | some _ => exact .pure _
    | none => exact readBranch_advances.follows.spanned.token.bind fun _ => .pure _

/-- The bindings and the value of a definition. -/
def definitionValue (name : String) (params : List String) : Parser (Note → Stmt) := do
  let locals ← maybe (localBindings readExpr)
  let value ← readExpr
  return .define name params (locals.getD []) value

/-- What stands behind the sign of a definition. -/
def definitionBody (name : String) (params : List String) : Parser (Note → Stmt) := do
  match ← maybe (block readStmt) with
  | some body => return .defineBlock name params [] body
  | none => definitionValue name params

theorem definition_eq : definition readExpr (block readStmt) =
    ident >>= fun name => list parameter >>= fun params => op "=" >>= fun _ =>
      definitionBody name params :=
  rfl

theorem definitionValue_starts {name : String} :
    Starts (definitionValue name params) exprStart := by
  have hexpr := readExpr_advances.follows
  have hlocals : Starts (localBindings readExpr) exprStart :=
    ((keyword_starts _).first (localBindings_advances hexpr)).mono exprStart_of_wordStart
  exact .maybe_bind hlocals (fun _ => hexpr.bind fun _ => .pure _)
    (readExpr_starts.bind fun _ => .pure _)

theorem definitionBody_starts {name : String} : Starts (definitionBody name params) formStart := by
  refine .maybe_bind (block_starts.mono (of_starts (by decide))) (fun _ => .pure _)
    (definitionValue_starts.mono fun ch hch => ?_)
  rw [formStart, hch, Bool.true_or]

theorem definitionBody_follows {name : String} : Follows (definitionBody name params) :=
  definitionBody_starts.advances.follows

theorem readBranch_starts : Starts readBranch wordStart := by
  have hadvances := readBranch_advances
  rw [readBranch_eq] at hadvances ⊢
  exact (keyword_starts _).first hadvances

theorem fromExpr_starts : Starts (formsFrom 9) exprStart :=
  (readExpr_starts.map _).alt .reject

theorem wordForms_start : ∀ p ∈ wordForms, Starts p (wordOr ['\x7b']) := by
  have htype := readType_advances.follows
  have hexpr := readExpr_advances.follows
  have hblock := block_starts.advances.follows
  have hreturning : Starts (returning readExpr) wordStart := by
    unfold returning
    rw [right_eq_bind]
    exact ((keyword_starts _).bind fun _ => hexpr).map _
  unfold wordForms
  simp only [List.forall_mem_cons]
  exact ⟨((keyword_starts _).first (record_advances htype)).mono wordOr_of_wordStart,
    (ident_starts.first (declaration_advances htype)).mono wordOr_of_wordStart,
    (ident_starts.first (definition_advances hexpr hblock)).mono wordOr_of_wordStart,
    hreturning.mono wordOr_of_wordStart,
    ((keyword_starts _).first (loop_advances hexpr hblock)).mono wordOr_of_wordStart,
    readBranch_starts.mono wordOr_of_wordStart,
    ((keyword_starts _).first (bindStatement_advances hexpr)).mono wordOr_of_wordStart,
    (block_starts.map _).mono (of_starts (by decide)), nofun⟩

theorem fromRecord_starts : Starts (formsFrom 1) formStart := by
  apply Starts.choice
  intro p hp
  rcases List.mem_append.mp hp with hp | hp
  · refine (wordForms_start p hp).mono fun ch hch => ?_
    simp only [wordOr, Bool.or_eq_true, List.contains_iff_mem, List.mem_singleton] at hch
    rcases hch with hword | rfl
    · rw [formStart, exprStart_of_wordStart ch hword, Bool.true_or]
    · decide
  · rw [List.mem_singleton.mp hp]
    refine (readExpr_starts.map _).mono fun ch hch => ?_
    rw [formStart, hch, Bool.true_or]

/-- The words with which statements start: those of expressions and some keywords. -/
def StmtWord (ks : List String) (w : String) : Prop :=
  w ∈ ks ∨ ExprWord w

instance (ks : List String) (w : String) : Decidable (StmtWord ks w) :=
  inferInstanceAs (Decidable (_ ∨ _))

theorem keyword_leads_stmt {k : String} {ks : List String} (hk : k ∈ ks) :
    Leads (keyword k) (StmtWord ks) :=
  (keyword_leads k).mono fun _ hw => .inl (hw ▸ hk)

theorem StmtWord.cons {k w : String} {ks : List String} (h : StmtWord ks w) :
    StmtWord (k :: ks) w :=
  h.imp_left (List.mem_cons_of_mem k)

theorem ident_leads_stmt {ks : List String} : Leads ident (StmtWord ks) :=
  ident_leads.mono fun _ hw => .inr (.inl hw)

theorem fromBlock_leads : Leads (formsFrom 8) (StmtWord []) := by
  have hblock : Leads (map (block readStmt) Stmt.block) (StmtWord []) :=
    .of_begins (block_starts.begins.map _) (not_starts_of (by decide))
  exact hblock.alt (((readExpr_leads.mono fun _ => .inr).map _).alt .reject)

theorem fromBranch_leads : Leads (formsFrom 6) (StmtWord ["let"]) := by
  have hbranch : Leads readBranch (StmtWord ["let"]) := by
    rw [readBranch_eq, branchForm_eq]
    exact .bind ((keyword_leads "if").mono fun w hw => .inr (.inr (by rw [hw]; decide)))
      fun _ => branchBody_follows
  have hbind : Leads (bindStatement readExpr) (StmtWord ["let"]) :=
    (keyword_leads_stmt (by decide)).bind fun _ =>
      (binding_advances readExpr_advances.follows).follows.bind fun _ => .pure _
  exact hbranch.alt (hbind.alt (fromBlock_leads.mono fun _ => .cons))

theorem fromLoop_leads : Leads (formsFrom 5) (StmtWord ["while", "let"]) := by
  have hloop : Leads (loop readExpr (block readStmt)) (StmtWord ["while", "let"]) :=
    (keyword_leads_stmt (by decide)).bind fun _ => readExpr_advances.follows.bind fun _ =>
      block_starts.advances.follows.bind fun _ => .pure _
  exact hloop.alt (fromBranch_leads.mono fun _ => .cons)

theorem fromDeclaration_leads : Leads (formsFrom 2) (StmtWord ["return", "while", "let"]) := by
  have hreturning : Leads (returning readExpr) (StmtWord ["return", "while", "let"]) := by
    unfold returning
    rw [right_eq_bind]
    exact ((keyword_leads_stmt (by decide)).bind fun _ => readExpr_advances.follows).map _
  have hdefinition : Leads (definition readExpr (block readStmt))
      (StmtWord ["return", "while", "let"]) :=
    ident_leads_stmt.bind fun _ => parameter_advances.follows.list.bind fun _ =>
      (op_follows _).bind fun _ => definitionBody_follows
  have hdeclaration : Leads (declaration readType) (StmtWord ["return", "while", "let"]) :=
    ident_leads_stmt.bind fun _ => (op_follows _).bind fun _ =>
      readType_advances.follows.list.bind fun _ => (op_follows _).bind fun _ =>
        readType_advances.follows.bind fun _ => .pure _
  exact hdeclaration.alt (hdefinition.alt (hreturning.alt (fromLoop_leads.mono fun _ => .cons)))

theorem forms_leads : Leads (formsFrom 0) (StmtWord ["set", "return", "while", "let"]) := by
  have hcomment : Leads comment (StmtWord ["set", "return", "while", "let"]) :=
    .of_begins comment_begins (not_starts_of (by decide))
  have hrecord : Leads (record readType) (StmtWord ["set", "return", "while", "let"]) :=
    (keyword_leads_stmt (by decide)).bind fun _ => ident_advances.follows.bind fun _ =>
      (op_follows _).bind fun _ =>
        (recordMember_advances readType_advances.follows).list1.follows.bind fun _ => .pure _
  exact hcomment.alt (hrecord.alt (fromDeclaration_leads.mono fun _ => .cons))

theorem readStmt_eq_forms : readStmt = stmtNode (formsFrom 0) :=
  readStmt_eq

theorem readStmt_starts : Starts readStmt stmtStart := by
  have hbegins : Begins readStmt stmtStart := fun _ _ _ heq => statement_begins _ heq
  have hskips : Skips readStmt := by
    rw [readStmt_eq_forms]
    exact (Skips.token _).map _
  exact ⟨hskips, readStmt_advances, hbegins⟩

theorem readStmt_leads : Leads readStmt (StmtWord ["set", "return", "while", "let"]) := by
  rw [readStmt_eq_forms]
  exact forms_leads.spanned.token.map _

theorem form_of_readStmt {s : Stmt} (h : readStmt c = some (s, d)) :
    ∃ form, formsFrom 0 c.skipSpacing = some (form, d) := by
  rw [readStmt_eq_forms] at h
  unfold stmtNode at h
  rw [map_eq_bind] at h
  obtain ⟨a, mid, ha, hpure⟩ := bind_apply_eq_some_iff.mp h
  obtain ⟨-, rfl⟩ := pure_apply_eq_some_iff.mp hpure
  exact ⟨a.1, (spanned_apply_eq_some_iff.mp ha).1⟩

theorem readExpr_of_map {form : Note → Stmt} (h : map readExpr Stmt.expr c = some (form, d)) :
    ∃ e, readExpr c = some (e, d) := by
  rw [map_eq_bind] at h
  obtain ⟨e, mid, he, hpure⟩ := bind_apply_eq_some_iff.mp h
  obtain ⟨-, rfl⟩ := pure_apply_eq_some_iff.mp hpure
  exact ⟨e, he⟩

theorem readExpr_of_forms {x : String} {m : Cursor} {form : Note → Stmt}
    (hname : ident c = some (x, m)) (h : formsFrom 4 c = some (form, d)) :
    ∃ e, readExpr c = some (e, d) := by
  have hkeyword : ∀ k ∈ keywords, keyword k c = none :=
    fun k hk => keyword_eq_none_of_ident hname hk
  obtain ⟨p, hp, heq⟩ := mem_of_choice h
  simp only [wordForms, List.cons_append, List.nil_append, List.drop, List.mem_cons,
    List.not_mem_nil, or_false] at hp
  rcases hp with rfl | rfl | rfl | rfl | rfl | rfl
  · unfold returning at heq
    rw [right_eq_bind, map_eq_none_iff.mpr (bind_eq_none (hkeyword "return" (by decide)) _)] at heq
    cases heq
  · exact absurd ((bind_eq_none (hkeyword "while" (by decide)) _).symm.trans heq) nofun
  · rw [readBranch_eq] at heq
    exact absurd ((bind_eq_none (hkeyword "if" (by decide)) _).symm.trans heq) nofun
  · exact absurd ((bind_eq_none (hkeyword "let" (by decide)) _).symm.trans heq) nofun
  · have hblock := (block_starts.begins.map Stmt.block).eq_none (ident_starts.begins hname)
      (not_of_starts (by decide))
    rw [hblock] at heq
    cases heq
  · exact readExpr_of_map heq

end Forms

section Goes

/-- On the whole text, statements follow a place up to the cut or to a closing brace. -/
inductive Goes (tail : List Char) : Cursor → Prop
  | blank {d : Cursor} (h : ahead d.rest = none) : Goes tail d
  | closed {d : Cursor} (h : ahead d.rest = some '\x7d') : Goes tail d
  | next {d d' : Cursor} {s : Stmt} (h : readStmt (d.extend tail) = some (s, d'.extend tail))
      (others : Goes tail d') : Goes tail d

theorem readExpr_of_readStmt {s : Stmt} {ch : Char} (h : readStmt c = some (s, d))
    (hc : ahead c.rest = some ch) (hch : goesOn ch = true) : ∃ e, readExpr c = some (e, d) := by
  obtain ⟨form, hform⟩ := form_of_readStmt h
  rw [← ahead_skipSpacing] at hc
  obtain ⟨p, hp, heq⟩ := mem_of_choice hform
  rcases List.mem_cons.mp hp with rfl | hp
  · have hstart := start_of_ahead comment_begins heq hc
    rw [show ch = '#' from eq_of_starts rfl hstart] at hch
    exact absurd hch (by decide)
  · rcases List.mem_append.mp hp with hp | hp
    · have hstart := start_of_ahead (wordForms_start p hp).begins heq hc
      simp only [wordOr, Bool.or_eq_true, List.contains_iff_mem, List.mem_singleton] at hstart
      rcases hstart with hword | rfl
      · rw [goesOn_of_wordStart ch hword] at hch
        cases hch
      · exact absurd hch (by decide)
    · rw [List.mem_singleton.mp hp] at heq
      obtain ⟨e, he⟩ := readExpr_of_map heq
      rw [readExpr_starts.skips] at he
      exact ⟨e, he⟩

theorem Goes.follow (hs : Solid tail) (h : Goes tail d) : Follow tail d := by
  cases h with
  | blank h => exact .free fun ch hch => by rw [h] at hch; cases hch
  | closed h =>
    refine .free fun ch hch => ?_
    rw [h] at hch
    cases hch
    decide
  | next h others =>
    cases hahead : ahead d.rest with
    | none => exact .free fun ch hch => by rw [hahead] at hch; cases hch
    | some ch =>
      cases hgoes : goesOn ch with
      | false =>
        refine .free fun ch' hch' => ?_
        rw [hahead] at hch'
        cases hch'
        exact hgoes
      | true =>
        obtain ⟨e, he⟩ := readExpr_of_readStmt h (hs.ahead hahead) hgoes
        exact .expr he

theorem Goes.else_eq_none (hs : Solid tail) (h : Goes tail d) : keyword "else" d = none := by
  cases h with
  | blank h => exact (keyword_starts _).begins.none_of_blank h
  | closed h => exact (keyword_starts _).begins.none_of_ahead h (by decide)
  | next h others => exact readStmt_leads.keyword_eq_none hs h (by decide)

end Goes

section Parameters

theorem parameter_begins : Begins parameter wordStart :=
  fun _ _ _ heq => ident_starts.begins (parameter_apply_eq_some_iff.mp heq).2

theorem parameter_cuts (hs : Solid tail) {region : UpperSet Cursor} {F : Cursor → Prop} :
    Cuts tail region parameter F := by
  refine ⟨parameter_advances.follows, ?_⟩
  intro c x d hc heq hd
  rw [parameter_apply_eq_some_iff, hs.newlineAhead] at heq
  exact parameter_apply_eq_some_iff.mpr ⟨heq.1, (ident_cuts hs).same hc heq.2 hd⟩

theorem parameter_keeps (hs : Solid tail) : Keeps tail parameter := by
  refine ⟨parameter_advances.follows, ?_⟩
  intro c x d heq hd
  rw [parameter_apply_eq_some_iff] at heq
  rw [parameter_apply_eq_some_iff, hs.newlineAhead]
  exact ⟨heq.1, (ident_keeps hs).same heq.2 hd⟩

end Parameters

section Lines

variable {region : UpperSet Cursor} {F : Cursor → Prop} (hs : Solid tail)

include hs

theorem comment_cuts : Cuts tail region comment F :=
  .after (punct_cuts hs _) fun _ => ((satisfy_row _).list.always).last

theorem recordMember_extend {a : String × Ty} (h : recordMember readType c = some (a, d)) :
    recordMember readType (c.extend tail) = some (a, d.extend tail) := by
  obtain ⟨_, m₁, hopen, h⟩ := bind_apply_eq_some_iff.mp h
  obtain ⟨name, m₂, hname, h⟩ := bind_apply_eq_some_iff.mp h
  obtain ⟨ty, m₃, hty, h⟩ := bind_apply_eq_some_iff.mp h
  obtain ⟨_, m₄, hclose, h⟩ := bind_apply_eq_some_iff.mp h
  obtain ⟨rfl, rfl⟩ := pure_apply_eq_some_iff.mp h
  have hm₃ : m₃.rest ≠ [] := Cursor.rest_ne_nil_of_lt (punct_advances (by decide) hclose)
  have hm₂ : m₂.rest ≠ [] := rest_ne_nil_of_le (readType_advances.follows hty) hm₃
  refine (bind_eq_of_some ((punct_extend_iff hs).mpr hopen)).trans ?_
  refine (bind_eq_of_some ((ident_keeps hs).same hname hm₂)).trans ?_
  refine (bind_eq_of_some ((readType_keeps hs).same hty hm₃)).trans ?_
  exact bind_eq_of_some ((punct_extend_iff hs).mpr hclose)

theorem recordMember_row : Cuts.Row tail region (recordMember readType) Anywhere Anywhere where
  advances := recordMember_advances readType_advances.follows
  cuts := .after (punct_cuts hs _) fun _ => .after (ident_cuts hs) fun _ =>
    .after (readType_cuts hs) fun _ => .after (punct_cuts hs _) fun _ => .pure _
  next _ _ _ _ _ _ := trivial
  last _ _ _ := trivial
  stop _ _ hnone _ := eq_none_of_extend (fun _ _ => recordMember_extend hs) hnone

theorem record_cuts : Cuts tail region (record readType) F :=
  .after (keyword_cuts hs _) fun _ => .after (ident_cuts hs) fun _ => .after (op_cuts hs _) fun _ =>
    (recordMember_row hs).list1.always.last

theorem declaration_cuts : Cuts tail region (declaration readType) F := by
  have hparams : Cuts.Row tail region readType Anywhere
      (Ahead fun ch => "->".toList.head? == some ch) :=
    .before readType_advances (readType_cuts hs) (fun _ _ _ heq => type_begins _ heq)
      (not_starts_of (by decide)) (fun _ _ _ _ _ _ => trivial) fun _ _ => trivial
  exact .after (ident_cuts hs) fun _ => .after (op_cuts hs _) fun _ =>
    .before hs hparams.list (op_starts (by decide)) (op_cuts hs _) (fun _ hd => hd) fun _ _ =>
      (readType_cuts hs).last

theorem binding_cuts : Cuts tail region (binding readExpr) (Follow tail) :=
  .after (ident_cuts hs) fun _ => .after (op_cuts hs _) fun _ => (readExpr_cuts hs region).last

theorem localBindings_cuts : Cuts tail region (localBindings readExpr) F := by
  have hcomma : Starts (right (punct ",") (binding readExpr))
      fun ch => ",".toList.head? == some ch := by
    rw [right_eq_bind]
    exact (punct_starts (by decide)).bind fun _ =>
      (binding_advances readExpr_advances.follows).follows
  have hcuts : Cuts tail region (right (punct ",") (binding readExpr)) (Follow tail) := by
    rw [right_eq_bind]
    exact .after (punct_cuts hs _) fun _ => binding_cuts hs
  have hrow : Cuts.Row tail region (right (punct ",") (binding readExpr)) (Follow tail)
      (Ahead wordStart) :=
    .before hcomma.advances hcuts hcomma.begins (not_of_starts (by decide))
      (fun _ _ _ _ heq _ => follow_of_ahead (not_of_starts (by decide)) (hcomma.ahead hs heq))
      fun _ => follow_of_ahead goesOn_of_wordStart
  refine .after (keyword_cuts hs _) fun _ => .bind (binding_cuts hs) (fun _ => .before hs hrow.list
    (keyword_starts _) (keyword_cuts hs _) (fun _ hd => hd) fun _ _ => .pure _) ?_
  -- behind the first binding stands a comma or the keyword
  intro d first b e hd heq _
  obtain ⟨others, mid, hothers, hrest⟩ := bind_apply_eq_some_iff.mp heq
  obtain ⟨_, mid', hin, hpure⟩ := bind_apply_eq_some_iff.mp hrest
  obtain ⟨-, rfl⟩ := pure_apply_eq_some_iff.mp hpure
  obtain ⟨k, rfl, -⟩ := Cursor.exists_extend_of_le ((keyword_advances _).follows hin)
  exact (hrow.cut ((list_apply_eq_some_iff hrow.advances).mp hothers) hd
    ((keyword_starts _).ahead hs hin)).2

theorem returning_cuts : Cuts tail region (returning readExpr) (Goes tail) := by
  unfold returning
  rw [right_eq_bind]
  exact (Cuts.after (keyword_cuts hs _) fun _ =>
    (readExpr_cuts hs region).mono fun _ => Goes.follow hs).map _

theorem bindStatement_cuts : Cuts tail region (bindStatement readExpr) (Goes tail) :=
  .after (keyword_cuts hs _) fun _ => ((binding_cuts hs).mono fun _ => Goes.follow hs).last

end Lines

end PCode.Grammar
