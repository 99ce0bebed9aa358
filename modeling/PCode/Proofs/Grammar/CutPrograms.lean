import PCode.Proofs.Grammar.CutForms

namespace PCode.Grammar

open PCode.Parser

variable {α β : Type} {tail : List Char} {c d : Cursor}

section Nested

variable {start : Cursor} {F : Cursor → Prop} (hs : Solid tail)
  (hstmt : Cuts tail (.Ioi start) readStmt (Goes tail))

include hs hstmt

theorem block_cuts : Cuts tail (.Ici start) (block readStmt) F := by
  have hrow : Cuts.Row tail (.Ioi start) readStmt (Goes tail)
      (Ahead fun ch => "\x7d".toList.head? == some ch) := by
    refine .before readStmt_advances hstmt readStmt_starts.begins (not_starts_of (by decide))
      (fun _ _ _ _ heq hd => .next heq hd) fun d hd => ?_
    obtain ⟨ch, hahead, hch⟩ := hd
    rw [show ch = '\x7d' from eq_of_starts rfl hch] at hahead
    exact .closed hahead
  exact .guard (punct_cuts hs _) (punct_advances (by decide)) fun _ =>
    .before hs hrow.list (punct_starts (by decide)) (punct_cuts hs _) (fun _ hd => hd)
      fun _ _ => .pure _

theorem loop_cuts : Cuts tail (.Ici start) (loop readExpr (block readStmt)) (Goes tail) :=
  .after (keyword_cuts hs _) fun _ => .before hs (readExpr_cuts hs _) block_starts
    (block_cuts hs hstmt) (fun _ => follow_of_ahead (not_of_starts (by decide))) fun _ _ => .pure _

omit hstmt in
theorem definitionValue_cuts {region : UpperSet Cursor} {name : String} {params : List String} :
    Cuts tail region (definitionValue name params) (Goes tail) := by
  have hexpr : Cuts tail region readExpr (Goes tail) :=
    (readExpr_cuts hs region).mono fun _ => Goes.follow hs
  refine .maybe_bind (G := Anywhere) (localBindings_cuts hs) (fun _ => hexpr.last)
    (fun _ _ _ _ _ _ _ => trivial) ?_
  intro c b d _ _ heq _
  obtain ⟨e, mid, he, hpure⟩ := bind_apply_eq_some_iff.mp heq
  obtain ⟨-, rfl⟩ := pure_apply_eq_some_iff.mp hpure
  exact bind_eq_none (readExpr_leads.keyword_eq_none hs he (by decide)) _

theorem definitionBody_cuts {name : String} {params : List String} :
    Cuts tail (.Ici start) (definitionBody name params) (Goes tail) := by
  refine .maybe_bind (G := Anywhere) (block_cuts hs hstmt) (fun found => ?_)
    (fun _ _ _ _ _ _ _ => trivial) ?_
  · cases found with
    | some _ => exact .pure _
    | none => exact definitionValue_cuts hs
  · intro c b d _ _ heq _
    exact block_starts.begins.eq_none (definitionValue_starts.ahead hs heq)
      (not_of_starts (by decide))

theorem definition_cuts :
    Cuts tail (.Ici start) (definition readExpr (block readStmt)) (Goes tail) := by
  have hparams : Cuts.Row tail (.Ici start) parameter Anywhere
      (Ahead fun ch => "=".toList.head? == some ch) :=
    .before parameter_advances (parameter_cuts hs) parameter_begins (not_starts_of (by decide))
      (fun _ _ _ _ _ _ => trivial) fun _ _ => trivial
  rw [definition_eq]
  exact .after (ident_cuts hs) fun _ => .before hs hparams.list (op_starts (by decide))
    (op_cuts hs _) (fun _ hd => hd) fun _ _ => definitionBody_cuts hs hstmt

theorem branch_cuts (hbranch : Cuts tail (.Ioi start) readBranch (Goes tail)) :
    Cuts tail (.Ici start) readBranch (Goes tail) := by
  have hblock : Cuts tail (.Ioi start) (block readStmt) Anywhere :=
    (block_cuts hs hstmt).shrink (UpperSet.Ici_le_Ioi start)
  rw [readBranch_eq, branchForm_eq]
  refine .guard (keyword_cuts hs _) (keyword_advances _) fun _ =>
    .before hs (readExpr_cuts hs _) block_starts hblock
      (fun _ => follow_of_ahead (not_of_starts (by decide))) fun test thenBody => ?_
  refine .maybe_bind (G := Anywhere) (keyword_cuts hs _) (fun behind => ?_)
    (fun _ _ _ _ _ _ _ => trivial) ?_
  · cases behind with
    | none => exact .pure _
    | some _ =>
      refine .maybe_bind (G := Anywhere) hblock (fun found => ?_) (fun _ _ _ _ _ _ _ => trivial) ?_
      · cases found with
        | some _ => exact .pure _
        | none => exact (Cuts.token hs hbranch.spanned).last
      · intro c b d _ _ heq _
        obtain ⟨_, mid, hfurther, hpure⟩ := bind_apply_eq_some_iff.mp heq
        obtain ⟨-, rfl⟩ := pure_apply_eq_some_iff.mp hpure
        have hplain := (spanned_apply_eq_some_iff.mp hfurther).1
        rw [readBranch_starts.skips] at hplain
        exact block_starts.begins.eq_none (readBranch_starts.ahead hs hplain)
          (not_of_starts (by decide))
  · intro c b d _ _ heq hd
    obtain ⟨-, hplace⟩ := pure_apply_eq_some_iff.mp heq
    rw [Cursor.extend_inj] at hplace
    subst hplace
    exact hd.else_eq_none hs

end Nested

section Alternatives

variable {form : Note → Stmt}

theorem not_goes_of_ahead {ch : Char} (hs : Solid tail) (hd : ahead d.rest = some ch)
    (hch : stmtStart ch = false) (hbrace : ch ≠ '\x7d') : ¬ Goes tail d := by
  intro hgoes
  cases hgoes with
  | blank h =>
    rw [hd] at h
    cases h
  | closed h =>
    rw [hd] at h
    cases h
    exact hbrace rfl
  | next h others =>
    have hstart := start_of_ahead readStmt_starts.begins h (hs.ahead hd)
    rw [hch] at hstart
    cases hstart

theorem ahead_of_op {symbol : String} {ch : Char} {value : Unit}
    (hsymbol : symbol.toList.head? = some ch) (h : op symbol c = some (value, d)) :
    ahead c.rest = some ch := by
  have hne : symbol.toList ≠ [] := by
    intro hnil
    rw [hnil] at hsymbol
    cases hsymbol
  obtain ⟨ch', hahead, hch'⟩ := op_begins hne h
  rwa [eq_of_starts hsymbol hch'] at hahead

theorem declaration_eq_none (hs : Solid tail)
    (h : formsFrom 3 (c.extend tail) = some (form, d.extend tail)) (hd : Goes tail d) :
    declaration readType c = none := by
  cases hc : declaration readType c with
  | none => rfl
  | some reply =>
    exfalso
    obtain ⟨x, m, hname, hrest⟩ := bind_apply_eq_some_iff.mp hc
    obtain ⟨_, k, hop, hrest⟩ := bind_apply_eq_some_iff.mp hrest
    obtain ⟨params, j, hparams, hrest⟩ := bind_apply_eq_some_iff.mp hrest
    obtain ⟨_, i, harrow, -⟩ := bind_apply_eq_some_iff.mp hrest
    have hj : j.rest ≠ [] := Cursor.rest_ne_nil_of_lt (op_advances (by decide) harrow)
    have hk : k.rest ≠ [] := rest_ne_nil_of_le (readType_advances.follows.list hparams) hj
    have hname' := (ident_keeps hs).same hname (rest_ne_nil_of_le (op_follows _ hop) hk)
    have hop' := (op_keeps hs _).same hop hk
    have hcolon : ahead m.rest = some ':' := ahead_of_op rfl hop
    have hdefinition : definition readExpr (block readStmt) (c.extend tail) = none := by
      have hnone : list parameter (m.extend tail) = some ([], m.extend tail) :=
        (list_apply_eq_some_iff parameter_advances).mpr
          (.nil (parameter_begins.none_of_ahead (hs.ahead hcolon) (by decide)))
      rw [definition_eq, bind_eq_of_some hname', bind_eq_of_some hnone]
      exact bind_eq_none ((op_begins (by decide)).none_of_ahead (hs.ahead hcolon) (by decide)) _
    rcases alt_apply_eq_some h with hwhole | hothers
    · rw [hdefinition] at hwhole
      cases hwhole
    · obtain ⟨e, he⟩ := readExpr_of_forms hname' hothers
      obtain ⟨e', hbare⟩ := readExpr_of_bare hname'
        (bare_of_ahead (hs.ahead hcolon) (by decide) (by decide)
          (operator_eq_none (hs.ahead hcolon) (by decide)))
        (op_eq_none_of_longer (show ":=".toList = ":".toList ++ ['='] from rfl) rfl hop')
      rw [he] at hbare
      have hplace : d = m := Cursor.extend_inj.mp (Prod.mk.inj (Option.some.inj hbare)).2
      subst hplace
      exact not_goes_of_ahead hs hcolon (by decide) (by decide) hd

theorem exists_maybe (p : Parser α) (c : Cursor) : ∃ o d, maybe p c = some (o, d) := by
  unfold maybe
  cases p c <;> exact ⟨_, _, rfl⟩

theorem definitionBody_eq_none {name name' : String} {params params' : List String}
    (h : definitionBody name params c = none) : definitionBody name' params' c = none := by
  unfold definitionBody at h ⊢
  obtain ⟨found, mid, hfound⟩ := exists_maybe (block readStmt) c
  rw [bind_eq_of_some hfound] at h ⊢
  cases found with
  | some body => cases h
  | none =>
    dsimp only at h ⊢
    unfold definitionValue at h ⊢
    obtain ⟨locals, mid', hlocals⟩ := exists_maybe (localBindings readExpr) mid
    rw [bind_eq_of_some hlocals] at h ⊢
    cases he : readExpr mid' with
    | none => exact bind_eq_none he _
    | some reply =>
      rw [bind_eq_of_some he] at h
      cases h

/-- Names stand up to the sign of a definition, before the cut, but on the whole text there is no
body behind it. -/
inductive Headed (tail : List Char) : Cursor → Prop
  | sign {m j : Cursor} (hop : op "=" m = some ((), j)) (hj : j.rest ≠ [])
      (hbody : ∀ name params, definitionBody name params (j.extend tail) = none) : Headed tail m
  | name {m m' : Cursor} {x : String} (hname : parameter m = some (x, m'))
      (others : Headed tail m') : Headed tail m

namespace Headed

variable {m : Cursor} {x : String}

theorem of_matches {names : List String} {k j : Cursor} (hall : Matches parameter m names k)
    (hop : op "=" k = some ((), j)) (hj : j.rest ≠ [])
    (hbody : ∀ name params, definitionBody name params (j.extend tail) = none) : Headed tail m := by
  induction hall with
  | nil => exact .sign hop hj hbody
  | cons hfirst _ ih => exact .name hfirst (ih hop)

theorem rest_ne_nil (h : Headed tail m) : m.rest ≠ [] := by
  cases h with
  | sign hop hj => exact rest_ne_nil_of_le (op_follows _ hop) hj
  | name hname others =>
    exact Cursor.rest_ne_nil_of_lt (parameter_advances hname)

variable (hs : Solid tail)
include hs

theorem exists_sign (h : Headed tail m) :
    ∃ (names : List String) (k j : Cursor), Matches parameter (m.extend tail) names
      (k.extend tail) ∧
      op "=" (k.extend tail) = some ((), j.extend tail) ∧
      ∀ name params, definitionBody name params (j.extend tail) = none := by
  induction h with
  | @sign m j hop hj hbody =>
    have hnone : parameter (m.extend tail) = none :=
      parameter_begins.none_of_ahead (hs.ahead (ahead_of_op rfl hop)) (by decide)
    exact ⟨[], m, j, .nil hnone, (op_keeps hs _).same hop hj, hbody⟩
  | name hname others ih =>
    obtain ⟨names, k, j, hall, hop, hbody⟩ := ih
    exact ⟨_, k, j, .cons ((parameter_keeps hs).same hname others.rest_ne_nil) hall, hop, hbody⟩

theorem definition_eq_none (h : Headed tail m)
    (hname : ident (c.extend tail) = some (x, m.extend tail)) :
    definition readExpr (block readStmt) (c.extend tail) = none := by
  obtain ⟨names, k, j, hall, hop, hbody⟩ := h.exists_sign hs
  rw [definition_eq, bind_eq_of_some hname,
    bind_eq_of_some ((list_apply_eq_some_iff parameter_advances).mpr hall), bind_eq_of_some hop]
  exact hbody x names

theorem bare (h : Headed tail m) :
    Bare (m.extend tail) ∧ op ":=" (m.extend tail) = none ∧ op ":" (m.extend tail) = none := by
  cases h with
  | @sign _ j hop hj =>
    have hahead := hs.ahead (ahead_of_op rfl hop)
    have hwhole : op "=" (m.extend tail) = some ((), j.extend tail) := (op_keeps hs _).same hop hj
    refine ⟨bare_of_ahead hahead (by decide) (by decide) fun o => ?_,
      (op_begins (by decide)).none_of_ahead hahead (by decide),
      (op_begins (by decide)).none_of_ahead hahead (by decide)⟩
    by_cases ho : o = .eq
    · subst ho
      exact op_eq_none_of_longer (show "==".toList = "=".toList ++ ['='] from rfl) rfl hwhole
    · refine (op_begins (symbol_ne_nil o)).none_of_ahead hahead ?_
      rw [beq_eq_false_iff_ne]
      exact fun hhead => ho (head_symbol_inj hhead)
  | name hname others =>
    obtain ⟨ch, hahead, hch⟩ := parameter_begins hname
    have hgoes := goesOn_of_wordStart ch hch
    have hahead := hs.ahead hahead
    have hne : ∀ other, goesOn other = true → ch ≠ other := by
      rintro other hother rfl
      rw [hgoes] at hother
      cases hother
    have hcolon : ∀ symbol : String, symbol.toList.head? = some ':' →
        op symbol (m.extend tail) = none := by
      intro symbol hsymbol
      refine (op_begins ?_).none_of_ahead hahead ?_
      · intro hnil
        rw [hnil] at hsymbol
        cases hsymbol
      · rw [hsymbol, beq_eq_false_iff_ne]
        exact fun heq => hne ':' (by decide) (Option.some.inj heq).symm
    refine ⟨bare_of_ahead hahead ?_ (hne '(' (by decide))
      (operator_eq_none hahead (not_mem_operatorStarts hgoes)), hcolon _ rfl, hcolon _ rfl⟩
    rw [suffixStart, beq_eq_false_iff_ne.mpr (hne '.' (by decide)),
      beq_eq_false_iff_ne.mpr (hne '[' (by decide)), Bool.or_false]

theorem eq_of_forms (h : Headed tail m) {form : Note → Stmt}
    (hname : ident (c.extend tail) = some (x, m.extend tail))
    (hform : formsFrom 4 (c.extend tail) = some (form, d.extend tail)) : d = m := by
  obtain ⟨hbare, hassign, -⟩ := h.bare hs
  obtain ⟨e, he⟩ := readExpr_of_forms hname hform
  obtain ⟨e', hbare⟩ := readExpr_of_bare hname hbare hassign
  rw [he] at hbare
  exact Cursor.extend_inj.mp (Prod.mk.inj (Option.some.inj hbare)).2

theorem eq_of_readStmt (h : Headed tail m) {s : Stmt}
    (hname : ident (c.extend tail) = some (x, m.extend tail))
    (hstmt : readStmt (c.extend tail) = some (s, d.extend tail)) : d = m := by
  obtain ⟨form, hform⟩ := form_of_readStmt hstmt
  rw [hs.skipSpacing] at hform
  have hname' : ident (c.skipSpacing.extend tail) = some (x, m.extend tail) := by
    rwa [← hs.skipSpacing, ident_skips]
  have hcomment : comment (c.skipSpacing.extend tail) = none :=
    comment_begins.eq_none (ident_starts.begins hname') (not_of_starts (by decide))
  have hrecord : record readType (c.skipSpacing.extend tail) = none :=
    bind_eq_none (keyword_eq_none_of_ident hname' (by decide)) _
  have hdeclaration : declaration readType (c.skipSpacing.extend tail) = none :=
    (bind_eq_of_some hname').trans (bind_eq_none (h.bare hs).2.2 _)
  have hdefinition := h.definition_eq_none hs hname'
  have hrest : formsFrom 0 (c.skipSpacing.extend tail) = formsFrom 4 (c.skipSpacing.extend tail) :=
    (alt_apply_of_none hcomment).trans ((alt_apply_of_none hrecord).trans
      ((alt_apply_of_none hdeclaration).trans (alt_apply_of_none hdefinition)))
  rw [hrest] at hform
  exact h.eq_of_forms hs hname' hform

theorem not_goes (h : Headed tail m) : ¬ Goes tail m := by
  induction h with
  | sign hop => exact not_goes_of_ahead hs (ahead_of_op rfl hop) (by decide) (by decide)
  | @name m m' x hname others ih =>
    intro hgoes
    obtain ⟨ch, hahead, hch⟩ := parameter_begins hname
    have hwhole := (ident_keeps hs).same (parameter_apply_eq_some_iff.mp hname).2 others.rest_ne_nil
    cases hgoes with
    | blank hblank =>
      rw [hblank] at hahead
      cases hahead
    | closed hclosed =>
      rw [hclosed] at hahead
      cases hahead
      exact absurd hch (by decide)
    | next hstmt hothers =>
      rw [others.eq_of_readStmt hs hwhole hstmt] at hothers
      exact ih hothers

end Headed

theorem definition_eq_none (hs : Solid tail)
    (hnone : definition readExpr (block readStmt) (c.extend tail) = none)
    (h : formsFrom 4 (c.extend tail) = some (form, d.extend tail)) (hd : Goes tail d) :
    definition readExpr (block readStmt) c = none := by
  cases hc : definition readExpr (block readStmt) c with
  | none => rfl
  | some reply =>
    exfalso
    rw [definition_eq] at hc hnone
    obtain ⟨x, m, hname, hrest⟩ := bind_apply_eq_some_iff.mp hc
    obtain ⟨params, k, hparams, hrest⟩ := bind_apply_eq_some_iff.mp hrest
    obtain ⟨_, j, hop, hbody⟩ := bind_apply_eq_some_iff.mp hrest
    rw [list_apply_eq_some_iff parameter_advances] at hparams
    have hj : j.rest ≠ [] := Cursor.rest_ne_nil_of_lt (definitionBody_starts.advances hbody)
    have hk : k.rest ≠ [] := rest_ne_nil_of_le (op_follows _ hop) hj
    have hm : m.rest ≠ [] := rest_ne_nil_of_le (hparams.le parameter_advances.follows) hk
    have hname' := (ident_keeps hs).same hname hm
    have hsign : ahead k.rest = some '=' := ahead_of_op rfl hop
    -- the same names and the same sign stand on the whole text
    have hparams' := (parameter_keeps hs).row hparams hk
      (parameter_begins.none_of_ahead (hs.ahead hsign) (by decide))
    rw [bind_eq_of_some hname',
      bind_eq_of_some ((list_apply_eq_some_iff parameter_advances).mpr hparams'),
      bind_eq_of_some ((op_keeps hs _).same hop hj)] at hnone
    have hheaded : Headed tail m :=
      .of_matches hparams hop hj fun _ _ => definitionBody_eq_none hnone
    rw [hheaded.eq_of_forms hs hname' h] at hd
    exact hheaded.not_goes hs hd

theorem ident_eq_none_of_word {m : Cursor} {k : String} (h : word c = some (k, m))
    (hk : k ∈ keywords) : ident c = none := by
  unfold ident verify
  rw [h]
  simp [hk]

theorem keyword_eq_none_of_word {m : Cursor} {k w : String} (h : word c = some (w, m))
    (hne : w ≠ k) : keyword k c = none := by
  cases hc : keyword k c with
  | none => rfl
  | some reply =>
    rw [keyword_apply_eq_some_iff, h] at hc
    cases hc
    exact absurd rfl hne

theorem conditional_of_readExpr {m : Cursor} {e : Expr} (hif : word c = some ("if", m))
    (h : readExpr c = some (e, d)) :
    ∃ form i, conditional readExpr c.skipSpacing = some (form, i) ∧ i ≤ d := by
  have hinner := readExpr_advances.follows
  have hstart : Ahead wordStart c := word_starts.begins hif
  have hskip : word c.skipSpacing = some ("if", m) := by rwa [word_skips]
  have hname : ident c.skipSpacing = none := ident_eq_none_of_word hskip (by decide)
  have hsign : unaryOp c = none := by
    refine unaryOp_starts.begins.eq_none hstart fun ch hch => ?_
    simp only [signStart, List.contains_iff_mem, List.mem_cons, List.not_mem_nil, or_false] at hch
    obtain rfl | rfl | rfl := hch <;> decide
  obtain ⟨a, j, ha, hj⟩ := readOperand_of_readExpr h (by rwa [ident_skips] at hname)
  obtain ⟨b, i, hatom, hi⟩ := atom_of_readOperand ha hsign
  obtain ⟨p, hp, heq⟩ := mem_of_choice hatom
  simp only [List.mem_cons, List.not_mem_nil, or_false] at hp
  rcases hp with rfl | rfl | rfl | rfl | rfl | rfl | rfl | rfl | rfl
  · cases (number_eq_none_of_word hstart).symm.trans heq
  · cases (string_begins.eq_none hstart (not_of_starts (by decide))).symm.trans heq
  · have hboolean : boolean c.skipSpacing = none :=
      alt_eq_none_iff.mpr ⟨map_eq_none_iff.mpr (keyword_eq_none_of_word hskip (by decide)),
        map_eq_none_iff.mpr (keyword_eq_none_of_word hskip (by decide))⟩
    cases (node_eq_none_iff.mpr hboolean).symm.trans heq
  · obtain ⟨form, hform⟩ := form_of_node heq
    exact ⟨form, i, hform, le_trans hi hj⟩
  · have hlambda := (lambda_starts hinner).begins.eq_none hstart (not_of_starts (by decide))
    cases hlambda.symm.trans heq
  · cases (node_eq_none_iff.mpr (bind_eq_none hname _)).symm.trans heq
  · have harray := (array_starts hinner).begins.eq_none hstart (not_of_starts (by decide))
    cases harray.symm.trans heq
  · cases (node_eq_none_iff.mpr (map_eq_none_iff.mpr hname)).symm.trans heq
  · have hgroup := (group_starts hinner).begins.eq_none hstart (not_of_starts (by decide))
    cases hgroup.symm.trans heq

theorem branch_eq_none (hs : Solid tail)
    (h : formsFrom 7 (c.extend tail) = some (form, d.extend tail)) : readBranch c = none := by
  cases hc : readBranch c with
  | none => rfl
  | some reply =>
    exfalso
    rw [readBranch_eq, branchForm_eq] at hc
    obtain ⟨_, m, hif, hrest⟩ := bind_apply_eq_some_iff.mp hc
    obtain ⟨test, k, htest, hrest⟩ := bind_apply_eq_some_iff.mp hrest
    obtain ⟨body, j, hbody, -⟩ := bind_apply_eq_some_iff.mp hrest
    have hm : m.rest ≠ [] := Cursor.rest_ne_nil_of_lt (readExpr_advances htest)
    have hword : word (c.extend tail) = some ("if", m.extend tail) :=
      (word_keeps hs).same (keyword_apply_eq_some_iff.mp hif) hm
    have hbind : bindStatement readExpr (c.extend tail) = none :=
      bind_eq_none (keyword_eq_none_of_word hword (by decide)) _
    have hblock : map (block readStmt) Stmt.block (c.extend tail) = none :=
      (block_starts.begins.map _).eq_none (word_starts.begins hword) (not_of_starts (by decide))
    have hrest : formsFrom 7 (c.extend tail) = formsFrom 9 (c.extend tail) :=
      (alt_apply_of_none hbind).trans (alt_apply_of_none hblock)
    have hlast : formsFrom 9 = map readExpr Stmt.expr := choice_singleton _
    rw [hrest, hlast] at h
    obtain ⟨e, he⟩ := readExpr_of_map h
    obtain ⟨_, i, hconditional, hi⟩ := conditional_of_readExpr hword he
    obtain ⟨_, m', hif', hrest⟩ := bind_apply_eq_some_iff.mp hconditional
    obtain ⟨test', k', htest', hrest⟩ := bind_apply_eq_some_iff.mp hrest
    obtain ⟨_, j', hthen, hvalues⟩ := bind_apply_eq_some_iff.mp hrest
    have hm' : m' = m.extend tail := by
      rw [keyword_apply_eq_some_iff, word_skips, hword] at hif'
      exact (Prod.mk.inj (Option.some.inj hif')).2.symm
    subst hm'
    have hinner := readExpr_advances.follows
    have hj' : j' ≤ i := (hinner.bind fun _ => (keyword_advances _).follows.bind fun _ =>
      hinner.bind fun _ => .pure _) hvalues
    obtain ⟨j', rfl, -⟩ := Cursor.exists_extend_of_le (le_trans hj' hi)
    obtain ⟨k', rfl, -⟩ := Cursor.exists_extend_of_le ((keyword_advances _).follows hthen)
    have hk' : Ahead wordStart k' := (keyword_starts _).ahead hs hthen
    -- both tests are the same expression
    have htest'' := (readExpr_cuts hs ⊥).same trivial htest'
      (follow_of_ahead goesOn_of_wordStart hk')
    rw [htest] at htest''
    cases htest''
    rw [block_starts.begins.eq_none hk' (not_of_starts (by decide))] at hbody
    cases hbody

end Alternatives

section Statements

variable {start : Cursor} (hs : Solid tail) (hstmt : Cuts tail (.Ioi start) readStmt (Goes tail))
  (hbranch : Cuts tail (.Ioi start) readBranch (Goes tail))

include hs hstmt hbranch

theorem forms_cuts : Cuts tail (.Ici start) (formsFrom 0) (Goes tail) := by
  have hexpr : Cuts tail (.Ici start) readExpr (Goes tail) :=
    (readExpr_cuts hs _).mono fun _ => Goes.follow hs
  refine .alt_of_starts hs (comment_cuts hs) ?_ comment_begins fromRecord_starts
    (not_of_starts (by decide))
  refine .alt (record_cuts hs) ?_ fun c _ d _ _ heq _ =>
    bind_eq_none (fromDeclaration_leads.keyword_eq_none hs heq (by decide)) _
  refine .alt (declaration_cuts hs) ?_ fun c _ d _ _ heq hd => declaration_eq_none hs heq hd
  refine .alt (definition_cuts hs hstmt) ?_ fun c _ d _ hnone heq hd =>
    definition_eq_none hs hnone heq hd
  refine .alt (returning_cuts hs) ?_ fun c _ d _ _ heq _ => ?_
  · refine .alt (loop_cuts hs hstmt) ?_ fun c _ d _ _ heq _ =>
      bind_eq_none (fromBranch_leads.keyword_eq_none hs heq (by decide)) _
    refine .alt (branch_cuts hs hstmt hbranch) ?_ fun c _ d _ _ heq _ => branch_eq_none hs heq
    refine .alt (bindStatement_cuts hs) ?_ fun c _ d _ _ heq _ =>
      bind_eq_none (fromBlock_leads.keyword_eq_none hs heq (by decide)) _
    refine .alt_of_starts hs ((block_cuts hs hstmt).map _) ?_ (block_starts.begins.map _)
      fromExpr_starts (not_of_starts (by decide))
    exact (choice_singleton (map readExpr Stmt.expr)).symm ▸ hexpr.map _
  · unfold returning
    rw [right_eq_bind, map_eq_none_iff]
    exact bind_eq_none (fromLoop_leads.keyword_eq_none hs heq (by decide)) _

end Statements

/-- A statement of the whole text that ends before the cut is read from the text before the cut, if
statements follow it. -/
theorem readStmt_cuts (hs : Solid tail) (region : UpperSet Cursor) :
    Cuts tail region readStmt (Goes tail) := by
  have hall : ∀ start : Cursor, Cuts tail (.Ici start) readStmt (Goes tail) ∧
      Cuts tail (.Ici start) readBranch (Goes tail) := by
    intro start
    induction hn : start.rest.length using Nat.strong_induction_on generalizing start with
    | _ n ih =>
      have hlater : ∀ c, start < c → Cuts tail (.Ici c) readStmt (Goes tail) ∧
          Cuts tail (.Ici c) readBranch (Goes tail) := fun c hc =>
        ih _ (hn ▸ Cursor.length_lt_of_lt hc) c rfl
      have hstmt : Cuts tail (.Ioi start) readStmt (Goes tail) :=
        ⟨readStmt_advances.follows, fun c _ _ hc => (hlater c hc).1.same (le_refl c)⟩
      have hbranch : Cuts tail (.Ioi start) readBranch (Goes tail) :=
        ⟨readBranch_advances.follows, fun c _ _ hc => (hlater c hc).2.same (le_refl c)⟩
      refine ⟨?_, branch_cuts hs hstmt hbranch⟩
      rw [readStmt_eq_forms]
      exact (Cuts.token hs (forms_cuts hs hstmt hbranch).spanned).map _
  exact ⟨readStmt_advances.follows, fun c _ _ _ => (hall c).1.same (le_refl c)⟩

end PCode.Grammar

namespace PCode

open PCode.Parser PCode.Grammar

/-- The statements that are read from the start of a text, up to a place where none matches. -/
def Program.collected (text : String) : Program :=
  let start := Cursor.ofText text
  (Parser.repeated (Grammar.statement (start.rest.length + 1)) [] (fun items s => s :: items)
    start).1.reverse

section Errors

variable {text : String} {stmts : List Stmt} {place : Cursor}

section

variable (h : Matches readStmt (Cursor.ofText text) stmts place)
include h

theorem repeated_readStmt :
    Parser.repeated readStmt [] (fun items s => s :: items) (Cursor.ofText text) =
      (stmts.reverse, stmts.length, place) := by
  unfold Parser.repeated
  rw [foldMatches_of_matches readStmt_advances h (Nat.lt_succ_self _), foldl_flip_cons,
    List.append_nil, Nat.zero_add]

theorem Program.collected_eq : Program.collected text = stmts := by
  unfold Program.collected
  dsimp only
  rw [Program.repeated_statement, repeated_readStmt h, List.reverse_reverse]

theorem Program.parse_eq :
    Program.parse text =
      if place.skipSpacing.isEmpty then .ok stmts else .error ⟨place.skipSpacing.offset⟩ := by
  rw [Program.parse_eq_parseWith]
  unfold Program.parseWith
  dsimp only
  rw [repeated_readStmt h, List.reverse_reverse]

end

theorem statements_row {tail : List Char} (hs : Solid tail) :
    Cuts.Row tail ⊥ readStmt (Goes tail) fun d => ahead d.rest = none where
  advances := readStmt_advances
  cuts := readStmt_cuts hs ⊥
  next _ _ _ _ heq hd := .next heq hd
  last _ _ hd := .blank hd
  stop _ _ _ hd := readStmt_starts.begins.none_of_blank hd

/-- The statements before a place that is reached over spacing are those of the text before it. -/
theorem parse_before {before tail : List Char} (hs : Solid tail)
    (hall : Matches readStmt (Cursor.ofText text) stmts place)
    (htext : text.toList = before ++ tail)
    (hplace : place.skipSpacing = ⟨byteLength before, tail⟩) :
    Program.parse (String.ofList before) = .ok stmts := by
  let stop : Cursor := ⟨byteLength before, []⟩
  have hstop : place.skipSpacing = stop.extend tail := hplace
  obtain ⟨last, rfl, -⟩ : ∃ last, place = last.extend tail ∧ last ≤ stop :=
    Cursor.exists_extend_of_le (hstop ▸ place.le_skipSpacing)
  have hlast : last.skipSpacing = stop := by
    rwa [hs.skipSpacing, Cursor.extend_inj] at hstop
  have hstart : Cursor.ofText text = (Cursor.ofText (String.ofList before)).extend tail := by
    simp only [Cursor.ofText, Cursor.extend, htext, String.toList_ofList]
  have hblank : ahead last.rest = none := by
    rw [← ahead_skipSpacing, hlast]
    rfl
  rw [hstart] at hall
  have hcut := ((statements_row hs).cut hall trivial hblank).1
  rw [Program.parse_eq hcut, hlast]
  rfl

/-- The offset of a parse error marks a valid prefix: a character that is no spacing stands there,
and the text before it is a program, of the statements that were read up to there. -/
theorem Program.parse_before_error (text : String) (n : Nat)
    (h : Program.parse text = .error ⟨n⟩) :
    n < byteLength text.toList ∧
      ∃ (before : List Char) (ch : Char) (after : List Char),
        text.toList = before ++ ch :: after ∧ byteLength before = n ∧ Text.isSpacing ch = false ∧
          Program.parse (String.ofList before) = .ok (Program.collected text) := by
  obtain ⟨stmts, place, hall⟩ := exists_matches readStmt_advances (Cursor.ofText text)
  rw [Program.parse_eq hall] at h
  split at h
  · cases h
  rename_i hrest
  cases h
  obtain ⟨ch, after, hafter⟩ : ∃ ch after, place.skipSpacing.rest = ch :: after :=
    List.exists_cons_of_ne_nil fun hnil => hrest (List.isEmpty_iff.mpr hnil)
  obtain ⟨before, hbefore, hoffset⟩ : Cursor.ofText text ≤ place.skipSpacing :=
    le_trans (hall.le readStmt_advances.follows) place.le_skipSpacing
  have hahead : ahead place.rest = some ch := by
    show place.skipSpacing.rest.head? = some ch
    rw [hafter, List.head?_cons]
  have hspacing : Text.isSpacing ch = false := isSpacing_of_ahead hahead
  have htext : text.toList = before ++ ch :: after := by rwa [hafter] at hbefore
  have hlength : byteLength before = place.skipSpacing.offset := by
    rw [hoffset]
    exact (Nat.zero_add _).symm
  refine ⟨?_, before, ch, after, htext, hlength, hspacing, ?_⟩
  · rw [htext, byteLength_append, hlength]
    have hpos := byteLength_pos (List.cons_ne_nil ch after)
    omega
  · have hs : Solid (ch :: after) := by
      rintro _ ⟨⟩
      exact hspacing
    rw [Program.collected_eq hall]
    refine parse_before hs hall htext ?_
    rw [hlength, ← hafter]

/-- A definition without a body: on its own, what stands before its sign is two expressions. -/
def signText : String :=
  "s = \"é\"\nx y ="

theorem signText_stops : (match Program.parse signText with
    | .error error => error.offset == 13
    | .ok _ => false) = true := by
  decide +kernel

theorem Program.parse_before_error_sign : Program.parse signText = .error ⟨13⟩ ∧
    13 < byteLength signText.toList ∧
      ∃ (before : List Char) (ch : Char) (after : List Char),
        signText.toList = before ++ ch :: after ∧ byteLength before = 13 ∧
          Text.isSpacing ch = false ∧
          Program.parse (String.ofList before) = .ok (Program.collected signText) := by
  have hstops : Program.parse signText = .error ⟨13⟩ := by
    have h := signText_stops
    split at h
    · rename_i error heq
      obtain ⟨offset⟩ := error
      rw [heq, show offset = 13 from beq_iff_eq.mp h]
    · cases h
  exact ⟨hstops, Program.parse_before_error signText 13 hstops⟩

end Errors

end PCode
