import PCode.Proofs.Grammar.Forms

namespace PCode

namespace Grammar

open PCode.Parser

section Atoms

variable {inner : Parser Expr} {text rest : List Char} {n : Note} {e : Expr}

theorem node_reads {p : Parser (Note → Expr)}
    (h : Reads p (fun form => ∀ m : Note, m.ty = .unknown → SameAs e (form m)) text rest)
    (ht : ahead (text ++ rest) = (text ++ rest).head?) :
    Reads (node p) (SameAs e) text rest :=
  (h.spanned.token ht).map fun _ hform => hform _ rfl

theorem integer?_eq (v : Int64) :
    (Numeral.mk (v.toInt < 0) (Nat.toDigits 10 v.toInt.natAbs) none).integer? = some v := by
  have hvalue : (if decide (v.toInt < 0) = true then -(v.toInt.natAbs : Int)
      else (v.toInt.natAbs : Int)) = v.toInt := by
    by_cases hneg : v.toInt < 0
    · rw [if_pos (decide_eq_true hneg)]
      omega
    · rw [if_neg (by simpa using hneg)]
      omega
  have hrange := And.intro (Int64.le_toInt v) (Int64.toInt_lt v)
  simp only [Numeral.integer?, Text.word?, spelled_toDigits, hvalue, Int64.ofInt_toInt]
  rw [if_pos (by simpa using hrange)]

theorem head_integerText (v : Int64) :
    ∃ c text, integerText v = c :: text ∧
      (c = '-' ∨ Nat.toDigits 10 v.toInt.natAbs = c :: text) := by
  cases hneg : decide (v.toInt < 0) with
  | true => exact ⟨'-', _, by rw [integerText, hneg]; rfl, .inl rfl⟩
  | false =>
    obtain ⟨c, text, hdigits⟩ := List.exists_cons_of_ne_nil (@Nat.toDigits_ne_nil v.toInt.natAbs 10)
    exact ⟨c, text, by rw [integerText, hneg, hdigits]; rfl, .inr hdigits⟩

theorem isDigit_of_mem_toDigits {n : Nat} : ∀ c ∈ Nat.toDigits 10 n, c.isDigit = true :=
  fun _ hc => Nat.isDigit_of_mem_toDigits (by decide) (by decide) hc

theorem ident_fails_integer (v : Int64) (hrest : WordEnds rest) :
    Fails ident (integerText v ++ rest) := by
  cases hneg : decide (v.toInt < 0) with
  | true =>
    rw [integerText, hneg]
    exact ident_begins.fails_cons rfl (by decide)
  | false =>
    rw [integerText, hneg]
    exact ident_fails_digits Nat.toDigits_ne_nil isDigit_of_mem_toDigits hrest

theorem integer_reads (v : Int64) (hn : n.ty = .unknown) (hrest : NumeralEnds rest) :
    Reads (atom inner) (SameAs (.integer v n)) (integerText v) rest := by
  have hnumeral := numeral_reads (v.toInt < 0) Nat.toDigits_ne_nil
    (isDigit_of_mem_toDigits (n := v.toInt.natAbs)) hrest
  -- a number skips spacing by itself, and there is none
  have hstart : ahead (integerText v ++ rest) = (integerText v ++ rest).head? := by
    obtain ⟨c, text, htext, hc⟩ := head_integerText v
    rw [htext, List.cons_append]
    apply ahead_cons
    rcases hc with rfl | hdigits
    · rfl
    · have hdigit := isDigit_of_mem_toDigits c (hdigits ▸ List.mem_cons_self)
      exact isSpacing_of_isWordChar (isWordChar_of_isDigit hdigit)
  refine Reads.alt_left ?_
  intro offset
  obtain ⟨m, hm, rfl⟩ := hnumeral offset
  refine ⟨.integer v ⟨Cursor.spanTo ⟨offset, integerText v ++ rest⟩
    ⟨offset + byteLength (integerText v), rest⟩, .unknown⟩, ?_, ?_⟩
  · rw [number, skipSpacing_of_ahead hstart]
    rw [← integerText] at hm
    simp only [hm, integer?_eq, Option.map_some]
  · exact congrArg (Expr.integer v) (unplaced_note rfl hn)

theorem text_reads (v : String) (hn : n.ty = .unknown) :
    Reads (atom inner) (SameAs (.text v n)) (quotedText v.toList) rest := by
  refine Reads.alt_right (number_begins.fails_cons rfl (by decide)) (Reads.alt_left ?_)
  refine node_reads ((quoted_reads v).map ?_) (ahead_cons _ rfl)
  intro a ha m hm
  rw [ha]
  exact congrArg (Expr.text v) (unplaced_note hm hn)

section Words

variable {w : String}

theorem number_fails_word (hw : IsWord w) : Fails number (w.toList ++ rest) := by
  refine hw.fails number_begins ?_
  intro c hc hdigit
  rw [hdigit, Bool.false_or, beq_eq_false_iff_ne]
  rintro rfl
  exact absurd hc (by decide)

theorem string_fails_word (hw : IsWord w) : Fails (node (map quoted .text)) (w.toList ++ rest) :=
  hw.fails string_begins fun c hc _ => not_starts_of_isWordChar (by decide) c hc

theorem node_fails {p : Parser (Note → Expr)} (h : Fails p text) (ht : ahead text = text.head?) :
    Fails (node p) text :=
  (h.spanned.token ht).map _

theorem boolean_fails_word (hw : IsWord w) (htrue : w ≠ "true") (hfalse : w ≠ "false")
    (hrest : WordEnds rest) : Fails (node boolean) (w.toList ++ rest) :=
  node_fails (.alt ((keyword_fails hw htrue hrest).map _) ((keyword_fails hw hfalse hrest).map _))
    (ahead_word hw rest)

theorem conditional_fails_word (hw : IsWord w) (hif : w ≠ "if") (hrest : WordEnds rest) :
    Fails (node (conditional inner)) (w.toList ++ rest) :=
  node_fails ((keyword_fails hw hif hrest).bind _) (ahead_word hw rest)

theorem lambda_fails_word (hw : IsWord w) : Fails (node (lambda inner)) (w.toList ++ rest) :=
  hw.fails lambda_begins fun c hc _ => not_starts_of_isWordChar (by decide) c hc

theorem array_fails_word (hw : IsWord w) : Fails (node (array inner)) (w.toList ++ rest) :=
  hw.fails array_begins fun c hc _ => not_starts_of_isWordChar (by decide) c hc

theorem atom_of_word {P : Expr → Prop} (hw : IsWord w) (htrue : w ≠ "true") (hfalse : w ≠ "false")
    (hrest : WordEnds (text ++ rest))
    (h : Reads (choice [node (conditional inner), node (lambda inner), node (call inner),
      node (array inner), node identifier, group inner]) P (w.toList ++ text) rest) :
    Reads (atom inner) P (w.toList ++ text) rest := by
  refine Reads.alt_right ?_ (Reads.alt_right ?_ (Reads.alt_right ?_ h))
  · rw [List.append_assoc]
    exact number_fails_word hw
  · rw [List.append_assoc]
    exact string_fails_word hw
  · rw [List.append_assoc]
    exact boolean_fails_word hw htrue hfalse hrest

end Words

theorem boolean_reads (v : Bool) (hn : n.ty = .unknown) (hrest : WordEnds rest) :
    Reads (atom inner) (SameAs (.boolean v n)) (toString v).toList rest := by
  have hword : IsWord (toString v) := isWord_of_mem_keywords (by cases v <;> decide)
  refine Reads.alt_right (number_fails_word hword) (Reads.alt_right (string_fails_word hword)
    (Reads.alt_left (node_reads ?_ (ahead_word hword rest))))
  cases v with
  | true =>
    refine Reads.alt_left ((keyword_reads (by decide) hrest).map fun _ _ m hm => ?_)
    exact congrArg (Expr.boolean true) (unplaced_note hm hn)
  | false =>
    refine Reads.alt_right ((keyword_fails hword (by decide) hrest).map _)
      ((keyword_reads (by decide) hrest).map fun _ _ m hm => ?_)
    exact congrArg (Expr.boolean false) (unplaced_note hm hn)

theorem name_reads {x : String} (hx : IsName x) (hn : n.ty = .unknown) (hrest : WordEnds rest)
    (hcall : rest.head? ≠ some '(') : Reads (atom inner) (SameAs (.name x n)) x.toList rest := by
  have hword := isWord_of_isName hx
  have hother : ∀ k ∈ keywords, x ≠ k := fun k hk heq => hx.keyword (heq ▸ hk)
  -- a call is tried before a name, but its parenthesis does not follow
  have hcall : Fails (node (call inner)) (x.toList ++ rest) := by
    refine node_fails ((ident_reads hx hrest).bind_fails fun a _ => ?_) (ahead_word hword rest)
    refine (literal_fails (by decide) ?_).bind _
    intro c hc hparen
    cases hparen
    exact hcall hc
  rw [← List.append_nil x.toList]
  refine atom_of_word hword (hother _ (by decide)) (hother _ (by decide)) hrest ?_
  rw [List.append_nil]
  refine Reads.alt_right (conditional_fails_word hword (hother _ (by decide)) hrest) ?_
  refine Reads.alt_right (lambda_fails_word hword) ?_
  refine Reads.alt_right hcall ?_
  refine Reads.alt_right (array_fails_word hword) ?_
  refine Reads.alt_left (node_reads ((ident_reads hx hrest).map ?_) (ahead_word hword rest))
  intro a ha m hm
  rw [ha]
  exact congrArg (Expr.name x) (unplaced_note hm hn)

theorem exprEnds_word {w : String} (hw : IsWord w) : ExprEnds (w.toList ++ rest) := by
  obtain ⟨c, hahead, hhead, hc, -⟩ := hw.ahead rest
  have hother : c ∉ '.' :: '[' :: operatorStarts := by
    intro hmem
    rw [eq_false_of_mem (S := isWordChar) hmem (by decide)] at hc
    cases hc
  simp only [List.mem_cons, not_or] at hother
  refine ⟨?_, ?_⟩
  · intro d hd
    rw [hhead] at hd
    cases hd
    exact ⟨hother.1, hother.2.1⟩
  · intro d hd
    rw [hahead] at hd
    cases hd
    simpa [operatorStarts] using hother.2.2

theorem wordEnds_paren (text rest : List Char) : WordEnds (paren text ++ rest) :=
  wordEnds_cons _ (by decide)

theorem cond_reads {c t e : Expr} (hc : ReadsParen inner c) (ht : ReadsParen inner t)
    (he : ReadsParen inner e) (hn : n.ty = .unknown) (hrest : ExprEnds rest) :
    Reads (atom inner) (SameAs (.cond c t e n)) ("if".toList ++ (paren c.form ++
      ("then".toList ++ (paren t.form ++ ("else".toList ++ paren e.form))))) rest := by
  have hword : ∀ k ∈ keywords, IsWord k := fun k => isWord_of_mem_keywords
  refine atom_of_word (hword _ (by decide)) (by decide) (by decide) ?_ (Reads.alt_left ?_)
  · rw [List.append_assoc]
    exact wordEnds_paren _ _
  refine node_reads ?_ ?_
  · refine Reads.bind (keyword_reads (by decide) ?_) fun _ _ => ?_
    · rw [List.append_assoc]
      exact wordEnds_paren _ _
    refine Reads.bind (hc _ ?_) fun c' hc' => ?_
    · rw [List.append_assoc]
      exact exprEnds_word (hword _ (by decide))
    refine Reads.bind (keyword_reads (by decide) ?_) fun _ _ => ?_
    · rw [List.append_assoc]
      exact wordEnds_paren _ _
    refine Reads.bind (ht _ ?_) fun t' ht' => ?_
    · rw [List.append_assoc]
      exact exprEnds_word (hword _ (by decide))
    refine Reads.bind (keyword_reads (by decide) (wordEnds_paren _ _)) fun _ _ => ?_
    refine Reads.last (he _ hrest) fun e' he' => Reads.pure fun m hm => ?_
    rw [SameAs, Expr.unplaced, Expr.unplaced, hc', ht', he', unplaced_note hm hn]
  · rw [List.append_assoc]
    exact ahead_word (hword _ (by decide)) _

theorem readsEach_paren {es : List Expr} (hes : ∀ e ∈ es, ReadsParen inner e) :
    ReadsEach inner Expr.unplaced ExprEnds Expr.unplaced (fun e => paren e.form) es := by
  intro e he
  exact ⟨List.cons_ne_nil _ _, fun _ => exprEnds_cons _ rfl (by decide), hes e he⟩

theorem array_reads {items : List Expr} (hitems : ∀ e ∈ items, ReadsParen inner e)
    (hinner : Begins inner exprStart) (hn : n.ty = .unknown) :
    Reads (atom inner) (SameAs (.array items n))
      ('[' :: (items.flatMap (fun e => paren e.form) ++ [']'])) rest := by
  refine atom_of_symbol (by decide) ?_
  refine Reads.alt_right (lambda_begins.fails_cons rfl (by decide)) ?_
  refine Reads.alt_right (call_begins.fails_cons rfl (by decide)) ?_
  refine Reads.alt_left (node_reads ?_ (ahead_cons _ rfl))
  refine Reads.bind (s := ['[']) (punct_reads rfl (by decide)) fun _ _ => ?_
  refine Reads.bind ((readsEach_paren hitems).list (exprEnds_cons _ rfl (by decide))
    (hinner.fails_cons rfl (by decide))) fun items' hitems' => ?_
  refine Reads.last (punct_reads rfl (by decide)) fun _ _ => Reads.pure fun m hm => ?_
  rw [SameAs, Expr.unplaced, Expr.unplaced, Expr.unplacedList_eq_map, Expr.unplacedList_eq_map,
    hitems', unplaced_note hm hn]

theorem lambda_reads {params : List String} {body : Expr} (hne : params ≠ [])
    (hparams : ∀ x ∈ params, IsName x) (hbody : ReadsParen inner body) (hn : n.ty = .unknown)
    (hrest : ExprEnds rest) :
    Reads (atom inner) (SameAs (.lambda params body n))
      ('\\' :: (params.flatMap (fun x => ' ' :: x.toList) ++
        (" ->".toList ++ paren body.form))) rest := by
  have heach : ReadsEach ident id WordEnds id (fun x => ' ' :: x.toList) params := by
    intro x hx
    refine ⟨List.cons_ne_nil _ _, fun rest => wordEnds_cons _ (by decide), fun rest hrest => ?_⟩
    exact (ident_reads (hparams x hx) hrest).space ident_skips rfl
  have harrow : Fails ident (" ->".toList ++ paren body.form ++ rest) :=
    (ident_begins.fails_cons rfl (by decide)).space ident_skips rfl
  refine atom_of_symbol (by decide) (Reads.alt_left (node_reads ?_ (ahead_cons _ rfl)))
  refine Reads.bind (s := ['\\']) (punct_reads rfl (by decide)) fun _ _ => ?_
  refine Reads.bind (heach.list1 (wordEnds_cons _ (by decide)) harrow hne)
    fun params' hparams' => ?_
  refine Reads.bind ((op_reads rfl (by decide) (opEnds_cons _ (by decide))).space (op_skips _) rfl)
    fun _ _ => ?_
  refine Reads.last (hbody _ hrest) fun body' hbody' => Reads.pure fun m hm => ?_
  rw [List.map_id, List.map_id] at hparams'
  rw [SameAs, Expr.unplaced, Expr.unplaced, hparams', hbody', unplaced_note hm hn]

theorem argument_fails (h : Fails inner text) : Fails (argument inner) text := by
  intro offset
  unfold argument
  split
  · rfl
  · exact h offset

theorem argument_reads (h : ReadsParen inner e) : ReadsParen (argument inner) e := by
  intro rest hrest offset
  obtain ⟨a, ha, hsame⟩ := h rest hrest offset
  exact ⟨a, ha, hsame⟩

theorem arguments_reads {args : List Expr} (hargs : ∀ e ∈ args, ReadsParen inner e)
    (hinner : Begins inner exprStart) :
    Reads (arguments inner) (fun as => as.map Expr.unplaced = args.map Expr.unplaced)
      (args.flatMap fun e => paren e.form) (')' :: rest) := by
  have hclose : Fails inner (')' :: rest) := hinner.fails_cons rfl (by decide)
  have hends : ExprEnds (')' :: rest) := exprEnds_cons _ rfl (by decide)
  cases args with
  | nil =>
    refine Reads.last (Reads.maybe_none hclose) fun o ho => ?_
    rw [ho]
    exact Reads.pure rfl
  | cons arg args =>
    rw [List.forall_mem_cons] at hargs
    -- only arguments behind the first must stand on the line
    have hothers := readsEach_paren fun e he => argument_reads (hargs.2 e he)
    rw [List.flatMap_cons]
    refine Reads.bind (Reads.maybe_some (hargs.1 _ (hothers.follows hends))) ?_
    intro o ⟨first, ho, hfirst⟩
    rw [ho]
    refine Reads.last (hothers.list hends (argument_fails hclose)) fun others hsame => ?_
    refine Reads.pure ?_
    rw [List.map_cons, List.map_cons, hfirst, hsame]

theorem call_reads {f : String} {args : List Expr} (hf : IsName f)
    (hargs : ∀ e ∈ args, ReadsParen inner e) (hinner : Begins inner exprStart)
    (hn : n.ty = .unknown) :
    Reads (atom inner) (SameAs (.call f args n))
      (f.toList ++ ('(' :: (args.flatMap (fun e => paren e.form) ++ [')']))) rest := by
  have hword := isWord_of_isName hf
  have hother : ∀ k ∈ keywords, f ≠ k := fun k hk heq => hf.keyword (heq ▸ hk)
  have hends : ∀ text, WordEnds ('(' :: text) := fun text => wordEnds_cons _ (by decide)
  refine atom_of_word hword (hother _ (by decide)) (hother _ (by decide)) (hends _) ?_
  refine Reads.alt_right ?_ (Reads.alt_right ?_ (Reads.alt_left (node_reads ?_ ?_)))
  · rw [List.append_assoc]
    exact conditional_fails_word hword (hother _ (by decide)) (hends _)
  · rw [List.append_assoc]
    exact lambda_fails_word hword
  · refine Reads.bind (ident_reads hf (hends _)) fun f' hf' => ?_
    refine Reads.bind (s := ['(']) (Reads.literal "(") fun _ _ => ?_
    refine Reads.bind (arguments_reads hargs hinner) fun args' hargs' => ?_
    refine Reads.last (punct_reads rfl (by decide)) fun _ _ => Reads.pure fun m hm => ?_
    rw [SameAs, Expr.unplaced, Expr.unplaced, Expr.unplacedList_eq_map, Expr.unplacedList_eq_map,
      hf', hargs', unplaced_note hm hn]
  · rw [List.append_assoc]
    exact ahead_word hword _

end Atoms

section Operators

variable {inner operand : Parser Expr} {text rest : List Char} {n : Note} {e : Expr}

theorem suffix_reads_member {field : String} (hfield : IsName field) (hrest : WordEnds rest) :
    Reads (suffix inner) (fun s => ∃ span, s = .member field span) ('.' :: field.toList) rest := by
  refine Reads.bind (s := ['.']) (Reads.maybe_some (Reads.literal ".")) ?_
  intro o ⟨point, ho, _⟩
  rw [ho]
  refine Reads.last ((ident_reads hfield hrest).spanned.token
    (ahead_word (isWord_of_isName hfield) rest)) fun a ha => Reads.pure ?_
  exact ⟨a.2, congrArg (Suffix.member · a.2) ha⟩

theorem suffix_reads_index {p : Expr} (hp : ReadsParen inner p) :
    Reads (suffix inner) (fun s => ∃ p' closing, s = .index p' closing ∧ SameAs p p')
      ('[' :: (paren p.form ++ [']'])) rest := by
  have hpoint : Fails (literal ".") ('[' :: (paren p.form ++ [']']) ++ rest) :=
    literal_fails (by decide) (by rintro c ⟨⟩; decide)
  refine Reads.bind (s := []) (Reads.maybe_none hpoint) fun o ho => ?_
  rw [ho]
  refine Reads.bind (s := ['[']) (Reads.literal "[") fun _ _ => ?_
  refine Reads.bind (hp _ (exprEnds_cons _ rfl (by decide))) fun p' hp' => ?_
  refine Reads.last ((Reads.literal "]").spanned.token rfl) fun closing _ => Reads.pure ?_
  exact ⟨p', closing.2, rfl, hp'⟩

theorem postfixed_reads {t : Expr} {P : Suffix → Prop} (ht : ReadsForm inner t)
    (h : Reads (suffix inner) P text rest) (hne : text ≠ []) (hrest : SuffixEnds rest) :
    Reads (postfixed inner) (fun a => ∃ t' s, SameAs t t' ∧ P s ∧ a = applySuffix t' s)
      (paren t.form ++ text) rest := by
  unfold postfixed
  rw [andThen_eq_bind]
  refine Reads.bind (atom_reads_paren (ht _)) fun t' ht' => ?_
  refine (many_one h hne (suffix_fails hrest)).imp ?_
  intro a ⟨s, hs, ha⟩
  exact ⟨t', s, ht', hs, ha⟩

theorem member_reads {t : Expr} {field : String} {fn : Note} (ht : ReadsForm inner t)
    (hfield : IsName field) (hfn : fn.ty = .unknown) (hn : n.ty = .unknown)
    (hword : WordEnds rest) (hrest : SuffixEnds rest) :
    Reads (postfixed inner) (SameAs (.member t (.name field fn) none n))
      (paren t.form ++ ('.' :: field.toList)) rest := by
  refine (postfixed_reads ht (suffix_reads_member hfield hword) (List.cons_ne_nil _ _) hrest).imp ?_
  intro a ⟨t', s, ht', ⟨span, hs⟩, ha⟩
  rw [SameAs, ha, hs, applySuffix, Expr.unplaced, Expr.unplaced, Expr.unplaced, Expr.unplaced, ht',
    unplaced_of_unknown hfn, unplaced_of_unknown hn]
  rfl

theorem index_reads {t p : Expr} (ht : ReadsForm inner t) (hp : ReadsParen inner p)
    (hn : n.ty = .unknown) (hrest : SuffixEnds rest) :
    Reads (postfixed inner) (SameAs (.index t p n))
      (paren t.form ++ ('[' :: (paren p.form ++ [']']))) rest := by
  refine (postfixed_reads ht (suffix_reads_index hp) (List.cons_ne_nil _ _) hrest).imp ?_
  intro a ⟨t', s, ht', ⟨p', closing, hs, hp'⟩, ha⟩
  rw [SameAs, ha, hs, applySuffix, Expr.unplaced, Expr.unplaced, ht', hp', unplaced_note rfl hn]

theorem number_fails_minus {d : Char} (hd : d.isDigit = false) :
    Fails number ('-' :: d :: rest) := by
  have hdigits : Fails digits (d :: rest) := by
    intro offset
    cases hread : digits ⟨offset, d :: rest⟩ with
    | none => rfl
    | some reply =>
      obtain ⟨c, hc, hdigit⟩ := (Opens.satisfy Char.isDigit).chars hread
      cases hc
      rw [hd] at hdigit
      cases hdigit
  have hnumeral : Fails numeral ('-' :: d :: rest) :=
    Reads.bind_fails (s := ['-']) (Reads.maybe_some (Reads.literal "-")) fun _ _ => hdigits.bind _
  intro offset
  rw [number, skipSpacing_of_ahead (ahead_cons _ rfl)]
  simp only [hnumeral offset]

theorem atom_fails_sign {c d : Char} (hc : c ∈ ['-', '+', '!']) (hd : d.isDigit = false) :
    Fails (atom inner) (c :: d :: rest) := by
  have hspace : Text.isSpacing c = false := eq_false_of_mem hc (by decide)
  have hword : isWordChar c = false := eq_false_of_mem hc (by decide)
  have hsymbol : ∀ symbol : String,
      ['-', '+', '!'].any (fun d => symbol.toList.head? == some d) = false →
        (symbol.toList.head? == some c) = false :=
    fun symbol hany => eq_false_of_mem (S := fun d => symbol.toList.head? == some d) hc hany
  have hnumber : Fails number (c :: d :: rest) := by
    by_cases hminus : c = '-'
    · rw [hminus]
      exact number_fails_minus hd
    · refine number_begins.fails_cons hspace ?_
      rw [eq_false_of_mem (S := Char.isDigit) hc (by decide), Bool.false_or, beq_eq_false_iff_ne]
      exact hminus
  apply Fails.choice
  simp only [List.forall_mem_cons]
  exact ⟨hnumber, string_begins.fails_cons hspace (hsymbol _ (by decide)),
    boolean_begins.fails_cons hspace hword, conditional_begins.fails_cons hspace hword,
    lambda_begins.fails_cons hspace (hsymbol _ (by decide)),
    call_begins.fails_cons hspace hword, array_begins.fails_cons hspace (hsymbol _ (by decide)),
    identifier_begins.fails_cons hspace hword,
    group_begins.fails_cons hspace (hsymbol _ (by decide)), nofun⟩

theorem unaryOp_reads (op : UnaryOp) (hrest : OpEnds rest) :
    Reads unaryOp (fun a => a = op) op.symbol.toList rest := by
  cases op with
  | neg => exact Reads.alt_left ((op_reads rfl (by decide) hrest).map fun _ _ => rfl)
  | plus =>
    refine Reads.alt_right ((op_fails_cons rfl (by decide) rfl).map _) ?_
    exact Reads.alt_left ((op_reads rfl (by decide) hrest).map fun _ _ => rfl)
  | not =>
    refine Reads.alt_right ((op_fails_cons rfl (by decide) rfl).map _) ?_
    refine Reads.alt_right ((op_fails_cons rfl (by decide) rfl).map _) ?_
    exact Reads.alt_left ((op_reads rfl (by decide) hrest).map fun _ _ => rfl)

theorem symbol_unary (op : UnaryOp) : ∃ c ∈ ['-', '+', '!'], op.symbol.toList = [c] := by
  cases op <;> exact ⟨_, by decide, rfl⟩

/-- An operator in front of an operand, which starts with a character that belongs to neither a
number nor a longer operator. -/
theorem unary_of_operator {fuel : Nat} {d : Char} (op : UnaryOp) (hd : d.isDigit = false)
    (hop : extendsOperator d = false) (h : Reads (unary inner fuel) (SameAs e) (d :: text) rest)
    (hn : n.ty = .unknown) :
    Reads (unary inner (fuel + 1)) (SameAs (.unary op e n))
      (op.symbol.toList ++ d :: text) rest := by
  obtain ⟨c, hc, hsymbol⟩ := symbol_unary op
  have hspace : Text.isSpacing c = false := eq_false_of_mem hc (by decide)
  -- the operand without operators is tried first
  have hpostfixed : Fails (postfixed inner) (op.symbol.toList ++ d :: text ++ rest) := by
    unfold postfixed
    rw [andThen_eq_bind, hsymbol]
    exact (atom_fails_sign hc hd).bind _
  have hpair := (unaryOp_reads op (opEnds_cons _ hop)).pair h
  refine Reads.alt_right hpostfixed ?_
  intro offset
  obtain ⟨⟨op', operand⟩, hread, hop, hoperand⟩ := hpair offset
  have hstart : Cursor.skipSpacing ⟨offset, op.symbol.toList ++ d :: text ++ rest⟩ =
      ⟨offset, op.symbol.toList ++ d :: text ++ rest⟩ := by
    rw [hsymbol]
    exact skipSpacing_of_ahead (ahead_cons _ hspace)
  change op' = op at hop
  change operand.unplaced = e.unplaced at hoperand
  dsimp only
  rw [hstart, hread]
  refine ⟨_, rfl, ?_⟩
  rw [SameAs, Expr.unplaced, Expr.unplaced, hop, hoperand, unplaced_note rfl hn]

theorem unary_reads {fuel : Nat} (op : UnaryOp) (he : ReadsForm inner e) (hn : n.ty = .unknown)
    (hrest : SuffixEnds rest) :
    Reads (unary inner (fuel + 2)) (SameAs (.unary op e n))
      (op.symbol.toList ++ paren e.form) rest :=
  unary_of_operator op (by decide) (by decide)
    (unary_of_postfixed (postfixed_of_atom (atom_reads_paren (he _)) hrest) fuel) hn

theorem head_symbol_inj {op op' : BinaryOp}
    (h : op.symbol.toList.head? = op'.symbol.toList.head?) : op = op' := by
  revert h
  cases op <;> cases op' <;> decide

theorem op_fails_other {op op' : BinaryOp} (hne : op' ≠ op) :
    Fails (Grammar.op op'.symbol) (op.symbol.toList ++ rest) := by
  have hsome : op'.symbol.toList ≠ [] := by cases op' <;> decide
  obtain ⟨c, hc, hhead⟩ := head_symbol op
  obtain ⟨text, htext⟩ := List.head?_eq_some_iff.mp hhead
  rw [htext, List.cons_append]
  refine op_fails_cons (eq_false_of_mem hc (by decide)) hsome ?_
  rw [← hhead, beq_eq_false_iff_ne]
  exact fun heq => hne (head_symbol_inj heq)

theorem binaryOp_reads {op : BinaryOp} {table : List BinaryOp} (h : op ∈ table)
    (hrest : OpEnds rest) : Reads (binaryOp table) (fun a => a = op) op.symbol.toList rest := by
  induction table with
  | nil => cases h
  | cons op' table ih =>
    by_cases heq : op' = op
    · have hread : Reads (Grammar.op op.symbol) (fun _ => True) op.symbol.toList rest :=
        op_reads (by cases op <;> rfl) (by cases op <;> decide) hrest
      rw [heq]
      exact Reads.alt_left (hread.map fun _ _ => rfl)
    · refine Reads.alt_right ((op_fails_other heq).map _) (ih ?_)
      exact (List.mem_cons.mp h).resolve_left fun hop => heq hop.symm

theorem binaryOp_fails_other {op : BinaryOp} {table : List BinaryOp} (h : op ∉ table) :
    Fails (binaryOp table) (op.symbol.toList ++ rest) := by
  apply Fails.choice
  intro p hp
  obtain ⟨op', hop', rfl⟩ := List.mem_map.mp hp
  refine Fails.map (op_fails_other ?_) _
  intro heq
  exact h (heq ▸ hop')

theorem binary_reads {op : BinaryOp} {l r : Expr} {levels : List (List BinaryOp)}
    (hl : ∀ rest, SuffixEnds rest → Reads operand (SameAs l) (paren l.form) rest)
    (hr : ∀ rest, SuffixEnds rest → Reads operand (SameAs r) (paren r.form) rest)
    (hop : op ∈ levels.flatten) (hnodup : levels.flatten.Nodup) (hn : n.ty = .unknown)
    (hrest : ExprEnds rest) :
    Reads (binary operand levels) (SameAs (.binary op l r n))
      (paren l.form ++ (op.symbol.toList ++ paren r.form)) rest := by
  have hnone := binaryOp_fails hrest.2
  induction levels with
  | nil => cases hop
  | cons level tighter ih =>
    rw [List.flatten_cons, List.nodup_append] at hnodup
    obtain ⟨-, htighter, hdisjoint⟩ := hnodup
    rw [List.flatten_cons, List.mem_append] at hop
    by_cases hlevel : op ∈ level
    · -- no tighter level has the operator, so the left operand ends before it
      have hfails : ∀ table ∈ tighter,
          Fails (binaryOp table) (op.symbol.toList ++ paren r.form ++ rest) := by
        intro table htable
        rw [List.append_assoc]
        refine binaryOp_fails_other fun hmem => ?_
        exact hdisjoint op hlevel op (List.mem_flatten_of_mem htable hmem) rfl
      have hsuffix : SuffixEnds (op.symbol.toList ++ paren r.form ++ rest) := by
        cases op <;> exact fun c hc => by cases hc; decide
      have hright : Reads (binary operand tighter) (SameAs r) (paren r.form) rest :=
        binary_of_operand (hr rest hrest.1) fun table _ => hnone table
      have hpair := (binaryOp_reads hlevel (opEnds_cons _ (by decide))).pair hright
      have hsome : op.symbol.toList ++ paren r.form ≠ [] := by
        cases op <;> exact List.cons_ne_nil _ _
      unfold binary chainLeft
      rw [andThen_eq_bind]
      refine Reads.bind (binary_of_operand (hl _ hsuffix) hfails) fun l' hl' => ?_
      refine (many_one hpair hsome (pair_fails (hnone level))).imp ?_
      rintro a ⟨⟨op', r'⟩, ⟨hop', hr'⟩, ha⟩
      change op' = op at hop'
      change r'.unplaced = r.unplaced at hr'
      rw [SameAs, ha, applyBinary, Expr.unplaced, Expr.unplaced, hop', hl', hr',
        unplaced_note rfl hn]
    · -- both operands and the operator are one operand of this level
      exact chainLeft_of_operand (ih (hop.resolve_left hlevel) htighter) (hnone level)

theorem assignment_reads {x : String} {xn : Note} {v : Expr} (hx : IsName x)
    (hxn : xn.ty = .unknown) (hv : ReadsParen inner v) (hn : n.ty = .unknown)
    (hrest : ExprEnds rest) :
    Reads (assignment inner) (SameAs (.assign (.name x xn) v n))
      (x.toList ++ (":=".toList ++ paren v.form)) rest := by
  refine Reads.bind ((ident_reads hx (wordEnds_cons _ (by decide))).spanned.token
    (ahead_word (isWord_of_isName hx) _)) fun x' hx' => ?_
  refine Reads.bind (op_reads rfl (by decide) (opEnds_cons _ (by decide))) fun _ _ => ?_
  refine Reads.last (hv _ hrest) fun v' hv' => Reads.pure ?_
  rw [SameAs, Expr.unplaced, Expr.unplaced, Expr.unplaced, Expr.unplaced, hx', hv',
    unplaced_of_unknown hxn, unplaced_of_unknown hn]
  rfl

end Operators

theorem length_paren (text : List Char) : (paren text).length = text.length + 2 := by
  simp [paren]

/-- With more fuel than the form of an expression has characters, the form is read. -/
def Readable (e : Expr) : Prop :=
  ∀ fuel, e.form.length ≤ fuel → ReadsForm (expression (fuel + 1)) e

namespace Readable

variable {e : Expr} {fuel : Nat}

theorem form (h : Readable e) (hfuel : e.form.length < fuel) : ReadsForm (expression fuel) e := by
  obtain ⟨fuel, rfl⟩ := Nat.exists_eq_succ_of_ne_zero (Nat.ne_of_gt (Nat.zero_lt_of_lt hfuel))
  exact h fuel (Nat.le_of_lt_succ hfuel)

theorem paren (h : Readable e) (hfuel : (PCode.paren e.form).length ≤ fuel) :
    ReadsParen (expression fuel) e := by
  rw [length_paren] at hfuel
  obtain ⟨fuel, rfl⟩ : ∃ k, fuel = k + 1 := ⟨fuel - 1, by omega⟩
  exact fun rest hrest => expression_reads_paren (h.form (by omega) rest) hrest

theorem operand (h : Readable e) (hfuel : e.form.length < fuel) (k : Nat) (rest : List Char)
    (hrest : SuffixEnds rest) :
    Reads (unary (expression fuel) (k + 1)) (SameAs e) (PCode.paren e.form) rest :=
  unary_of_postfixed (postfixed_of_atom (atom_reads_paren (h.form hfuel rest)) hrest) k

end Readable

theorem exprEnds_close (rest : List Char) : ExprEnds (')' :: rest) :=
  exprEnds_cons rest rfl (by decide)

theorem wordEnds_close (rest : List Char) : WordEnds (')' :: rest) :=
  wordEnds_cons rest (by decide)

/-- What stands between the parentheses of an expression is read as that expression, up to
places. -/
theorem readable_of_wellFormed {e : Expr} (h : e.WellFormed) (hreal : e.realFree = true) :
    Readable e := by
  -- the parts of a node need less fuel than the node, since its form has their parentheses in it
  induction h with
  | @integer v n hn =>
    intro fuel _ rest
    refine expression_of_atom (assignment_fails (ident_fails_integer v (wordEnds_close rest)))
      (integer_reads v hn ?_) (exprEnds_close rest)
    rintro c ⟨⟩
    decide
  | real => cases hreal
  | @text v n hn =>
    intro fuel _ rest
    exact expression_of_atom (assignment_fails (ident_begins.fails_cons rfl (by decide)))
      (text_reads v hn) (exprEnds_close rest)
  | @boolean v n hn =>
    intro fuel _ rest
    have hident : Fails ident ((toString v).toList ++ ')' :: rest) :=
      ident_fails (by cases v <;> decide) (wordEnds_close rest)
    exact expression_of_atom (assignment_fails hident)
      (boolean_reads v hn (wordEnds_close rest)) (exprEnds_close rest)
  | @name x n hx hn =>
    intro fuel _ rest
    exact expression_of_atom
      (assignment_fails_name hx (wordEnds_close rest) (op_fails_cons rfl (by decide) rfl))
      (name_reads hx hn (wordEnds_close rest) (by simp)) (exprEnds_close rest)
  | @unary op e n he hn ih =>
    intro fuel hfuel rest
    rw [Expr.form, List.length_append, length_paren] at hfuel
    obtain ⟨fuel, rfl⟩ : ∃ k, fuel = k + 1 := ⟨fuel - 1, by omega⟩
    refine expression_of_unary ?_
      (unary_reads op ((ih hreal).form (by omega)) hn (exprEnds_close rest).1) (exprEnds_close rest)
    refine assignment_fails ?_
    cases op <;> exact ident_begins.fails_cons rfl (by decide)
  | @binary op l r n hl hr hn ihl ihr =>
    intro fuel hfuel rest
    rw [Expr.form, List.length_append, List.length_append, length_paren, length_paren] at hfuel
    rw [Expr.realFree, Bool.and_eq_true] at hreal
    refine Reads.alt_right ?_ (binary_reads ((ihl hreal.1).operand (by omega) fuel)
      ((ihr hreal.2).operand (by omega) fuel) (by cases op <;> decide) (by decide) hn
      (exprEnds_close rest))
    rw [Expr.form, List.append_assoc]
    exact assignment_fails_paren
  | @member t field fn n ht hfield hfn hn ih =>
    intro fuel hfuel rest
    rw [Expr.form, List.length_append, length_paren] at hfuel
    rw [Expr.realFree, Bool.and_eq_true] at hreal
    refine expression_of_unary ?_ (unary_of_postfixed
      (member_reads ((ih hreal.1).form (by omega)) hfield hfn hn (wordEnds_close rest)
        (exprEnds_close rest).1) fuel) (exprEnds_close rest)
    rw [Expr.form, List.append_assoc]
    exact assignment_fails_paren
  | @assign x xn v n hx hxn hv hn ih =>
    intro fuel hfuel rest
    rw [Expr.form, List.length_append, List.length_append] at hfuel
    rw [Expr.realFree, Bool.and_eq_true] at hreal
    exact Reads.alt_left (assignment_reads hx hxn ((ih hreal.2).paren (by omega)) hn
      (exprEnds_close rest))
  | @cond c t e n hc ht he hn ihc iht ihe =>
    intro fuel hfuel rest
    rw [Expr.form] at hfuel
    simp only [List.length_append] at hfuel
    simp only [Expr.realFree, Bool.and_eq_true] at hreal
    refine expression_of_atom ?_ (cond_reads ((ihc hreal.1.1).paren (by omega))
      ((iht hreal.1.2).paren (by omega)) ((ihe hreal.2).paren (by omega)) hn
      (exprEnds_close rest)) (exprEnds_close rest)
    rw [Expr.form, List.append_assoc, List.append_assoc]
    exact assignment_fails (ident_fails (by decide) (wordEnds_paren _ _))
  | @lambda params body n hne hparams hbody hn ih =>
    intro fuel hfuel rest
    rw [Expr.form] at hfuel
    simp only [List.length_append, List.length_cons] at hfuel
    exact expression_of_atom (assignment_fails (ident_begins.fails_cons rfl (by decide)))
      (lambda_reads hne hparams ((ih hreal).paren (by omega)) hn (exprEnds_close rest))
      (exprEnds_close rest)
  | @call f args n hf hargs hn ih =>
    intro fuel hfuel rest
    rw [Expr.form, Expr.formList_eq_flatMap] at hfuel
    simp only [List.length_append, List.length_cons] at hfuel
    rw [Expr.realFree, Expr.realFreeList_iff] at hreal
    have hparen : ∀ e ∈ args, ReadsParen (expression fuel) e := by
      intro e he
      have hlength := length_le_flatMap (fun e : Expr => paren e.form) he
      exact (ih e he (hreal e he)).paren (by omega)
    have hread : Reads (atom (expression fuel)) (SameAs (.call f args n)) (Expr.call f args n).form
        (')' :: rest) := by
      rw [Expr.form, Expr.formList_eq_flatMap]
      exact call_reads hf hparen (expression_begins fuel) hn
    refine expression_of_atom ?_ hread (exprEnds_close rest)
    rw [Expr.form, List.append_assoc]
    exact assignment_fails_name hf (wordEnds_cons _ (by decide)) (op_fails_cons rfl (by decide) rfl)
  | @array items n hitems hn ih =>
    intro fuel hfuel rest
    rw [Expr.form, Expr.formList_eq_flatMap] at hfuel
    simp only [List.length_append, List.length_cons] at hfuel
    rw [Expr.realFree, Expr.realFreeList_iff] at hreal
    have hparen : ∀ e ∈ items, ReadsParen (expression fuel) e := by
      intro e he
      have hlength := length_le_flatMap (fun e : Expr => paren e.form) he
      exact (ih e he (hreal e he)).paren (by omega)
    have hread : Reads (atom (expression fuel)) (SameAs (.array items n)) (Expr.array items n).form
        (')' :: rest) := by
      rw [Expr.form, Expr.formList_eq_flatMap]
      exact array_reads hparen (expression_begins fuel) hn
    exact expression_of_atom (assignment_fails (ident_begins.fails_cons rfl (by decide))) hread
      (exprEnds_close rest)
  | @index t p n ht hp hn iht ihp =>
    intro fuel hfuel rest
    rw [Expr.form] at hfuel
    simp only [List.length_append, List.length_cons, length_paren] at hfuel
    rw [Expr.realFree, Bool.and_eq_true] at hreal
    refine expression_of_unary ?_ (unary_of_postfixed
      (index_reads ((iht hreal.1).form (by omega))
        ((ihp hreal.2).paren (by rw [length_paren]; omega)) hn
        (exprEnds_close rest).1) fuel) (exprEnds_close rest)
    rw [Expr.form, List.append_assoc]
    exact assignment_fails_paren

end Grammar

end PCode
