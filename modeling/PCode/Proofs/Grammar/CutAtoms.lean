import PCode.Proofs.Grammar.CutStarts

namespace PCode.Grammar

open PCode.Parser

variable {α β : Type} {tail : List Char} {c d : Cursor}

section Follow

theorem symbol_ne_nil (o : BinaryOp) : o.symbol.toList ≠ [] := by
  cases o <;> decide

/-- The characters that could go on with an expression. -/
def goesOn (ch : Char) : Bool :=
  ('.' :: '(' :: '[' :: ':' :: operatorStarts).contains ch

/-- On the whole text, what follows a place does not go on with an expression before it, unless it
is an operator with its operand or a suffix. -/
inductive Follow (tail : List Char) (d : Cursor) : Prop
  | free (h : ∀ ch, ahead d.rest = some ch → goesOn ch = false)
  | expr {e : Expr} {d' : Cursor} (h : readExpr (d.extend tail) = some (e, d'.extend tail))
  | op {o : BinaryOp} {m m' : Cursor} {e : Expr} (hop : op o.symbol (d.extend tail) = some ((), m))
      (h : readOperand m = some (e, m'))
  | suffix {a : Suffix} {m : Cursor} (h : suffix readExpr (d.extend tail) = some (a, m))

theorem follow_of_ahead {T : Char → Bool} (hT : ∀ ch, T ch = true → goesOn ch = false)
    (h : Ahead T d) : Follow tail d := by
  refine .free fun ch hch => ?_
  obtain ⟨ch', hahead, hch'⟩ := h
  rw [hch] at hahead
  cases hahead
  exact hT ch hch'

theorem goesOn_of_wordStart (ch : Char) (h : wordStart ch = true) : goesOn ch = false := by
  cases hch : goesOn ch with
  | false => rfl
  | true =>
    rw [goesOn, List.contains_iff_mem] at hch
    rw [eq_false_of_mem (S := wordStart) hch (by decide)] at h
    cases h

/-- The characters with which suffixes start. -/
def suffixStart (ch : Char) : Bool :=
  ch == '.' || ch == '['

theorem suffix_opens {inner : Parser Expr} : Opens (suffix inner) suffixStart := by
  intro cursor a rest heq
  obtain ⟨point, mid, hpoint, hrest⟩ := bind_apply_eq_some_iff.mp heq
  rcases maybe_apply_eq_some_iff.mp hpoint with ⟨value, rfl, hvalue⟩ | ⟨rfl, -, rfl⟩
  · obtain ⟨ch, hhead, hch⟩ := Opens.literal (by decide) hvalue
    exact ⟨ch, hhead, of_starts (S := suffixStart) (by decide) ch hch⟩
  · obtain ⟨_, _, hbracket, -⟩ := bind_apply_eq_some_iff.mp hrest
    obtain ⟨ch, hhead, hch⟩ := Opens.literal (by decide) hbracket
    exact ⟨ch, hhead, of_starts (S := suffixStart) (by decide) ch hch⟩

theorem isSpacing_of_suffixStart {ch : Char} (h : suffixStart ch = true) :
    Text.isSpacing ch = false := by
  simp only [suffixStart, Bool.or_eq_true, beq_iff_eq] at h
  obtain rfl | rfl := h <;> rfl

theorem suffixStart_of_ahead {ch : Char} {a : Suffix} {m : Cursor} (hd : ahead d.rest = some ch)
    (h : suffix readExpr (d.extend tail) = some (a, m)) : suffixStart ch = true := by
  obtain ⟨ch', hhead, hch'⟩ := suffix_opens h
  cases hrest : d.rest with
  | nil =>
    rw [hrest] at hd
    cases hd
  | cons ch'' rest =>
    rw [Cursor.extend, hrest] at hhead
    cases hhead
    rw [hrest, ahead_cons rest (isSpacing_of_suffixStart hch')] at hd
    cases hd
    exact hch'

theorem head_of_ahead (hs : Solid tail) {ch : Char} {o : BinaryOp} {m : Cursor}
    (hd : ahead d.rest = some ch) (h : op o.symbol (d.extend tail) = some ((), m)) :
    o.symbol.toList.head? = some ch := by
  obtain ⟨ch', hahead, hch'⟩ := op_begins (symbol_ne_nil o) h
  rw [hs.ahead hd] at hahead
  cases hahead
  exact beq_iff_eq.mp hch'

theorem Follow.expr_of_ahead (hs : Solid tail) {ch : Char} (h : Follow tail d)
    (hd : ahead d.rest = some ch) (hch : goesOn ch = true) (hop : ch ∉ operatorStarts)
    (hsuffix : suffixStart ch = false) :
    ∃ (e : Expr) (d' : Cursor), readExpr (d.extend tail) = some (e, d'.extend tail) := by
  cases h with
  | free h =>
    rw [h ch hd] at hch
    cases hch
  | expr h => exact ⟨_, _, h⟩
  | op h =>
    obtain ⟨ch', hmem, hhead⟩ := head_symbol _
    rw [head_of_ahead hs hd h] at hhead
    cases hhead
    exact absurd hmem hop
  | suffix h =>
    rw [suffixStart_of_ahead hd h] at hsuffix
    cases hsuffix

end Follow

section Atoms

variable {region : UpperSet Cursor} {F : Cursor → Prop} {start : Cursor}

theorem node_cuts (hs : Solid tail) {p : Parser (Note → Expr)} (h : Cuts tail region p F) :
    Cuts tail region (node p) F :=
  (Cuts.token hs h.spanned).map _

theorem boolean_cuts (hs : Solid tail) : Cuts tail region boolean F := by
  refine .alt ((keyword_cuts hs _).map _) ((keyword_cuts hs _).map _) ?_
  intro c a d _ _ heq _
  rw [map_eq_none_iff]
  exact ((keyword_leads "false").map _).keyword_eq_none hs heq (by decide)

theorem exprs_row {p : Parser Expr} {T : Char → Bool} (hp : Advances p)
    (h : Cuts tail region p (Follow tail)) (hb : Begins p exprStart)
    (hexpr : ∀ c e d, p c = some (e, d) → readExpr c = some (e, d))
    (hstart : ∀ ch, exprStart ch = true → T ch = false)
    (hgoes : ∀ ch, T ch = true → goesOn ch = false) :
    Cuts.Row tail region p (Follow tail) (Ahead T) :=
  .before hp h hb hstart (fun _ _ _ _ heq _ => .expr (hexpr _ _ _ heq))
    fun _ hd => follow_of_ahead hgoes hd

theorem argument_begins : Begins (argument readExpr) exprStart :=
  fun _ _ _ heq => readExpr_starts.begins (of_argument heq)

variable (hs : Solid tail) (hexpr : Cuts tail (.Ioi start) readExpr (Follow tail))

include hs hexpr

theorem conditional_cuts : Cuts tail (.Ici start) (conditional readExpr) (Follow tail) :=
  .guard (keyword_cuts hs _) (keyword_advances _) fun _ =>
    .before hs hexpr (keyword_starts _) (keyword_cuts hs _)
      (fun _ => follow_of_ahead goesOn_of_wordStart) fun _ _ =>
    .before hs hexpr (keyword_starts _) (keyword_cuts hs _)
      (fun _ => follow_of_ahead goesOn_of_wordStart) fun _ _ => hexpr.last

theorem lambda_cuts : Cuts tail (.Ici start) (lambda readExpr) (Follow tail) := by
  have hparams : Cuts.Row tail (.Ioi start) ident Anywhere
      (Ahead fun ch => "->".toList.head? == some ch) :=
    .before ident_advances (ident_cuts hs) ident_begins (not_starts_of (by decide))
      (fun _ _ _ _ _ _ => trivial) fun _ _ => trivial
  exact .guard (punct_cuts hs _) (punct_advances (by decide)) fun _ =>
    .before hs hparams.list1 (op_starts (by decide)) (op_cuts hs _) (fun _ hd => hd) fun _ _ =>
      hexpr.last

theorem array_cuts : Cuts tail (.Ici start) (array readExpr) F := by
  have hitems := exprs_row (T := fun ch => "]".toList.head? == some ch) readExpr_advances hexpr
    readExpr_starts.begins (fun _ _ _ heq => heq) (not_starts_of (by decide))
    (not_of_starts (by decide))
  exact .guard (punct_cuts hs _) (punct_advances (by decide)) fun _ =>
    .before hs hitems.list (punct_starts (by decide)) (punct_cuts hs _) (fun _ hd => hd)
      fun _ _ => .pure _

theorem group_cuts : Cuts tail (.Ici start) (group readExpr) F :=
  .guard (punct_cuts hs _) (punct_advances (by decide)) fun _ =>
    .before hs hexpr (punct_starts (by decide)) (punct_cuts hs _)
      (fun _ => follow_of_ahead (not_of_starts (by decide))) fun _ _ => .pure _

theorem argument_cuts : Cuts tail (.Ioi start) (argument readExpr) (Follow tail) := by
  refine ⟨argument_follows readExpr_advances.follows, ?_⟩
  intro c e d hc heq hd
  unfold argument at heq ⊢
  rw [hs.newlineAhead] at heq
  split at heq
  · cases heq
  · rename_i hline
    rw [if_neg hline]
    exact hexpr.same hc heq hd

theorem arguments_cuts :
    Cuts tail (.Ioi start) (arguments readExpr) (Ahead fun ch => ")".toList.head? == some ch) := by
  have hothers := exprs_row (T := fun ch => ")".toList.head? == some ch)
    (argument_advances readExpr_advances) (argument_cuts hs hexpr) argument_begins
    (fun _ _ _ => of_argument) (not_starts_of (by decide)) (not_of_starts (by decide))
  refine .maybe_bind hexpr (fun first => ?_) ?_ ?_
  · cases first with
    | some first => exact hothers.list.last
    | none => exact .pure _
  · intro d first args e hd heq he
    obtain ⟨others, mid, hlist, hpure⟩ := bind_apply_eq_some_iff.mp heq
    obtain ⟨-, rfl⟩ := pure_apply_eq_some_iff.mp hpure
    rw [list_apply_eq_some_iff hothers.advances] at hlist
    exact (hothers.cut hlist hd he).2
  · intro c args e _ _ heq he
    obtain ⟨-, hplace⟩ := pure_apply_eq_some_iff.mp heq
    rw [Cursor.extend_inj] at hplace
    subst hplace
    exact readExpr_starts.begins.eq_none he (not_starts_of (by decide))

theorem call_cuts : Cuts tail (.Ici start) (call readExpr) F :=
  .guard (ident_cuts hs) ident_advances fun _ => .after (literal_cuts _) fun _ =>
    .before hs (arguments_cuts hs hexpr) (punct_starts (by decide)) (punct_cuts hs _)
      (fun _ hd => hd) fun _ _ => .pure _

omit hs hexpr

end Atoms

section Inversion

variable {inner operand : Parser Expr} {e : Expr} {r : Expr × Cursor} {ch : Char}

theorem operand_of_binary (ho : Follows operand) {levels : List (List BinaryOp)}
    (h : binary operand levels c = some (e, d)) : ∃ a m, operand c = some (a, m) ∧ m ≤ d := by
  induction levels generalizing e d with
  | nil => exact ⟨e, d, h, le_refl d⟩
  | cons level tighter ih =>
    unfold binary chainLeft at h
    rw [andThen_eq_bind] at h
    obtain ⟨first, mid, hfirst, hmany⟩ := bind_apply_eq_some_iff.mp h
    obtain ⟨a, m, ha, hle⟩ := ih hfirst
    have hothers := ((binaryOp_advances level).pair (binary_follows ho tighter)).follows.many
      first applyBinary hmany
    exact ⟨a, m, ha, le_trans hle hothers⟩

theorem assignment_eq_none (h : ident c = none) : assignment inner c = none := by
  refine bind_eq_none ?_ _
  unfold token spanned
  rw [ident_skips, h]

theorem readOperand_of_readExpr (h : readExpr c = some (e, d)) (hname : ident c = none) :
    ∃ a m, readOperand c = some (a, m) ∧ m ≤ d := by
  rw [readExpr_eq] at h
  unfold alt at h
  rw [assignment_eq_none hname] at h
  exact operand_of_binary readOperand_advances.follows h

theorem atom_of_postfixed (h : postfixed readExpr c = some (e, d)) :
    ∃ a m, atom readExpr c = some (a, m) ∧ m ≤ d := by
  unfold postfixed at h
  rw [andThen_eq_bind] at h
  obtain ⟨a, m, ha, hmany⟩ := bind_apply_eq_some_iff.mp h
  exact ⟨a, m, ha, (suffix_advances readExpr_advances.follows).follows.many _ _ hmany⟩

theorem atom_of_readOperand (h : readOperand c = some (e, d)) (hsign : unaryOp c = none) :
    ∃ a m, atom readExpr c = some (a, m) ∧ m ≤ d := by
  have hprefixed : prefixed readOperand c = none := by
    rw [prefixed_eq, pair_eq_bind, map_eq_none_iff]
    unfold token spanned
    rw [bind_eq_none (by rwa [unaryOp_starts.skips]) _]
  rw [readOperand_eq] at h
  rcases alt_apply_eq_some h with hpostfixed | hsigned
  · exact atom_of_postfixed hpostfixed
  · rw [hprefixed] at hsigned
    cases hsigned

theorem start_of_ahead {p : Parser α} {S : Char → Bool} {r : α × Cursor} (hp : Begins p S)
    (h : p c = some r) (hc : ahead c.rest = some ch) : S ch = true := by
  obtain ⟨ch', hahead, hch'⟩ := hp h
  rw [hc] at hahead
  cases hahead
  exact hch'

theorem eq_of_starts {symbol : String} {first : Char} (hfirst : symbol.toList.head? = some first)
    (h : (symbol.toList.head? == some ch) = true) : ch = first := by
  rw [hfirst, beq_iff_eq, Option.some.injEq] at h
  exact h.symm

theorem atom_cases (hi : Follows inner) (h : atom inner c = some r) (hc : ahead c.rest = some ch) :
    (number c = some r ∧ (ch.isDigit || ch == '-') = true) ∨
      (node (array inner) c = some r ∧ ch = '[') ∨ (group inner c = some r ∧ ch = '(') ∨
      (wordOr ['"', '\\'] ch = true ∧ ch.isDigit = false) := by
  have hword : wordStart ch = true → wordOr ['"', '\\'] ch = true ∧ ch.isDigit = false := by
    intro hch
    refine ⟨wordOr_of_wordStart ch hch, ?_⟩
    simp only [wordStart, Bool.and_eq_true, Bool.not_eq_true'] at hch
    exact hch.2
  obtain ⟨p, hp, heq⟩ := mem_of_choice h
  simp only [List.mem_cons, List.not_mem_nil, or_false] at hp
  rcases hp with rfl | rfl | rfl | rfl | rfl | rfl | rfl | rfl | rfl
  · exact .inl ⟨heq, start_of_ahead number_begins heq hc⟩
  · have hch : ch = '"' := eq_of_starts rfl (start_of_ahead string_begins heq hc)
    subst hch
    exact .inr (.inr (.inr (by decide)))
  · exact .inr (.inr (.inr (hword (start_of_ahead boolean_starts.begins heq hc))))
  · exact .inr (.inr (.inr (hword (start_of_ahead (conditional_starts hi).begins heq hc))))
  · have hch : ch = '\\' := eq_of_starts rfl (start_of_ahead (lambda_starts hi).begins heq hc)
    subst hch
    exact .inr (.inr (.inr (by decide)))
  · exact .inr (.inr (.inr (hword (start_of_ahead (call_starts hi).begins heq hc))))
  · exact .inr (.inl ⟨heq, eq_of_starts rfl (start_of_ahead (array_starts hi).begins heq hc)⟩)
  · exact .inr (.inr (.inr (hword (start_of_ahead identifier_starts.begins heq hc))))
  · exact .inr
      (.inr (.inl ⟨heq, eq_of_starts rfl (start_of_ahead (group_starts hi).begins heq hc)⟩))

theorem group_of_atom (hi : Follows inner) (h : atom inner c = some r)
    (hc : ahead c.rest = some '(') : group inner c = some r := by
  rcases atom_cases hi h hc with ⟨-, hch⟩ | ⟨-, hch⟩ | ⟨hgroup, -⟩ | ⟨hch, -⟩
  · exact absurd hch (by decide)
  · exact absurd hch (by decide)
  · exact hgroup
  · exact absurd hch (by decide)

theorem array_of_atom (hi : Follows inner) (h : atom inner c = some r)
    (hc : ahead c.rest = some '[') : node (array inner) c = some r := by
  rcases atom_cases hi h hc with ⟨-, hch⟩ | ⟨harray, -⟩ | ⟨-, hch⟩ | ⟨hch, -⟩
  · exact absurd hch (by decide)
  · exact harray
  · exact absurd hch (by decide)
  · exact absurd hch (by decide)

theorem number_of_atom (hi : Follows inner) (h : atom inner c = some r)
    (hc : ahead c.rest = some ch) (hch : (ch.isDigit || signStart ch) = true) :
    number c = some r := by
  rcases atom_cases hi h hc with ⟨hnumber, -⟩ | ⟨-, rfl⟩ | ⟨-, rfl⟩ | ⟨hword, hdigit⟩
  · exact hnumber
  · exact absurd hch (by decide)
  · exact absurd hch (by decide)
  · rw [hdigit, Bool.false_or] at hch
    simp only [signStart, List.contains_iff_mem, List.mem_cons, List.not_mem_nil, or_false] at hch
    obtain rfl | rfl | rfl := hch <;> exact absurd hword (by decide)

theorem atom_of_readExpr (h : readExpr c = some (e, d)) (hc : ahead c.rest = some ch)
    (hname : wordStart ch = false) (hsign : signStart ch = false) :
    ∃ a m, atom readExpr c = some (a, m) ∧ m ≤ d := by
  obtain ⟨a, m, ha, hm⟩ :=
    readOperand_of_readExpr h (ident_starts.begins.none_of_ahead hc hname)
  obtain ⟨b, k, hb, hk⟩ :=
    atom_of_readOperand ha (unaryOp_starts.begins.none_of_ahead hc hsign)
  exact ⟨b, k, hb, le_trans hk hm⟩

end Inversion

section CallsAndNames

variable {region : UpperSet Cursor} {start : Cursor}

theorem skipSpacing_eq_self {ch : Char} (hd : d.rest.head? = some ch)
    (hch : Text.isSpacing ch = false) : d.skipSpacing = d := by
  apply skipSpacing_of_ahead
  obtain ⟨rest, hrest⟩ := List.head?_eq_some_iff.mp hd
  rw [hrest, ahead_cons rest hch, List.head?_cons]

theorem call_of_group {x : String} {e : Expr} {m : Cursor} (hname : ident c = some (x, d))
    (hopen : d.rest.head? = some '(') (h : group readExpr d = some (e, m)) :
    ∃ form k, call readExpr c = some (form, k) := by
  obtain ⟨_, d₁, hparen, h⟩ := bind_apply_eq_some_iff.mp h
  obtain ⟨first, d₂, hfirst, h⟩ := bind_apply_eq_some_iff.mp h
  obtain ⟨_, d₃, hclose, -⟩ := bind_apply_eq_some_iff.mp h
  obtain ⟨text, hliteral⟩ := punct_apply_eq_some_iff.mp hparen
  rw [skipSpacing_eq_self hopen rfl] at hliteral
  have hothers : list (argument readExpr) d₂ = some ([], d₂) := by
    refine (list_apply_eq_some_iff (argument_advances readExpr_advances)).mpr (.nil ?_)
    exact argument_begins.eq_none (punct_begins (by decide) hclose) (not_starts_of (by decide))
  have hargs : arguments readExpr d₁ = some ([first], d₂) := by
    refine bind_apply_eq_some_iff.mpr ⟨some first, d₂, ?_, ?_⟩
    · exact maybe_apply_eq_some_iff.mpr (.inl ⟨first, rfl, hfirst⟩)
    · exact bind_apply_eq_some_iff.mpr ⟨[], d₂, hothers, rfl⟩
  exact ⟨_, d₃, bind_apply_eq_some_iff.mpr ⟨x, d, hname, bind_apply_eq_some_iff.mpr
    ⟨text, d₁, hliteral, bind_apply_eq_some_iff.mpr ⟨[first], d₂, hargs,
      bind_apply_eq_some_iff.mpr ⟨(), d₃, hclose, rfl⟩⟩⟩⟩⟩

theorem call_eq_none (hs : Solid tail) {x : String}
    (hname : ident (c.extend tail) = some (x, d.extend tail))
    (hcall : call readExpr (c.extend tail) = none) (hd : Follow tail d) :
    call readExpr c = none := by
  have hcut : Cuts tail ⊥ ident Anywhere := ident_cuts hs
  refine (bind_eq_of_some (hcut.same trivial hname trivial)).trans ?_
  cases hopen : literal "(" d with
  | none => exact bind_eq_none hopen _
  | some reply =>
    -- something follows in parentheses, and it must be an expression
    exfalso
    obtain ⟨ch, hhead, hch⟩ := Opens.literal (by decide) hopen
    have hch : ch = '(' := eq_of_starts rfl hch
    subst hch
    obtain ⟨rest, hrest⟩ := List.head?_eq_some_iff.mp hhead
    have hahead : ahead d.rest = some '(' := by rw [hrest, ahead_cons rest rfl]
    obtain ⟨e, d', hexpr⟩ := hd.expr_of_ahead hs hahead (by decide) (by decide) (by decide)
    obtain ⟨a, m, hatom, -⟩ := atom_of_readExpr hexpr (hs.ahead hahead) (by decide) (by decide)
    have hgroup := group_of_atom readExpr_advances.follows hatom (hs.ahead hahead)
    have hwhole : (d.extend tail).rest.head? = some '(' := by rw [Cursor.extend, hrest]; rfl
    obtain ⟨form, k, hcall'⟩ := call_of_group hname hwhole hgroup
    rw [hcall] at hcall'
    cases hcall'

theorem node_eq_none_iff {p : Parser (Note → Expr)} : node p c = none ↔ p c.skipSpacing = none := by
  unfold node token
  rw [map_eq_none_iff]
  unfold spanned
  cases p c.skipSpacing <;> simp

theorem keyword_skips (k : String) : Skips (keyword k) :=
  (word_skips.verify _).map _

theorem form_of_node {p : Parser (Note → Expr)} {e : Expr} (h : node p c = some (e, d)) :
    ∃ form, p c.skipSpacing = some (form, d) := by
  unfold node at h
  rw [map_eq_bind] at h
  obtain ⟨a, mid, ha, hpure⟩ := bind_apply_eq_some_iff.mp h
  obtain ⟨-, rfl⟩ := pure_apply_eq_some_iff.mp hpure
  exact ⟨a.1, (spanned_apply_eq_some_iff.mp ha).1⟩

theorem ident_of_identifier {e : Expr} (h : node identifier c = some (e, d)) :
    ∃ x, ident c.skipSpacing = some (x, d) := by
  obtain ⟨form, hform⟩ := form_of_node h
  unfold identifier at hform
  rw [map_eq_bind] at hform
  obtain ⟨x, mid, hx, hpure⟩ := bind_apply_eq_some_iff.mp hform
  obtain ⟨-, rfl⟩ := pure_apply_eq_some_iff.mp hpure
  exact ⟨x, hx⟩

variable (hs : Solid tail) (hexpr : Cuts tail (.Ioi start) readExpr (Follow tail))

include hs hexpr

theorem fromArray_cuts : Cuts tail (.Ici start) (atomsFrom readExpr 6) (Follow tail) := by
  have hinner := readExpr_advances.follows
  refine .alt_of_starts hs (node_cuts hs (array_cuts hs hexpr)) ?_ (array_starts hinner).begins
    (fromName_starts hinner) (not_of_starts (by decide))
  refine .alt_of_starts hs (node_cuts hs ((ident_cuts hs).map _)) ?_ identifier_starts.begins
    (fromGroup_starts hinner) (not_starts_of (by decide))
  exact (choice_singleton (group readExpr)).symm ▸ group_cuts hs hexpr

theorem fromCall_cuts : Cuts tail (.Ici start) (atomsFrom readExpr 5) (Follow tail) := by
  have hinner := readExpr_advances.follows
  refine .alt (node_cuts hs (call_cuts hs hexpr)) (fromArray_cuts hs hexpr) ?_
  intro c a d _ hcall heq hd
  rcases alt_apply_eq_some heq with harray | hrest
  · exact (call_starts hinner).begins.eq_none ((array_starts hinner).ahead hs harray)
      (not_starts_of (by decide))
  rcases alt_apply_eq_some hrest with hname | hgroup
  · obtain ⟨x, hx⟩ := ident_of_identifier hname
    rw [node_eq_none_iff, hs.skipSpacing] at hcall
    rw [hs.skipSpacing] at hx
    rw [node_eq_none_iff]
    exact call_eq_none hs hx hcall hd
  · exact (call_starts hinner).begins.eq_none ((fromGroup_starts hinner).ahead hs hgroup)
      (not_starts_of (by decide))

theorem fromConditional_cuts : Cuts tail (.Ici start) (atomsFrom readExpr 3) (Follow tail) := by
  have hinner := readExpr_advances.follows
  refine .alt (node_cuts hs (conditional_cuts hs hexpr)) ?_ ?_
  · exact .alt_of_starts hs (node_cuts hs (lambda_cuts hs hexpr)) (fromCall_cuts hs hexpr)
      (lambda_starts hinner).begins (fromCall_starts hinner) (not_of_starts (by decide))
  · intro c a d _ _ heq _
    have hif := (fromLambda_leads hinner).keyword_eq_none (k := "if") hs heq (by decide)
    rw [node_eq_none_iff]
    exact bind_eq_none (by rwa [keyword_skips]) _

theorem atom_cuts : Cuts tail (.Ici start) (atom readExpr) (Follow tail) := by
  have hinner := readExpr_advances.follows
  have hboolean : Cuts tail (.Ici start) (atomsFrom readExpr 2) (Follow tail) := by
    refine .alt (node_cuts hs (boolean_cuts hs)) (fromConditional_cuts hs hexpr) ?_
    intro c a d _ _ heq _
    have hword : ∀ k, k ∈ ["true", "false"] → keyword k c.skipSpacing = none := by
      intro k hk
      rw [keyword_skips]
      refine (fromConditional_leads hinner).keyword_eq_none hs heq ?_
      revert k
      decide
    rw [node_eq_none_iff]
    exact alt_eq_none_iff.mpr ⟨map_eq_none_iff.mpr (hword "true" (by decide)),
      map_eq_none_iff.mpr (hword "false" (by decide))⟩
  refine .alt_of_starts hs (number_cuts hs) (.alt_of_starts hs (node_cuts hs (quoted_cuts.map _))
    hboolean string_begins (fromBoolean_starts hinner) (not_of_starts (by decide))) number_begins
    (fromQuoted_starts hinner) ?_
  intro ch hch
  rw [Bool.or_eq_true, beq_iff_eq] at hch
  rcases hch with hdigit | rfl
  · simp only [wordOr, wordStart, hdigit, Bool.not_true, Bool.and_false, Bool.false_or]
    rw [← Bool.not_eq_true, List.contains_iff_mem]
    intro hmem
    rw [eq_false_of_mem (S := Char.isDigit) hmem (by decide)] at hdigit
    cases hdigit
  · decide

end CallsAndNames

section Suffixes

variable {start : Cursor} {F : Cursor → Prop}

/-- The bracket that closes an index. -/
def closing : Parser (String × Span) :=
  token (spanned (literal "]"))

theorem closing_starts : Starts closing fun ch => "]".toList.head? == some ch :=
  ⟨.token _, ((Advances.literal (by decide)).spanned).token,
    (Opens.literal (by decide)).spanned.token⟩

theorem closing_extend_iff (hs : Solid tail) {b : String × Span} {m : Cursor} :
    closing (c.extend tail) = some (b, m.extend tail) ↔ closing c = some (b, m) := by
  unfold closing token
  rw [hs.skipSpacing, spanned_apply_eq_some_iff, spanned_apply_eq_some_iff, literal_extend_iff]
  rfl

theorem closing_cuts {region : UpperSet Cursor} (hs : Solid tail) : Cuts tail region closing F :=
  ⟨closing_starts.advances.follows, fun _ _ _ _ heq _ => (closing_extend_iff hs).mp heq⟩

theorem suffix_of_bracket {inner : Parser Expr} {text : String} {d₁ : Cursor}
    (hopen : literal "[" d = some (text, d₁)) :
    suffix inner d =
      (inner >>= fun position => closing >>= fun b => pure (.index position b.2)) d₁ := by
  have hpoint : literal "." d = none := by
    cases hpoint : literal "." d with
    | none => rfl
    | some reply =>
      obtain ⟨ch, hhead, hch⟩ := Opens.literal (by decide) hpoint
      obtain ⟨ch', hhead', hch'⟩ := Opens.literal (by decide) hopen
      rw [hhead] at hhead'
      cases hhead'
      have hpoint : ch = '.' := eq_of_starts rfl hch
      have hbracket : ch = '[' := eq_of_starts rfl hch'
      exact absurd (hpoint.symm.trans hbracket) (by decide)
  have hmaybe : maybe (literal ".") d = some (none, d) :=
    maybe_apply_eq_some_iff.mpr (.inr ⟨rfl, hpoint, rfl⟩)
  exact (bind_eq_of_some hmaybe).trans (bind_eq_of_some hopen)

theorem suffix_cuts (hs : Solid tail) (hexpr : Cuts tail (.Ioi start) readExpr (Follow tail)) :
    Cuts tail (.Ici start) (suffix readExpr) F := by
  refine .maybe_bind (G := Anywhere) (literal_cuts ".") (fun point => ?_)
    (fun _ _ _ _ _ _ _ => trivial) fun _ _ _ _ hnone _ _ => literal_eq_none_of_extend hnone
  cases point with
  | some _ => exact (Cuts.token hs (ident_cuts hs).spanned).last
  | none =>
    exact .guard (literal_cuts _) (.literal (by decide)) fun _ =>
      .before hs hexpr closing_starts (closing_cuts hs)
        (fun _ => follow_of_ahead (not_of_starts (by decide))) fun _ _ => .pure _

theorem items_of_array (hs : Solid tail) {e : Expr} {m : Cursor}
    (harray : node (array readExpr) (d.extend tail) = some (e, m.extend tail)) {text : String}
    {d₁ : Cursor} (hopen : literal "[" d = some (text, d₁)) :
    ∃ items k, Matches readExpr (d₁.extend tail) items (k.extend tail) ∧
      Ahead (fun ch => "]".toList.head? == some ch) k := by
  obtain ⟨ch, hhead, hch⟩ := Opens.literal (by decide) (literal_extend_iff.mpr hopen)
  have hbracket : ch = '[' := eq_of_starts rfl hch
  subst hbracket
  obtain ⟨form, hform⟩ := form_of_node harray
  rw [skipSpacing_eq_self hhead rfl] at hform
  obtain ⟨_, mid, hpunct, hform⟩ := bind_apply_eq_some_iff.mp hform
  obtain ⟨items, k, hlist, hform⟩ := bind_apply_eq_some_iff.mp hform
  obtain ⟨_, stop, hclose, hform⟩ := bind_apply_eq_some_iff.mp hform
  obtain ⟨-, rfl⟩ := pure_apply_eq_some_iff.mp hform
  obtain ⟨_, hliteral⟩ := punct_apply_eq_some_iff.mp hpunct
  rw [skipSpacing_eq_self hhead rfl, literal_extend_iff.mpr hopen] at hliteral
  cases hliteral
  obtain ⟨k, rfl, -⟩ := Cursor.exists_extend_of_le ((punct_advances (by decide)).follows hclose)
  exact ⟨items, k, (list_apply_eq_some_iff readExpr_advances).mp hlist,
    (punct_starts (by decide)).ahead hs hclose⟩

theorem suffix_eq_none_of_array (hs : Solid tail)
    (hexpr : Cuts tail (.Ioi start) readExpr (Follow tail)) (hd : start ≤ d) {e : Expr} {m : Cursor}
    (harray : node (array readExpr) (d.extend tail) = some (e, m.extend tail))
    (hnone : suffix readExpr (d.extend tail) = none) {text : String} {d₁ : Cursor}
    (hopen : literal "[" d = some (text, d₁)) : suffix readExpr d = none := by
  have hitems := exprs_row (T := fun ch => "]".toList.head? == some ch) readExpr_advances hexpr
    readExpr_starts.begins (fun _ _ _ heq => heq) (not_starts_of (by decide))
    (not_of_starts (by decide))
  have hd₁ : d₁ ∈ UpperSet.Ioi start :=
    lt_of_le_of_lt hd ((Advances.literal (by decide)) hopen)
  rw [suffix_of_bracket (literal_extend_iff.mpr hopen)] at hnone
  rw [suffix_of_bracket hopen]
  obtain ⟨items, k, hall, hk⟩ := items_of_array hs harray hopen
  generalize hx : d₁.extend tail = x at hall hnone
  generalize hy : k.extend tail = y at hall
  cases hall with
  | nil =>
    subst hx
    rw [Cursor.extend_inj] at hy
    subst hy
    exact bind_eq_none (readExpr_starts.begins.eq_none hk (not_starts_of (by decide))) _
  | cons hfirst hothers =>
    subst hx hy
    obtain ⟨j, rfl, -⟩ := Cursor.exists_extend_of_le (hothers.le readExpr_advances.follows)
    have hj : d₁ < j := Cursor.extend_lt_extend_iff.mp (readExpr_advances hfirst)
    have hfollow := (hitems.cut hothers (lt_trans hd₁ hj) hk).2
    rw [bind_eq_of_some hfirst] at hnone
    rw [bind_eq_of_some (hexpr.same hd₁ hfirst hfollow)]
    -- the first item would be the position, but no bracket closes behind it
    cases hclose : closing j with
    | none => exact bind_eq_none hclose _
    | some reply =>
      rw [bind_eq_of_some ((closing_extend_iff hs).mpr hclose)] at hnone
      cases hnone

theorem suffix_eq_none (hs : Solid tail) (hexpr : Cuts tail (.Ioi start) readExpr (Follow tail))
    (hd : start ≤ d) (hnone : suffix readExpr (d.extend tail) = none) (hfollow : Follow tail d) :
    suffix readExpr d = none := by
  cases hc : suffix readExpr d with
  | none => rfl
  | some reply =>
    exfalso
    obtain ⟨ch, hhead, hch⟩ := suffix_opens hc
    obtain ⟨rest, hrest⟩ := List.head?_eq_some_iff.mp hhead
    have hahead : ahead d.rest = some ch := by
      rw [hrest, ahead_cons rest (isSpacing_of_suffixStart hch)]
    simp only [suffixStart, Bool.or_eq_true, beq_iff_eq] at hch
    cases hfollow with
    | free h =>
      have hgoes := h ch hahead
      obtain rfl | rfl := hch <;> exact absurd hgoes (by decide)
    | op h =>
      obtain ⟨ch', hmem, hsymbol⟩ := head_symbol _
      rw [head_of_ahead hs hahead h] at hsymbol
      cases hsymbol
      obtain rfl | rfl := hch <;> exact absurd hmem (by decide)
    | suffix h =>
      rw [hnone] at h
      cases h
    | expr h =>
      have hwhole := hs.ahead hahead
      obtain rfl | rfl := hch
      · exact absurd (start_of_ahead readExpr_starts.begins h hwhole) (by decide)
      · obtain ⟨a, m, hatom, hm⟩ := atom_of_readExpr h hwhole (by decide) (by decide)
        obtain ⟨m, rfl, -⟩ := Cursor.exists_extend_of_le hm
        have harray := array_of_atom readExpr_advances.follows hatom hwhole
        have hopen : literal "[" d = some ("[", ⟨d.offset + 1, rest⟩) :=
          literal_apply_eq_some_iff.mpr ⟨rfl, hrest, rfl⟩
        rw [suffix_eq_none_of_array hs hexpr hd harray hnone hopen] at hc
        cases hc

theorem postfixed_cuts (hs : Solid tail)
    (hexpr : Cuts tail (.Ioi start) readExpr (Follow tail)) :
    Cuts tail (.Ici start) (postfixed readExpr) (Follow tail) := by
  have hrow : Cuts.Row tail (.Ici start) (suffix readExpr) (Follow tail) (Follow tail) :=
    { advances := suffix_advances readExpr_advances.follows
      cuts := suffix_cuts hs hexpr
      next := fun _ _ _ _ heq _ => .suffix heq
      last := fun _ _ hd => hd
      stop := fun _ hd hnone hfollow => suffix_eq_none hs hexpr hd hnone hfollow }
  unfold postfixed
  rw [andThen_eq_bind]
  exact hrow.chain (atom_cuts hs hexpr)

end Suffixes

end PCode.Grammar
