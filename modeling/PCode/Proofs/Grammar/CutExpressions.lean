import PCode.Proofs.Grammar.CutAtoms

namespace PCode.Grammar

open PCode.Parser

variable {tail : List Char} {c d : Cursor}

section Operators

variable {ι : Type} {symbol : ι → String} {table : List ι} {o : ι}

theorem operators_apply_eq_some_iff (hne : ∀ o, (symbol o).toList ≠ [])
    (hinj : ∀ o o', (symbol o).toList.head? = (symbol o').toList.head? → o = o') :
    choice (table.map fun o => map (op (symbol o)) fun _ => o) c = some (o, d) ↔
      o ∈ table ∧ op (symbol o) c = some ((), d) := by
  have hmap : ∀ o', map (op (symbol o')) (fun _ => o') c = some (o, d) ↔
      o = o' ∧ op (symbol o') c = some ((), d) := by
    intro o'
    rw [map_eq_bind, bind_apply_eq_some_iff]
    simp only [pure_apply_eq_some_iff]
    constructor
    · rintro ⟨⟨⟩, mid, hop, rfl, rfl⟩
      exact ⟨rfl, hop⟩
    · rintro ⟨rfl, hop⟩
      exact ⟨(), d, hop, rfl, rfl⟩
  induction table with
  | nil => simp [choice, reject]
  | cons o' table ih =>
    rw [List.map_cons, choice]
    constructor
    · intro h
      rcases alt_apply_eq_some h with hfirst | hothers
      · obtain ⟨rfl, hop⟩ := (hmap o').mp hfirst
        exact ⟨List.mem_cons_self, hop⟩
      · obtain ⟨hmem, hop⟩ := ih.mp hothers
        exact ⟨List.mem_cons_of_mem _ hmem, hop⟩
    · rintro ⟨hmem, hop⟩
      by_cases hfirst : o = o'
      · subst hfirst
        exact alt_apply_of_some ((hmap o).mpr ⟨rfl, hop⟩)
      · have hnone : op (symbol o') c = none := by
          refine (op_begins (hne o')).eq_none (op_begins (hne o) hop) fun ch hch => ?_
          rw [beq_eq_false_iff_ne]
          intro hch'
          exact hfirst (hinj o o' (hch'.trans (beq_iff_eq.mp hch).symm))
        rw [alt_apply_of_none (map_eq_none_iff.mpr hnone)]
        exact ih.mpr ⟨(List.mem_cons.mp hmem).resolve_left hfirst, hop⟩

theorem binaryOp_apply_eq_some_iff {table : List BinaryOp} {o : BinaryOp} :
    binaryOp table c = some (o, d) ↔ o ∈ table ∧ op o.symbol c = some ((), d) :=
  operators_apply_eq_some_iff symbol_ne_nil fun _ _ => head_symbol_inj

theorem unaryOp_eq :
    unaryOp = choice ([.neg, .plus, .not].map fun o => map (op (UnaryOp.symbol o)) fun _ => o) :=
  rfl

theorem unaryOp_apply_eq_some_iff {o : UnaryOp} :
    unaryOp c = some (o, d) ↔ op o.symbol c = some ((), d) := by
  have hne : ∀ o : UnaryOp, o.symbol.toList ≠ [] := by
    intro o
    cases o <;> decide
  have hinj : ∀ o o' : UnaryOp, o.symbol.toList.head? = o'.symbol.toList.head? → o = o' := by
    intro o o'
    cases o <;> cases o' <;> decide
  rw [unaryOp_eq, operators_apply_eq_some_iff hne hinj, and_iff_right]
  cases o <;> decide

theorem binaryOp_cuts (hs : Solid tail) {region : UpperSet Cursor} {F : Cursor → Prop}
    (table : List BinaryOp) : Cuts tail region (binaryOp table) F := by
  refine ⟨(binaryOp_advances table).follows, ?_⟩
  intro c o d hc heq hd
  rw [binaryOp_apply_eq_some_iff] at heq ⊢
  exact ⟨heq.1, (op_cuts hs _).same hc heq.2 hd⟩

theorem unaryOp_cuts (hs : Solid tail) {region : UpperSet Cursor} {F : Cursor → Prop} :
    Cuts tail region unaryOp F := by
  refine ⟨unaryOp_starts.advances.follows, ?_⟩
  intro c o d hc heq hd
  rw [unaryOp_apply_eq_some_iff] at heq ⊢
  exact (op_cuts hs _).same hc heq hd

end Operators

section Signs

variable {ch : Char} {text : String} {m : Cursor} {r : Expr × Cursor}

/-- The digits of a numeral behind its sign. -/
def magnitude (negative : Bool) : Parser Numeral := do
  let whole ← digits
  let fraction ← maybe (right (literal ".") digits)
  return ⟨negative, whole.toList, fraction.map String.toList⟩

theorem numeral_eq : numeral = maybe (literal "-") >>= fun sign => magnitude sign.isSome :=
  rfl

theorem magnitude_apply_eq_some_iff {negative : Bool} {n : Numeral} :
    magnitude negative c = some (n, d) ↔
      n.negative = negative ∧ magnitude true c = some ({ n with negative := true }, d) := by
  unfold magnitude
  simp only [bind_apply_eq_some_iff, pure_apply_eq_some_iff]
  constructor
  · rintro ⟨whole, m, hwhole, fraction, m', hfraction, rfl, rfl⟩
    exact ⟨rfl, whole, m, hwhole, fraction, m', hfraction, rfl, rfl⟩
  · rintro ⟨rfl, whole, m, hwhole, fraction, m', hfraction, hn, rfl⟩
    refine ⟨whole, m, hwhole, fraction, m', hfraction, ?_, rfl⟩
    cases n
    cases hn
    rfl

theorem magnitude_opens {negative : Bool} : Opens (magnitude negative) Char.isDigit :=
  (Opens.satisfy _).chars.bind _

theorem numeral_of_digit (hch : ch.isDigit = true) (hc : c.rest.head? = some ch) :
    numeral c = magnitude false c := by
  have hsign : literal "-" c = none := by
    cases hsign : literal "-" c with
    | none => rfl
    | some reply =>
      obtain ⟨ch', hhead, hch'⟩ := Opens.literal (by decide) hsign
      rw [hc] at hhead
      cases hhead
      have hminus : ch = '-' := eq_of_starts rfl hch'
      subst hminus
      exact absurd hch (by decide)
  rw [numeral_eq]
  exact bind_eq_of_some (maybe_apply_eq_some_iff.mpr (.inr ⟨rfl, hsign, rfl⟩))

theorem numeral_of_minus (h : literal "-" c = some (text, m)) : numeral c = magnitude true m := by
  rw [numeral_eq]
  exact bind_eq_of_some (maybe_apply_eq_some_iff.mpr (.inl ⟨text, rfl, h⟩))

/-- The numeral is a literal: a real, or an integer that fits a cell. -/
def Numeral.Fits (n : Numeral) : Prop :=
  n.fraction.isSome ∨ n.integer?.isSome

theorem numeralExpr?_isSome_iff {n : Numeral} {span : Span} :
    (numeralExpr? n span).isSome ↔ n.Fits := by
  unfold numeralExpr? Numeral.Fits
  cases n.fraction <;> simp

theorem Numeral.Fits.neg {n : Numeral} (h : n.Fits) (hn : n.negative = false) :
    ({ n with negative := true } : Numeral).Fits := by
  refine h.imp_right fun hinteger => ?_
  obtain ⟨v, hv⟩ := Option.isSome_iff_exists.mp hinteger
  unfold Numeral.integer? Text.word? at hv ⊢
  simp only [hn, Bool.false_eq_true, if_false] at hv
  simp only [if_true]
  split at hv
  · rename_i hrange
    simp only [Bool.and_eq_true, decide_eq_true_eq] at hrange
    rw [if_pos]
    · rfl
    · simp only [Bool.and_eq_true, decide_eq_true_eq]
      omega
  · cases hv

theorem exists_number {n : Numeral} (h : numeral c.skipSpacing = some (n, d)) (hn : n.Fits) :
    ∃ e, number c = some (e, d) := by
  obtain ⟨e, he⟩ := Option.isSome_iff_exists.mp
    (numeralExpr?_isSome_iff.mpr hn : (numeralExpr? n (c.skipSpacing.spanTo d)).isSome)
  exact ⟨e, number_apply_eq_some_iff.mpr ⟨n, h, he⟩⟩

theorem fits_of_number {e : Expr} (h : number c = some (e, d)) :
    ∃ n, numeral c.skipSpacing = some (n, d) ∧ n.Fits := by
  obtain ⟨n, hn, he⟩ := number_apply_eq_some_iff.mp h
  exact ⟨n, hn, numeralExpr?_isSome_iff.mp (Option.isSome_iff_exists.mpr ⟨e, he⟩)⟩

theorem number_of_readOperand (hc : c.rest.head? = some ch) (hch : ch.isDigit = true)
    (h : readOperand c = some r) : ∃ e m, number c = some (e, m) := by
  have hspacing : Text.isSpacing ch = false :=
    isSpacing_of_isWordChar (isWordChar_of_isDigit hch)
  have hahead : ahead c.rest = some ch := by
    obtain ⟨rest, hrest⟩ := List.head?_eq_some_iff.mp hc
    rw [hrest, ahead_cons rest hspacing]
  have hsign : signStart ch = false := by
    cases hsign : signStart ch with
    | false => rfl
    | true =>
      simp only [signStart, List.contains_iff_mem, List.mem_cons, List.not_mem_nil,
        or_false] at hsign
      obtain rfl | rfl | rfl := hsign <;> exact absurd hch (by decide)
  obtain ⟨e, d⟩ := r
  obtain ⟨a, m, ha, -⟩ := atom_of_readOperand h (unaryOp_starts.begins.none_of_ahead hahead hsign)
  exact ⟨a, m, number_of_atom readExpr_advances.follows ha hahead (by rw [hch, Bool.true_or])⟩

theorem exists_postfixed (h : atom readExpr c = some r) :
    ∃ e m, postfixed readExpr c = some (e, m) := by
  obtain ⟨first, mid⟩ := r
  have hsuffix : Advances (suffix readExpr) := suffix_advances readExpr_advances.follows
  obtain ⟨suffixes, m, hall⟩ := exists_matches hsuffix mid
  refine ⟨suffixes.foldl applySuffix first, m, ?_⟩
  unfold postfixed
  rw [andThen_eq_bind, bind_eq_of_some h]
  exact (many_apply_eq_some_iff hsuffix).mpr ⟨suffixes, hall, rfl⟩

theorem exists_postfixed_of_number (h : number c = some r) :
    ∃ e m, postfixed readExpr c = some (e, m) :=
  exists_postfixed (alt_apply_of_some h)

theorem operand_of_prefixed {operand : Parser Expr} {e : Expr}
    (h : prefixed operand c = some (e, d)) :
    ∃ (o : UnaryOp) (m : Cursor) (a : Expr),
      op o.symbol c = some ((), m) ∧ operand m = some (a, d) := by
  rw [prefixed_eq, pair_eq_bind, map_eq_bind] at h
  obtain ⟨_, mid, htoken, h⟩ := bind_apply_eq_some_iff.mp h
  obtain ⟨-, rfl⟩ := pure_apply_eq_some_iff.mp h
  obtain ⟨o, m, hop, hrest⟩ := bind_apply_eq_some_iff.mp (spanned_apply_eq_some_iff.mp htoken).1
  obtain ⟨a, mid', ha, hpair⟩ := bind_apply_eq_some_iff.mp hrest
  obtain ⟨-, rfl⟩ := pure_apply_eq_some_iff.mp hpair
  rw [unaryOp_apply_eq_some_iff, op_skips] at hop
  exact ⟨o, m, a, hop, ha⟩

theorem exists_number_of_minus {e : Expr} (hminus : literal "-" c.skipSpacing = some (text, m))
    (hm : m.rest.head? = some ch) (hch : ch.isDigit = true) (h : number m = some (e, d)) :
    ∃ e', number c = some (e', d) := by
  obtain ⟨n, hn, hfits⟩ := fits_of_number h
  rw [skipSpacing_eq_self hm (isSpacing_of_isWordChar (isWordChar_of_isDigit hch)),
    numeral_of_digit hch hm] at hn
  obtain ⟨hnegative, hmagnitude⟩ := magnitude_apply_eq_some_iff.mp hn
  refine exists_number ?_ (hfits.neg hnegative)
  rw [numeral_of_minus hminus, hmagnitude]

theorem numeral_of_number_minus {e : Expr} (hminus : literal "-" c.skipSpacing = some (text, m))
    (h : number c = some (e, d)) :
    ∃ ch n, m.rest.head? = some ch ∧ ch.isDigit = true ∧ numeral m = some (n, d) := by
  obtain ⟨n, hn, -⟩ := fits_of_number h
  rw [numeral_of_minus hminus] at hn
  obtain ⟨ch, hhead, hch⟩ := magnitude_opens hn
  refine ⟨ch, { n with negative := false }, hhead, hch, ?_⟩
  rw [numeral_of_digit hch hhead, magnitude_apply_eq_some_iff]
  exact ⟨rfl, (magnitude_apply_eq_some_iff.mp hn).2⟩

theorem minus_of_number (h : number c = some r) (hc : ahead c.rest = some ch)
    (hch : signStart ch = true) : ch = '-' := by
  have hnumber := start_of_ahead number_begins h hc
  simp only [signStart, List.contains_iff_mem, List.mem_cons, List.not_mem_nil, or_false] at hch
  obtain rfl | rfl | rfl := hch
  · rfl
  · exact absurd hnumber (by decide)
  · exact absurd hnumber (by decide)

theorem neg_of_ahead {o : UnaryOp} (h : op o.symbol c = some ((), m))
    (hc : ahead c.rest = some '-') : o = .neg := by
  have hne : o.symbol.toList ≠ [] := by cases o <;> decide
  have hhead := start_of_ahead (op_begins hne) h hc
  cases o with
  | neg => rfl
  | plus => exact absurd hhead (by decide)
  | not => exact absurd hhead (by decide)

/-- Where a minus sign and a digit stand, an operand is a number: as a prefix operator, the sign
would stand in front of a number as well. -/
theorem number_of_minus (hc : ahead c.rest = some '-')
    (hminus : literal "-" c.skipSpacing = some (text, m)) (hm : m.rest.head? = some ch)
    (hch : ch.isDigit = true) (h : readOperand c = some r) : ∃ e k, number c = some (e, k) := by
  obtain ⟨e, d⟩ := r
  rw [readOperand_eq] at h
  rcases alt_apply_eq_some h with hpostfixed | hprefixed
  · obtain ⟨a, k, ha, -⟩ := atom_of_postfixed hpostfixed
    exact ⟨a, k, number_of_atom readExpr_advances.follows ha hc rfl⟩
  · obtain ⟨o, m', a, hop, ha⟩ := operand_of_prefixed hprefixed
    obtain rfl := neg_of_ahead hop hc
    obtain ⟨_, hpunct⟩ := punct_apply_eq_some_iff.mp (op_apply_eq_some_iff.mp hop).1
    change literal "-" _ = _ at hpunct
    rw [hminus] at hpunct
    cases hpunct
    obtain ⟨_, k, hbare⟩ := number_of_readOperand hm hch ha
    obtain ⟨e', hsigned⟩ := exists_number_of_minus hminus hm hch hbare
    exact ⟨e', k, hsigned⟩

theorem exists_literal_of_ahead {symbol : String} (hsymbol : symbol.toList = [ch])
    (hc : ahead c.rest = some ch) : ∃ m, literal symbol c.skipSpacing = some (symbol, m) := by
  obtain ⟨rest, hrest⟩ := List.head?_eq_some_iff.mp hc
  refine ⟨⟨c.skipSpacing.offset + byteLength [ch], rest⟩, literal_apply_eq_some_iff.mpr ⟨rfl, ?_⟩⟩
  rw [hsymbol]
  exact ⟨hrest, rfl⟩

theorem head?_extend (h : m.rest.head? = some ch) : (m.extend tail).rest.head? = some ch := by
  show (m.rest ++ tail).head? = some ch
  rw [List.head?_append, h]
  rfl

section Prefixes

variable {start : Cursor} (hs : Solid tail) (hexpr : Cuts tail (.Ioi start) readExpr (Follow tail))
  (hoperand : Cuts tail (.Ioi start) readOperand (Follow tail))

include hs hoperand in
theorem prefixed_cuts : Cuts tail (.Ici start) (prefixed readOperand) (Follow tail) := by
  rw [prefixed_eq, pair_eq_bind]
  exact (Cuts.token hs (Cuts.spanned
    (.guard (unaryOp_cuts hs) unaryOp_starts.advances fun _ => hoperand.last))).map _

theorem postfixed_eq_none (hs : Solid tail) {e : Expr}
    (hnone : postfixed readExpr (c.extend tail) = none)
    (h : prefixed readOperand (c.extend tail) = some (e, d.extend tail)) :
    postfixed readExpr c = none := by
  cases hc : postfixed readExpr c with
  | none => rfl
  | some reply =>
    exfalso
    obtain ⟨ch, hahead, hch⟩ := (prefixed_starts readOperand_advances.follows).ahead hs h
    obtain ⟨e', m, hatom, -⟩ := atom_of_postfixed hc
    have hnumber := number_of_atom readExpr_advances.follows hatom hahead
      (by rw [hch, Bool.or_true])
    have hminus := minus_of_number hnumber hahead hch
    subst hminus
    -- the digits behind the sign are the operand of the prefix operator
    obtain ⟨m, hliteral⟩ : ∃ m, literal "-" c.skipSpacing = some ("-", m) :=
      exists_literal_of_ahead rfl hahead
    obtain ⟨digit, n, hhead, hdigit, -⟩ := numeral_of_number_minus hliteral hnumber
    have hliteral' : literal "-" (c.extend tail).skipSpacing = some ("-", m.extend tail) := by
      rw [hs.skipSpacing, literal_extend_iff]
      exact hliteral
    have hoperand : readOperand (c.extend tail) = some (e, d.extend tail) := by
      rw [readOperand_eq, alt_apply_of_none hnone, h]
    obtain ⟨_, _, hsigned⟩ := number_of_minus (hs.ahead hahead) hliteral'
      (head?_extend hhead) hdigit hoperand
    obtain ⟨_, _, hwhole⟩ := exists_postfixed_of_number hsigned
    rw [hnone] at hwhole
    cases hwhole

include hs hexpr hoperand in
theorem operand_cuts : Cuts tail (.Ici start) readOperand (Follow tail) := by
  rw [readOperand_eq]
  exact .alt (postfixed_cuts hs hexpr) (prefixed_cuts hs hoperand)
    fun _ _ _ _ hnone heq _ => postfixed_eq_none hs hnone heq

end Prefixes

end Signs

section Binary

variable {r : Expr × Cursor}

theorem exists_binary (ho : Follows operand) (h : operand c = some r)
    (levels : List (List BinaryOp)) : ∃ r', binary operand levels c = some r' := by
  induction levels with
  | nil => exact ⟨r, h⟩
  | cons level tighter ih =>
    obtain ⟨⟨first, mid⟩, hfirst⟩ := ih
    have hpair : Advances (pair (binaryOp level) (binary operand tighter)) :=
      (binaryOp_advances level).pair (binary_follows ho tighter)
    obtain ⟨others, m, hall⟩ := exists_matches hpair mid
    refine ⟨(others.foldl applyBinary first, m), ?_⟩
    unfold binary chainLeft
    rw [andThen_eq_bind, bind_eq_of_some hfirst]
    exact (many_apply_eq_some_iff hpair).mpr ⟨others, hall, rfl⟩

theorem exists_readOperand (h : number c = some r) : ∃ r', readOperand c = some r' := by
  obtain ⟨e, m, hpostfixed⟩ := exists_postfixed_of_number h
  rw [readOperand_eq]
  exact ⟨_, alt_apply_of_some hpostfixed⟩

theorem op_eq_none_of_longer {symbol longer : String} {ch : Char} {text : List Char} {value : Unit}
    (hlonger : longer.toList = symbol.toList ++ ch :: text) (hch : extendsOperator ch = true)
    (h : op symbol c = some (value, d)) : op longer c = none := by
  cases hc : op longer c with
  | none => rfl
  | some reply =>
    obtain ⟨_, m⟩ := reply
    obtain ⟨hpunct, hends⟩ := op_apply_eq_some_iff.mp h
    obtain ⟨_, hshort⟩ := punct_apply_eq_some_iff.mp hpunct
    obtain ⟨_, hlong⟩ := punct_apply_eq_some_iff.mp (op_apply_eq_some_iff.mp hc).1
    have hrest := (literal_text hshort).1.symm.trans (literal_text hlong).1
    rw [hlonger, List.append_assoc, List.append_cancel_left_eq] at hrest
    have hextends := hends ch (by rw [hrest]; rfl)
    rw [hch] at hextends
    cases hextends

theorem prefix_of_operator {o : BinaryOp} {u : UnaryOp} {m m' : Cursor}
    (hop : op o.symbol c = some ((), m)) (hsigned : op u.symbol c = some ((), m')) : m = m' := by
  obtain ⟨ch, hahead, hch⟩ := op_begins (symbol_ne_nil o) hop
  have hne : u.symbol.toList ≠ [] := by cases u <;> decide
  have hhead := start_of_ahead (op_begins hne) hsigned hahead
  rw [beq_iff_eq] at hch hhead
  have hsame : o.symbol.toList.head? = u.symbol.toList.head? := hch.trans hhead.symm
  cases u with
  | neg =>
    have ho : o = .sub := head_symbol_inj hsame
    subst ho
    exact (Prod.mk.inj (Option.some.inj (hop.symm.trans hsigned))).2
  | plus =>
    have ho : o = .add := head_symbol_inj hsame
    subst ho
    exact (Prod.mk.inj (Option.some.inj (hop.symm.trans hsigned))).2
  | not =>
    have ho : o = .ne := head_symbol_inj hsame
    subst ho
    have hnone : op BinaryOp.ne.symbol c = none :=
      op_eq_none_of_longer (show "!=".toList = "!".toList ++ ['='] from rfl) rfl hsigned
    rw [hnone] at hop
    cases hop

theorem exists_readOperand_of_number {text : String} {m k : Cursor} {e : Expr}
    (hminus : literal "-" (d.extend tail).skipSpacing = some (text, m.extend tail))
    (hm : m.rest ≠ []) (hnumber : number (d.extend tail) = some (e, k.extend tail))
    (hoperand : readOperand m = some r) : ∃ r', readOperand (m.extend tail) = some r' := by
  obtain ⟨ch, n, hhead, hch, hnumeral⟩ := numeral_of_number_minus hminus hnumber
  have hspacing : Text.isSpacing ch = false := isSpacing_of_isWordChar (isWordChar_of_isDigit hch)
  have hhead' : m.rest.head? = some ch := by
    obtain ⟨ch', rest, hrest⟩ := List.exists_cons_of_ne_nil hm
    change (m.rest ++ tail).head? = some ch at hhead
    rw [hrest] at hhead ⊢
    exact hhead
  by_cases hfits : n.Fits
  · have hskip := hnumeral
    rw [← skipSpacing_eq_self hhead hspacing] at hskip
    obtain ⟨e', hbare⟩ := exists_number hskip hfits
    exact exists_readOperand hbare
  · -- before the cut the digits are no number either
    exfalso
    have hcut : Cuts tail ⊥ numeral Anywhere := numeral_cuts
    have hnumeral' := hcut.same trivial hnumeral trivial
    obtain ⟨e', m', hbare⟩ := number_of_readOperand hhead' hch hoperand
    obtain ⟨n', hn', hfits'⟩ := fits_of_number hbare
    rw [skipSpacing_eq_self hhead' hspacing, hnumeral'] at hn'
    cases hn'
    exact hfits hfits'

theorem not_mem_operatorStarts {ch : Char} (h : goesOn ch = false) : ch ∉ operatorStarts := by
  rw [goesOn, List.contains_eq_mem, decide_eq_false_iff_not] at h
  exact fun hmem => h (List.mem_append_right ['.', '(', '[', ':'] hmem)

theorem signStart_of_exprStart {ch : Char} (hmem : ch ∈ operatorStarts) (h : exprStart ch = true) :
    signStart ch = true := by
  have hother : (exprStart ch && !signStart ch) = false :=
    eq_false_of_mem (S := fun ch => exprStart ch && !signStart ch) hmem (by decide)
  simpa [h] using hother

theorem operand_of_operator (hs : Solid tail) {o : BinaryOp} {m : Cursor}
    (hop : op o.symbol d = some ((), m)) (hoperand : readOperand m = some r)
    (hfollow : Follow tail d) :
    op o.symbol (d.extend tail) = some ((), m.extend tail) ∧
      ∃ r', readOperand (m.extend tail) = some r' := by
  have hm : m.rest ≠ [] := by
    obtain ⟨a, k⟩ := r
    exact Cursor.rest_ne_nil_of_lt (readOperand_advances hoperand)
  have hwhole : op o.symbol (d.extend tail) = some ((), m.extend tail) :=
    (op_keeps hs _).same hop hm
  refine ⟨hwhole, ?_⟩
  obtain ⟨ch, hahead, hch⟩ := op_begins (symbol_ne_nil o) hop
  rw [beq_iff_eq] at hch
  have hmem : ch ∈ operatorStarts := by
    obtain ⟨ch', hmem, hhead⟩ := head_symbol o
    rw [hch] at hhead
    cases hhead
    exact hmem
  cases hfollow with
  | free h =>
    exact absurd hmem (not_mem_operatorStarts (h ch hahead))
  | suffix h =>
    have hsuffix : suffixStart ch = true := suffixStart_of_ahead hahead h
    rw [eq_false_of_mem (S := suffixStart) hmem (by decide)] at hsuffix
    cases hsuffix
  | op hop' h =>
    have ho := head_symbol_inj ((head_of_ahead hs hahead hop').trans hch.symm)
    subst ho
    rw [hwhole] at hop'
    cases hop'
    exact ⟨_, h⟩
  | expr h =>
    have hname : ident (d.extend tail) = none := ident_starts.begins.none_of_ahead
      (hs.ahead hahead) (eq_false_of_mem hmem (by decide))
    have hstart : exprStart ch = true :=
      start_of_ahead readExpr_starts.begins h (hs.ahead hahead)
    obtain ⟨a, k, ha, hk⟩ := readOperand_of_readExpr h hname
    rw [readOperand_eq] at ha
    rcases alt_apply_eq_some ha with hpostfixed | hprefixed
    · -- a number with a sign
      obtain ⟨b, j, hatom, hj⟩ := atom_of_postfixed hpostfixed
      obtain ⟨j, rfl, -⟩ := Cursor.exists_extend_of_le (le_trans hj hk)
      have hsign := signStart_of_exprStart hmem hstart
      have hnumber := number_of_atom readExpr_advances.follows hatom (hs.ahead hahead)
        (by rw [hsign, Bool.or_true])
      have hminus := minus_of_number hnumber (hs.ahead hahead) hsign
      subst hminus
      have ho : o = .sub := head_symbol_inj hch
      subst ho
      obtain ⟨_, hliteral⟩ := punct_apply_eq_some_iff.mp (op_apply_eq_some_iff.mp hwhole).1
      exact exists_readOperand_of_number hliteral hm hnumber hoperand
    · obtain ⟨u, m', b, hsigned, hb⟩ := operand_of_prefixed hprefixed
      rw [prefix_of_operator hwhole hsigned]
      exact ⟨_, hb⟩

variable {operand : Parser Expr} {level : List BinaryOp} {tighter : List (List BinaryOp)}

theorem exists_operator_iff (ho : Follows operand) :
    (∃ r, pair (binaryOp level) (binary operand tighter) c = some r) ↔
      ∃ o ∈ level, ∃ m, op o.symbol c = some ((), m) ∧ ∃ r, operand m = some r := by
  rw [pair_eq_bind]
  constructor
  · rintro ⟨⟨_, d⟩, h⟩
    obtain ⟨o, m, hop, hrest⟩ := bind_apply_eq_some_iff.mp h
    obtain ⟨e, mid, hbinary, -⟩ := bind_apply_eq_some_iff.mp hrest
    obtain ⟨hmem, hop⟩ := binaryOp_apply_eq_some_iff.mp hop
    obtain ⟨a, k, ha, -⟩ := operand_of_binary ho hbinary
    exact ⟨o, hmem, m, hop, _, ha⟩
  · rintro ⟨o, hmem, m, hop, r, hr⟩
    obtain ⟨⟨e, d⟩, hbinary⟩ := exists_binary ho hr tighter
    refine ⟨((o, e), d), bind_apply_eq_some_iff.mpr ⟨o, m, ?_, ?_⟩⟩
    · exact binaryOp_apply_eq_some_iff.mpr ⟨hmem, hop⟩
    · exact bind_apply_eq_some_iff.mpr ⟨e, d, hbinary, rfl⟩

theorem binary_cuts (hs : Solid tail) {region : UpperSet Cursor}
    (hoperand : Cuts tail region readOperand (Follow tail)) (levels : List (List BinaryOp)) :
    Cuts tail region (binary readOperand levels) (Follow tail) := by
  induction levels with
  | nil => exact hoperand
  | cons level tighter ih =>
    have hrow : Cuts.Row tail region (pair (binaryOp level) (binary readOperand tighter))
        (Follow tail) (Follow tail) :=
      { advances :=
          (binaryOp_advances level).pair (binary_follows readOperand_advances.follows tighter)
        cuts := by
          rw [pair_eq_bind]
          exact .after (binaryOp_cuts hs level) fun _ => ih.last
        next := by
          intro c _ d _ heq _
          obtain ⟨o, -, m, hop, r, hr⟩ :=
            (exists_operator_iff readOperand_advances.follows).mp ⟨_, heq⟩
          exact .op hop hr
        last := fun _ _ hd => hd
        stop := by
          intro d _ hnone hfollow
          cases hd : pair (binaryOp level) (binary readOperand tighter) d with
          | none => rfl
          | some reply =>
            obtain ⟨o, hmem, m, hop, r, hr⟩ :=
              (exists_operator_iff readOperand_advances.follows).mp ⟨_, hd⟩
            obtain ⟨hop', hr'⟩ := operand_of_operator hs hop hr hfollow
            have hexists : ∃ r, pair (binaryOp level) (binary readOperand tighter)
                (d.extend tail) = some r :=
              (exists_operator_iff readOperand_advances.follows).mpr ⟨o, hmem, _, hop', hr'⟩
            obtain ⟨reply', hwhole⟩ := hexists
            rw [hnone] at hwhole
            cases hwhole }
    unfold binary chainLeft
    rw [andThen_eq_bind]
    exact hrow.chain ih

end Binary

section Names

variable {x : String} {m : Cursor}

theorem keyword_eq_none_of_ident (h : ident c = some (x, m)) {k : String} (hk : k ∈ keywords) :
    keyword k c = none := by
  obtain ⟨hword, hx⟩ := verify_apply_eq_some_iff.mp h
  cases hc : keyword k c with
  | none => rfl
  | some reply =>
    rw [keyword_apply_eq_some_iff, hword] at hc
    cases hc
    simp [hk] at hx

theorem number_eq_none_of_word (h : Ahead wordStart c) : number c = none := by
  refine number_begins.eq_none h fun ch hch => ?_
  rw [Bool.or_eq_true, beq_iff_eq] at hch
  rcases hch with hdigit | rfl
  · rw [wordStart, hdigit, Bool.not_true, Bool.and_false]
  · decide

theorem atom_of_ident (h : ident c = some (x, m)) (hcall : literal "(" m = none) :
    ∃ e, atom readExpr c = some (e, m) := by
  have hinner := readExpr_advances.follows
  have hstart : Ahead wordStart c := ident_starts.begins h
  have hskip : ident c.skipSpacing = some (x, m) := by rwa [ident_skips]
  have hkeyword : ∀ k ∈ keywords, keyword k c.skipSpacing = none := fun k hk =>
    keyword_eq_none_of_ident hskip hk
  have hnumber := number_eq_none_of_word hstart
  have hcall' : call readExpr c.skipSpacing = none :=
    (bind_eq_of_some hskip).trans (bind_eq_none hcall _)
  have hname : node identifier c = some (.name x ⟨c.skipSpacing.spanTo m, .unknown⟩, m) := by
    have hform : identifier c.skipSpacing = some (Expr.name x, m) := by
      unfold identifier
      rw [map_eq_bind]
      exact bind_eq_of_some hskip
    have hspanned : token (spanned identifier) c =
        some ((Expr.name x, c.skipSpacing.spanTo m), m) :=
      spanned_apply_eq_some_iff.mpr ⟨hform, rfl⟩
    unfold node
    rw [map_eq_bind]
    exact bind_eq_of_some hspanned
  refine ⟨.name x ⟨c.skipSpacing.spanTo m, .unknown⟩, ?_⟩
  have hboolean : boolean c.skipSpacing = none :=
    alt_eq_none_iff.mpr ⟨map_eq_none_iff.mpr (hkeyword "true" (by decide)),
      map_eq_none_iff.mpr (hkeyword "false" (by decide))⟩
  have hconditional : conditional readExpr c.skipSpacing = none :=
    bind_eq_none (hkeyword "if" (by decide)) _
  unfold atom
  simp only [choice]
  rw [alt_apply_of_none hnumber,
    alt_apply_of_none (string_begins.eq_none hstart (not_of_starts (by decide))),
    alt_apply_of_none (node_eq_none_iff.mpr hboolean),
    alt_apply_of_none (node_eq_none_iff.mpr hconditional),
    alt_apply_of_none ((lambda_starts hinner).begins.eq_none hstart (not_of_starts (by decide))),
    alt_apply_of_none (node_eq_none_iff.mpr hcall'),
    alt_apply_of_none ((array_starts hinner).begins.eq_none hstart (not_of_starts (by decide)))]
  exact alt_apply_of_some hname

/-- Nothing goes on with a name that ends here. -/
structure Bare (m : Cursor) : Prop where
  call : literal "(" m = none
  suffix : suffix readExpr m = none
  operator : ∀ o : BinaryOp, op o.symbol m = none

theorem readOperand_of_atom {e : Expr} (h : atom readExpr c = some (e, m))
    (hm : Grammar.suffix readExpr m = none) : readOperand c = some (e, m) := by
  rw [readOperand_eq]
  refine alt_apply_of_some ?_
  unfold postfixed
  rw [andThen_eq_bind, bind_eq_of_some h]
  exact (many_apply_eq_some_iff (suffix_advances readExpr_advances.follows)).mpr
    ⟨[], .nil hm, rfl⟩

theorem binary_of_readOperand {e : Expr} (h : readOperand c = some (e, m))
    (hm : ∀ o : BinaryOp, op o.symbol m = none) (levels : List (List BinaryOp)) :
    binary readOperand levels c = some (e, m) := by
  have ho := readOperand_advances.follows
  induction levels with
  | nil => exact h
  | cons level tighter ih =>
    have hnone : pair (binaryOp level) (binary readOperand tighter) m = none := by
      cases hm' : pair (binaryOp level) (binary readOperand tighter) m with
      | none => rfl
      | some reply =>
        obtain ⟨o, -, m', hop, -⟩ := (exists_operator_iff ho).mp ⟨_, hm'⟩
        rw [hm o] at hop
        cases hop
    unfold binary chainLeft
    rw [andThen_eq_bind, bind_eq_of_some ih]
    exact (many_apply_eq_some_iff ((binaryOp_advances level).pair (binary_follows ho tighter))).mpr
      ⟨[], .nil hnone, rfl⟩

theorem binary_of_bare (h : ident c = some (x, m)) (hm : Bare m) (levels : List (List BinaryOp)) :
    ∃ e, binary readOperand levels c = some (e, m) := by
  obtain ⟨e, hatom⟩ := atom_of_ident h hm.call
  exact ⟨e, binary_of_readOperand (readOperand_of_atom hatom hm.suffix) hm.operator levels⟩

theorem readExpr_of_bare (h : ident c = some (x, m)) (hm : Bare m) (hassign : op ":=" m = none) :
    ∃ e, readExpr c = some (e, m) := by
  have hassignment : assignment readExpr c = none := by
    have hname : token (spanned ident) c = some ((x, c.skipSpacing.spanTo m), m) :=
      spanned_apply_eq_some_iff.mpr ⟨by rwa [ident_skips], rfl⟩
    exact (bind_eq_of_some hname).trans (bind_eq_none hassign _)
  rw [readExpr_eq, alt_apply_of_none hassignment]
  exact binary_of_bare h hm levels

theorem operator_eq_none {ch : Char} (hm : ahead m.rest = some ch) (hch : ch ∉ operatorStarts)
    (o : BinaryOp) : op o.symbol m = none := by
  obtain ⟨ch', hmem, hhead⟩ := head_symbol o
  refine (op_begins (symbol_ne_nil o)).none_of_ahead hm ?_
  rw [hhead, beq_eq_false_iff_ne]
  rintro ⟨⟩
  exact hch hmem

theorem bare_of_ahead {ch : Char} (hm : ahead m.rest = some ch) (hsuffix : suffixStart ch = false)
    (hparen : ch ≠ '(') (hop : ∀ o : BinaryOp, op o.symbol m = none) : Bare m where
  call := by
    have hopens : Opens (literal "(") _ := .literal (by decide)
    refine hopens.none_of_ahead ?_ hm ?_
    · intro ch' hch'
      rw [show ch' = '(' from eq_of_starts rfl hch']
      rfl
    · exact beq_eq_false_iff_ne.mpr fun heq => hparen (Option.some.inj heq).symm
  suffix := suffix_opens.none_of_ahead (fun _ => isSpacing_of_suffixStart) hm hsuffix
  operator := hop

end Names

section Assignments

variable {start : Cursor} (hs : Solid tail) (hexpr : Cuts tail (.Ioi start) readExpr (Follow tail))

include hs hexpr in
theorem assignment_cuts : Cuts tail (.Ici start) (assignment readExpr) (Follow tail) :=
  .guard (Cuts.token hs (ident_cuts hs).spanned) ident_advances.spanned.token fun _ =>
    .after (op_cuts hs _) fun _ => hexpr.last

/-- Where an assignment could only start before the cut, the name it starts with is all that is read
from the whole text, and nothing that may follow an expression starts with a colon. -/
theorem assignment_eq_none_of_binary (hs : Solid tail) {e : Expr}
    (h : binary readOperand levels (c.extend tail) = some (e, d.extend tail))
    (hd : Follow tail d) : assignment readExpr c = none := by
  cases hc : assignment readExpr c with
  | none => rfl
  | some reply =>
    exfalso
    obtain ⟨⟨target, span⟩, m, hname, hrest⟩ := bind_apply_eq_some_iff.mp hc
    obtain ⟨_, k, hop, hrest⟩ := bind_apply_eq_some_iff.mp hrest
    obtain ⟨value, j, hvalue, -⟩ := bind_apply_eq_some_iff.mp hrest
    have hname' : ident c = some (target, m) := by
      rw [← ident_skips]
      exact (spanned_apply_eq_some_iff.mp hname).1
    have hm : m.rest ≠ [] := rest_ne_nil_of_le (op_follows _ hop)
      (Cursor.rest_ne_nil_of_lt (readExpr_advances hvalue))
    have hcolon : ahead m.rest = some ':' := by
      obtain ⟨ch, hahead, hch⟩ := op_begins (by decide) hop
      rwa [show ch = ':' from eq_of_starts rfl hch] at hahead
    obtain ⟨e', hwhole⟩ := binary_of_bare ((ident_keeps hs).same hname' hm)
      (bare_of_ahead (hs.ahead hcolon) (by decide) (by decide)
        (operator_eq_none (hs.ahead hcolon) (by decide))) levels
    rw [h] at hwhole
    have hplace : d = m := Cursor.extend_inj.mp (Prod.mk.inj (Option.some.inj hwhole)).2
    subst hplace
    obtain ⟨e'', d', hexpr⟩ := hd.expr_of_ahead hs hcolon (by decide) (by decide) (by decide)
    exact absurd (start_of_ahead readExpr_starts.begins hexpr (hs.ahead hcolon)) (by decide)

end Assignments

/-- An expression of the whole text that ends before the cut is read from the text before the cut,
if what follows does not go on with it. -/
theorem readExpr_cuts (hs : Solid tail) (region : UpperSet Cursor) :
    Cuts tail region readExpr (Follow tail) := by
  -- what is nested starts behind what it is nested in, so there is less and less of the text left
  have hall : ∀ start : Cursor, Cuts tail (.Ici start) readExpr (Follow tail) ∧
      Cuts tail (.Ici start) readOperand (Follow tail) := by
    intro start
    induction hn : start.rest.length using Nat.strong_induction_on generalizing start with
    | _ n ih =>
      have hlater : ∀ c, start < c → Cuts tail (.Ici c) readExpr (Follow tail) ∧
          Cuts tail (.Ici c) readOperand (Follow tail) := fun c hc =>
        ih _ (hn ▸ Cursor.length_lt_of_lt hc) c rfl
      have hexpr : Cuts tail (.Ioi start) readExpr (Follow tail) :=
        ⟨readExpr_advances.follows, fun c _ _ hc => (hlater c hc).1.same (le_refl c)⟩
      have hoperand : Cuts tail (.Ici start) readOperand (Follow tail) :=
        operand_cuts hs hexpr
          ⟨readOperand_advances.follows, fun c _ _ hc => (hlater c hc).2.same (le_refl c)⟩
      refine ⟨?_, hoperand⟩
      rw [readExpr_eq]
      exact .alt (assignment_cuts hs hexpr) (binary_cuts hs hoperand levels)
        fun _ _ _ _ _ heq hd => assignment_eq_none_of_binary hs heq hd
  exact ⟨readExpr_advances.follows, fun c _ _ _ => (hall c).1.same (le_refl c)⟩

end PCode.Grammar
