import PCode.Proofs.Grammar.CutTokens

namespace PCode.Grammar

open PCode.Parser

variable {α β : Type} {tail : List Char} {c d : Cursor}

/-- The first word of what is matched, if it starts with one, is of a kind and is matched whole. -/
def Leads (p : Parser α) (P : String → Prop) : Prop :=
  ∀ ⦃c a d⦄, p c = some (a, d) → ∀ ⦃w m⦄, word c = some (w, m) → P w ∧ m ≤ d

namespace Leads

variable {p q : Parser α} {P Q : String → Prop}

theorem mono (h : Leads p P) (hPQ : ∀ w, P w → Q w) : Leads p Q := by
  intro c a d heq w m hw
  obtain ⟨hP, hle⟩ := h heq hw
  exact ⟨hPQ w hP, hle⟩

theorem reject : Leads (Parser.reject : Parser α) P :=
  nofun

theorem bind {f : α → Parser β} (h : Leads p P) (hf : ∀ a, Follows (f a)) : Leads (p >>= f) P := by
  intro c b e heq w m hw
  obtain ⟨a, d, ha, hb⟩ := bind_apply_eq_some_iff.mp heq
  obtain ⟨hP, hle⟩ := h ha hw
  exact ⟨hP, le_trans hle (hf a hb)⟩

theorem map (h : Leads p P) (f : α → β) : Leads (Parser.map p f) P := by
  rw [map_eq_bind]
  exact h.bind fun a => .pure (f a)

theorem alt (h : Leads p P) (h' : Leads q P) : Leads (Parser.alt p q) P := by
  intro c a d heq
  rcases alt_apply_eq_some heq with hreply | hreply
  · exact h hreply
  · exact h' hreply

theorem token (h : Leads p P) : Leads (Parser.token p) P := by
  intro c a d heq w m hw
  rw [← word_skips] at hw
  exact h heq hw

theorem spanned (h : Leads p P) : Leads (Parser.spanned p) P := by
  intro c a d heq w m hw
  exact h (spanned_apply_eq_some_iff.mp heq).1 hw

theorem of_begins {S : Char → Bool} (h : Begins p S)
    (hS : ∀ ch, wordStart ch = true → S ch = false) : Leads p P := by
  intro c a d heq w m hw
  rw [word_starts.begins.eq_none (h heq) hS] at hw
  cases hw

end Leads

theorem word_leads (test : String → Bool) : Leads (verify word test) fun w => test w = true := by
  intro c w d heq w' m hw
  obtain ⟨hword, htest⟩ := verify_apply_eq_some_iff.mp heq
  rw [hw] at hword
  cases hword
  exact ⟨htest, le_refl _⟩

theorem ident_leads : Leads ident fun w => w ∉ keywords :=
  (word_leads _).mono fun w hw => by simpa using hw

theorem keyword_leads (k : String) : Leads (keyword k) fun w => w = k :=
  ((word_leads _).map _).mono fun w hw => by simpa using hw

section FirstWords

variable {p : Parser α} {P : String → Prop} {a : α}

theorem IsWord.append {w : String} (h : IsWord w) {text : List Char}
    (htext : ∀ ch ∈ text, isWordChar ch = true) : IsWord (String.ofList (w.toList ++ text)) := by
  obtain ⟨ch, chars, hchars⟩ := List.exists_cons_of_ne_nil h.nonempty
  have hstart := h.start
  refine ⟨?_, ?_, ?_⟩
  · simp [hchars]
  · rw [String.toList_ofList]
    exact List.forall_mem_append.mpr ⟨h.chars, htext⟩
  · rw [String.toList_ofList, hchars]
    rw [hchars] at hstart
    exact hstart

theorem exists_word_extend (hs : Solid tail) {w : String} {m : Cursor}
    (h : word c = some (w, m)) : ∃ w' m', word (c.extend tail) = some (w', m') := by
  have hends : WordEnds ((m.rest ++ tail).dropWhile isWordChar) := by
    intro ch hch
    have hnot := List.head?_dropWhile_not isWordChar (m.rest ++ tail)
    rw [hch] at hnot
    simpa using hnot
  have hword : IsWord (String.ofList (w.toList ++ (m.rest ++ tail).takeWhile isWordChar)) :=
    (word_yields h).append (List.all_eq_true.mp List.all_takeWhile)
  obtain ⟨w', hread, -⟩ := word_reads hword hends c.skipSpacing.offset
  rw [String.toList_ofList, List.append_assoc, List.takeWhile_append_dropWhile,
    ← List.append_assoc, ← (word_text h).1] at hread
  rw [← word_skips, hs.skipSpacing]
  exact ⟨w', _, hread⟩

theorem Leads.word_extend (hs : Solid tail) (h : Leads p P)
    (heq : p (c.extend tail) = some (a, d.extend tail)) {w : String} {m : Cursor}
    (hw : word c = some (w, m)) : word (c.extend tail) = some (w, m.extend tail) ∧ P w := by
  obtain ⟨w', m', hw'⟩ := exists_word_extend hs hw
  obtain ⟨hP, hle⟩ := h heq hw'
  obtain ⟨k, rfl, -⟩ := Cursor.exists_extend_of_le hle
  have hcuts : Cuts tail ⊥ word Anywhere := word_cuts hs
  have hsame := hcuts.same trivial hw' trivial
  rw [hw] at hsame
  cases hsame
  exact ⟨hw', hP⟩

theorem keyword_apply_eq_some_iff {k : String} {value : Unit} :
    keyword k c = some (value, d) ↔ word c = some (k, d) := by
  unfold keyword
  rw [map_eq_bind, bind_apply_eq_some_iff]
  constructor
  · rintro ⟨w, m, hw, hpure⟩
    obtain ⟨-, rfl⟩ := pure_apply_eq_some_iff.mp hpure
    obtain ⟨hword, hk⟩ := verify_apply_eq_some_iff.mp hw
    rwa [← beq_iff_eq.mp hk]
  · intro h
    exact ⟨k, d, verify_apply_eq_some_iff.mpr ⟨h, beq_self_eq_true k⟩, rfl⟩

theorem Leads.keyword_eq_none (hs : Solid tail) (h : Leads p P)
    (heq : p (c.extend tail) = some (a, d.extend tail)) {k : String} (hk : ¬ P k) :
    keyword k c = none := by
  cases hc : keyword k c with
  | none => rfl
  | some reply =>
    rw [keyword_apply_eq_some_iff] at hc
    exact absurd (h.word_extend hs heq hc).2 hk

end FirstWords

section Starts

variable {inner operand : Parser Expr}

theorem node_starts {p : Parser (Note → Expr)} {S : Char → Bool} (hp : Advances p)
    (h : Begins p S) : Starts (node p) S :=
  ⟨(Skips.token _).map _, node_advances hp, node_begins h⟩

theorem number_starts : Starts number fun ch => ch.isDigit || ch == '-' := by
  refine ⟨?_, number_advances, number_begins⟩
  intro cursor
  unfold number
  rw [skipSpacing_skipSpacing]

theorem group_starts (h : Follows inner) :
    Starts (group inner) fun ch => "(".toList.head? == some ch :=
  (punct_starts (by decide)).bind fun _ => h.bind fun _ =>
    (punct_advances (by decide)).follows.bind fun _ => .pure _

theorem prefixed_eq (operand : Parser Expr) : prefixed operand =
    map (token (spanned (pair unaryOp operand))) fun ((op, e), span) =>
      .unary op e ⟨span, .unknown⟩ := by
  funext c
  unfold prefixed map token spanned
  dsimp only
  cases pair unaryOp operand c.skipSpacing <;> rfl

/-- A word starts here, or one of these symbols stands here. -/
def wordOr (symbols : List Char) (ch : Char) : Bool :=
  wordStart ch || symbols.contains ch

theorem wordOr_of_wordStart {symbols : List Char} (ch : Char) (h : wordStart ch = true) :
    wordOr symbols ch = true := by
  rw [wordOr, h, Bool.true_or]

theorem wordOr_mono {symbols symbols' : List Char} (hsub : symbols ⊆ symbols') (ch : Char)
    (h : wordOr symbols ch = true) : wordOr symbols' ch = true := by
  simp only [wordOr, Bool.or_eq_true, List.contains_iff_mem] at h ⊢
  exact h.imp_right fun hmem => hsub hmem

/-- The forms of an atom without the first ones. -/
def atomsFrom (inner : Parser Expr) (n : Nat) : Parser Expr :=
  choice ([number, node (map quoted .text), node boolean, node (conditional inner),
    node (lambda inner), node (call inner), node (array inner), node identifier,
    group inner].drop n)

theorem quoted_starts : Starts (node (map quoted .text)) fun ch => "\"".toList.head? == some ch :=
  ⟨(Skips.token _).map _, node_advances (quoted_advances.map _), string_begins⟩

theorem boolean_starts : Starts (node boolean) wordStart :=
  node_starts (.alt ((keyword_advances _).map _) ((keyword_advances _).map _))
    (.alt ((keyword_starts _).begins.map _) ((keyword_starts _).begins.map _))

theorem conditional_starts (h : Follows inner) : Starts (node (conditional inner)) wordStart :=
  node_starts (conditional_advances h) ((keyword_starts _).begins.bind _)

theorem lambda_starts (h : Follows inner) :
    Starts (node (lambda inner)) fun ch => "\\".toList.head? == some ch :=
  node_starts (lambda_advances h) ((punct_begins (by decide)).bind _)

theorem call_starts (h : Follows inner) : Starts (node (call inner)) wordStart :=
  node_starts (call_advances h) (ident_starts.begins.bind _)

theorem array_starts (h : Follows inner) :
    Starts (node (array inner)) fun ch => "[".toList.head? == some ch :=
  node_starts (array_advances h) ((punct_begins (by decide)).bind _)

theorem identifier_starts : Starts (node identifier) wordStart :=
  node_starts (ident_advances.map _) (ident_starts.begins.map _)

section

variable (h : Follows inner)
include h

theorem fromGroup_starts : Starts (atomsFrom inner 8) fun ch => "(".toList.head? == some ch :=
  (group_starts h).alt .reject

theorem fromName_starts : Starts (atomsFrom inner 7) (wordOr ['(']) :=
  .alt (identifier_starts.mono wordOr_of_wordStart)
    ((fromGroup_starts h).mono (of_starts (by decide)))

theorem fromArray_starts : Starts (atomsFrom inner 6) (wordOr ['(', '[']) :=
  .alt ((array_starts h).mono (of_starts (by decide)))
    ((fromName_starts h).mono (wordOr_mono (by decide)))

theorem fromCall_starts : Starts (atomsFrom inner 5) (wordOr ['(', '[']) :=
  .alt ((call_starts h).mono wordOr_of_wordStart) (fromArray_starts h)

theorem fromLambda_starts : Starts (atomsFrom inner 4) (wordOr ['(', '[', '\\']) :=
  .alt ((lambda_starts h).mono (of_starts (by decide)))
    ((fromCall_starts h).mono (wordOr_mono (by decide)))

theorem fromBoolean_starts : Starts (atomsFrom inner 2) (wordOr ['(', '[', '\\']) :=
  .alt (boolean_starts.mono wordOr_of_wordStart)
    (.alt ((conditional_starts h).mono wordOr_of_wordStart) (fromLambda_starts h))

theorem fromQuoted_starts : Starts (atomsFrom inner 1) (wordOr ['(', '[', '\\', '"']) :=
  .alt (quoted_starts.mono (of_starts (by decide)))
    ((fromBoolean_starts h).mono (wordOr_mono (by decide)))

end

theorem node_leads {p : Parser (Note → Expr)} {P : String → Prop} (h : Leads p P) :
    Leads (node p) P :=
  (h.spanned.token).map _

theorem fromLambda_leads (h : Follows inner) :
    Leads (atomsFrom inner 4) fun w => w ∉ keywords := by
  have hcall : Leads (node (call inner)) fun w => w ∉ keywords :=
    node_leads (ident_leads.bind fun _ => (literal_follows _).bind fun _ =>
      (arguments_follows h).bind fun _ => (punct_advances (by decide)).follows.bind
        fun _ => .pure _)
  refine .alt (.of_begins (lambda_starts h).begins (not_starts_of (by decide))) (.alt hcall (.alt
    (.of_begins (array_starts h).begins (not_starts_of (by decide))) (.alt ?_
    (.of_begins (fromGroup_starts h).begins (not_starts_of (by decide))))))
  exact node_leads (ident_leads.map _)

/-- The words with which an expression can start. -/
def ExprWord (w : String) : Prop :=
  w ∉ keywords ∨ w ∈ ["true", "false", "if"]

instance (w : String) : Decidable (ExprWord w) :=
  inferInstanceAs (Decidable (_ ∨ _))

theorem fromConditional_leads (h : Follows inner) :
    Leads (atomsFrom inner 3) fun w => w ∉ keywords ∨ w = "if" := by
  have hcond : Leads (node (conditional inner)) fun w => w = "if" :=
    node_leads ((keyword_leads _).bind fun _ => h.bind fun _ => (keyword_advances _).follows.bind
      fun _ => h.bind fun _ => (keyword_advances _).follows.bind fun _ => h.bind fun _ => .pure _)
  exact .alt (hcond.mono fun _ => .inr) ((fromLambda_leads h).mono fun _ => .inl)

theorem atom_leads (h : Follows inner) : Leads (atom inner) ExprWord := by
  refine .alt (.of_begins number_begins ?_) (.alt (.of_begins string_begins (not_starts_of
    (by decide))) (.alt (node_leads (.alt ?_ ?_)) ((fromConditional_leads h).mono ?_)))
  · intro ch hch
    simp only [wordStart, Bool.and_eq_true, Bool.not_eq_true'] at hch
    rw [hch.2, Bool.false_or, beq_eq_false_iff_ne]
    rintro rfl
    exact absurd hch.1 (by decide)
  · exact ((keyword_leads _).map _).mono fun w hw => .inr (by simp [hw])
  · exact ((keyword_leads _).map _).mono fun w hw => .inr (by simp [hw])
  · exact fun w hw => hw.imp_right fun hif => by simp [hif]

theorem atom_starts (h : Follows inner) : Starts (atom inner) exprStart := by
  refine ⟨?_, atom_advances h, atom_begins⟩
  exact number_starts.skips.alt (fromQuoted_starts h).skips

/-- The characters with which prefix operators start. -/
def signStart (ch : Char) : Bool :=
  ['-', '+', '!'].contains ch

theorem unaryOp_starts : Starts unaryOp signStart :=
  .alt (((op_starts (by decide)).mono (of_starts (by decide))).map _) (.alt
    (((op_starts (by decide)).mono (of_starts (by decide))).map _) (.alt
    (((op_starts (by decide)).mono (of_starts (by decide))).map _) .reject))

theorem prefixed_starts (h : Follows operand) : Starts (prefixed operand) signStart := by
  refine ⟨?_, prefixed_advances h, ?_⟩
  · rw [prefixed_eq]
    exact (Skips.token _).map _
  · rw [prefixed_eq, pair_eq_bind]
    exact ((unaryOp_starts.begins.bind _).spanned.token).map _

theorem exprStart_of_signStart (ch : Char) (h : signStart ch = true) : exprStart ch = true := by
  simp only [signStart, List.contains_iff_mem, List.mem_cons, List.not_mem_nil, or_false] at h
  obtain rfl | rfl | rfl := h <;> decide

theorem readOperand_starts : Starts readOperand exprStart := by
  have hinner := readExpr_advances.follows
  have hpostfixed : Starts (postfixed readExpr) exprStart := by
    unfold postfixed
    rw [andThen_eq_bind]
    exact (atom_starts hinner).bind fun _ => (suffix_advances hinner).follows.many _ _
  rw [readOperand_eq]
  exact hpostfixed.alt
    ((prefixed_starts readOperand_advances.follows).mono exprStart_of_signStart)

theorem readOperand_leads : Leads readOperand ExprWord := by
  have hinner := readExpr_advances.follows
  rw [readOperand_eq]
  refine .alt ?_ (.of_begins (prefixed_starts readOperand_advances.follows).begins ?_)
  · unfold postfixed
    rw [andThen_eq_bind]
    exact (atom_leads hinner).bind fun _ => (suffix_advances hinner).follows.many _ _
  · intro ch hch
    cases hsign : signStart ch with
    | false => rfl
    | true =>
      simp only [signStart, List.contains_iff_mem, List.mem_cons, List.not_mem_nil, or_false]
        at hsign
      obtain rfl | rfl | rfl := hsign <;> revert hch <;> decide

theorem binary_starts {S : Char → Bool} (h : Starts operand S) (levels : List (List BinaryOp)) :
    Starts (binary operand levels) S := by
  induction levels with
  | nil => exact h
  | cons level tighter ih =>
    unfold binary chainLeft
    rw [andThen_eq_bind]
    exact ih.bind fun _ => ((binaryOp_advances level).pair ih.advances.follows).follows.many _ _

theorem binary_leads {P : String → Prop} (ho : Follows operand) (h : Leads operand P)
    (levels : List (List BinaryOp)) : Leads (binary operand levels) P := by
  induction levels with
  | nil => exact h
  | cons level tighter ih =>
    unfold binary chainLeft
    rw [andThen_eq_bind]
    exact ih.bind fun _ => ((binaryOp_advances level).pair (binary_follows ho _)).follows.many _ _

theorem readExpr_starts : Starts readExpr exprStart := by
  have hassign : Starts (assignment readExpr) exprStart := by
    refine ⟨(Skips.token _).bind _, assignment_advances readExpr_advances.follows, ?_⟩
    refine (ident_begins.spanned.token.mono ?_).bind _
    intro ch hch
    rw [exprStart, hch, Bool.true_or]
  rw [readExpr_eq]
  exact hassign.alt (binary_starts readOperand_starts _)

theorem readExpr_leads : Leads readExpr ExprWord := by
  have hassign : Leads (assignment readExpr) ExprWord :=
    ((ident_leads.spanned.token).mono fun _ => .inl).bind fun _ =>
      (op_advances (by decide)).follows.bind fun _ => readExpr_advances.follows.bind
        fun _ => .pure _
  rw [readExpr_eq]
  exact hassign.alt (binary_leads readOperand_advances.follows readOperand_leads _)

end Starts

end PCode.Grammar
