import PCode.Grammar.Statement
import PCode.Proofs.Grammar.WellFormed

namespace PCode.Parser

variable {α β γ : Type}

theorem bind_apply_eq_some_iff {p : Parser α} {f : α → Parser β} {cursor rest : Cursor} {b : β} :
    (p >>= f) cursor = some (b, rest) ↔
      ∃ a mid, p cursor = some (a, mid) ∧ f a mid = some (b, rest) := by
  show StateT.bind p f cursor = _ ↔ _
  simp only [StateT.bind, Option.bind_eq_bind, Option.bind_eq_some_iff, Prod.exists]

theorem pure_apply_eq_some_iff {a b : α} {cursor rest : Cursor} :
    (pure a : Parser α) cursor = some (b, rest) ↔ a = b ∧ cursor = rest := by
  show some (a, cursor) = _ ↔ _
  rw [Option.some.injEq, Prod.mk.injEq]

theorem andThen_eq_bind (p : Parser α) (f : α → Parser β) : andThen p f = p >>= f := by
  funext cursor
  show _ = StateT.bind p f cursor
  unfold andThen StateT.bind
  cases p cursor <;> rfl

theorem map_eq_bind (p : Parser α) (f : α → β) : map p f = p >>= fun a => pure (f a) := by
  funext cursor
  show _ = StateT.bind p _ cursor
  unfold map StateT.bind
  cases p cursor <;> rfl

section Replies

variable {cursor rest : Cursor}

theorem alt_apply_eq_some {p q : Parser α} {r : α × Cursor} (h : alt p q cursor = some r) :
    p cursor = some r ∨ q cursor = some r := by
  unfold alt at h
  split at h
  · rename_i reply hreply
    exact .inl (hreply.trans h)
  · exact .inr h

theorem mem_of_choice {ps : List (Parser α)} {r : α × Cursor} (h : choice ps cursor = some r) :
    ∃ p ∈ ps, p cursor = some r := by
  induction ps with
  | nil => cases h
  | cons p ps ih =>
    rcases alt_apply_eq_some h with hfirst | hothers
    · exact ⟨p, List.mem_cons_self, hfirst⟩
    · obtain ⟨q, hq, heq⟩ := ih hothers
      exact ⟨q, List.mem_cons_of_mem p hq, heq⟩

theorem verify_apply_eq_some_iff {p : Parser α} {test : α → Bool} {a : α} :
    verify p test cursor = some (a, rest) ↔ p cursor = some (a, rest) ∧ test a = true := by
  unfold verify
  cases p cursor with
  | none => simp
  | some reply =>
    obtain ⟨value, mid⟩ := reply
    by_cases htest : test value = true
    · simp only [htest, if_true, Option.some.injEq, Prod.mk.injEq]
      refine ⟨fun h => ⟨h, h.1 ▸ htest⟩, fun h => h.1⟩
    · simp only [htest, Bool.false_eq_true, if_false, reduceCtorEq, false_iff, Option.some.injEq,
        Prod.mk.injEq]
      rintro ⟨⟨rfl, rfl⟩, ha⟩
      exact htest ha

theorem spanned_apply_eq_some_iff {p : Parser α} {a : α × Span} :
    spanned p cursor = some (a, rest) ↔
      p cursor = some (a.1, rest) ∧ a.2 = cursor.spanTo rest := by
  unfold spanned
  cases p cursor with
  | none => simp
  | some reply =>
    obtain ⟨value, mid⟩ := reply
    obtain ⟨b, span⟩ := a
    simp only [Option.some.injEq, Prod.mk.injEq]
    constructor
    · rintro ⟨⟨rfl, rfl⟩, rfl⟩
      exact ⟨⟨rfl, rfl⟩, rfl⟩
    · rintro ⟨⟨rfl, rfl⟩, rfl⟩
      exact ⟨⟨rfl, rfl⟩, rfl⟩

theorem maybe_apply_eq_some_iff {p : Parser α} {o : Option α} :
    maybe p cursor = some (o, rest) ↔
      (∃ a, o = some a ∧ p cursor = some (a, rest)) ∨
        o = none ∧ p cursor = none ∧ rest = cursor := by
  unfold maybe
  cases p cursor with
  | none =>
    simp only [Option.some.injEq, Prod.mk.injEq, reduceCtorEq, and_false, exists_false, true_and,
      false_or]
    exact ⟨fun h => ⟨h.1.symm, h.2.symm⟩, fun h => ⟨h.1.symm, h.2.symm⟩⟩
  | some reply =>
    obtain ⟨value, mid⟩ := reply
    simp only [Option.some.injEq, Prod.mk.injEq, reduceCtorEq, false_and, and_false, or_false]
    constructor
    · rintro ⟨rfl, rfl⟩
      exact ⟨value, rfl, rfl, rfl⟩
    · rintro ⟨a, rfl, rfl, rfl⟩
      exact ⟨rfl, rfl⟩

end Replies

/-- What one more match keeps is kept by all matches in a row, with the number of them and the place
behind them. -/
theorem foldMatches_keeps {p : Parser α} {J : β → Nat → Cursor → Prop} (fold : β → α → β)
    (hstep : ∀ acc n cursor value rest, J acc n cursor → p cursor = some (value, rest) →
      J (fold acc value) (n + 1) rest) (fuel : Nat) (acc : β) (n : Nat) {cursor : Cursor}
    (hacc : J acc n cursor) :
    J (foldMatches p fold fuel acc n cursor).1 (foldMatches p fold fuel acc n cursor).2.1
      (foldMatches p fold fuel acc n cursor).2.2 := by
  induction fuel generalizing acc n cursor with
  | zero => exact hacc
  | succ fuel ih =>
    rw [foldMatches]
    split
    · exact hacc
    · rename_i value rest hvalue
      split
      · exact hstep _ _ _ _ _ hacc hvalue
      · exact ih _ _ (hstep _ _ _ _ _ hacc hvalue)

/-- Every value that a parser gives has a property. -/
def Yields (p : Parser α) (P : α → Prop) : Prop :=
  ∀ ⦃cursor value rest⦄, p cursor = some (value, rest) → P value

namespace Yields

variable {p q : Parser α} {P Q : α → Prop}

theorem any : Yields p fun _ => True :=
  fun _ _ _ _ => trivial

theorem imp (h : Yields p P) (hPQ : ∀ a, P a → Q a) : Yields p Q :=
  fun _ _ _ heq => hPQ _ (h heq)

theorem pure {a : α} (h : P a) : Yields (Pure.pure a) P := by
  intro cursor value rest heq
  rw [pure_apply_eq_some_iff] at heq
  exact heq.1 ▸ h

theorem reject : Yields Parser.reject P := by
  intro cursor value rest heq
  cases heq

theorem bind {f : α → Parser β} {Q : β → Prop} (h : Yields p P) (hf : ∀ a, P a → Yields (f a) Q) :
    Yields (p >>= f) Q := by
  intro cursor value rest heq
  obtain ⟨a, mid, ha, hb⟩ := bind_apply_eq_some_iff.mp heq
  exact hf a (h ha) hb

theorem after {f : α → Parser β} {Q : β → Prop} (hf : ∀ a, Yields (f a) Q) :
    Yields (p >>= f) Q :=
  any.bind fun a _ => hf a

theorem map {f : α → β} {Q : β → Prop} (h : Yields p P) (hf : ∀ a, P a → Q (f a)) :
    Yields (Parser.map p f) Q := by
  rw [map_eq_bind]
  exact h.bind fun a ha => pure (hf a ha)

theorem alt (h : Yields p P) (h' : Yields q P) : Yields (Parser.alt p q) P := by
  intro cursor value rest heq
  rcases alt_apply_eq_some heq with hreply | hreply
  · exact h hreply
  · exact h' hreply

theorem choice {ps : List (Parser α)} (h : ∀ p ∈ ps, Yields p P) : Yields (Parser.choice ps) P := by
  intro cursor value rest heq
  obtain ⟨p, hp, hreply⟩ := mem_of_choice heq
  exact h p hp hreply

theorem verify {test : α → Bool} (h : Yields p P) :
    Yields (Parser.verify p test) fun a => P a ∧ test a = true := by
  intro cursor value rest heq
  obtain ⟨ha, htest⟩ := verify_apply_eq_some_iff.mp heq
  exact ⟨h ha, htest⟩

theorem token (h : Yields p P) : Yields (Parser.token p) P :=
  fun _ _ _ heq => h heq

theorem spanned (h : Yields p P) : Yields (Parser.spanned p) fun a => P a.1 :=
  fun _ _ _ heq => h (spanned_apply_eq_some_iff.mp heq).1

theorem maybe (h : Yields p P) : Yields (Parser.maybe p) fun a => ∀ b, a = some b → P b := by
  intro cursor value rest heq
  rcases maybe_apply_eq_some_iff.mp heq with ⟨a, rfl, ha⟩ | ⟨rfl, -, -⟩
  · rintro b ⟨⟩
    exact h ha
  · nofun

theorem pair {q : Parser β} {Q : β → Prop} (h : Yields p P) (h' : Yields q Q) :
    Yields (Parser.pair p q) fun a => P a.1 ∧ Q a.2 := by
  unfold Parser.pair
  rw [andThen_eq_bind]
  exact h.bind fun a ha => h'.map fun b hb => ⟨ha, hb⟩

theorem right {q : Parser β} {Q : β → Prop} (h : Yields q Q) : Yields (Parser.right p q) Q :=
  (any.pair h).map fun _ ha => ha.2

theorem satisfy {test : Char → Bool} : Yields (Parser.satisfy test) fun c => test c = true := by
  intro cursor value rest heq
  unfold Parser.satisfy at heq
  split at heq
  · cases heq
  · split at heq
    · rename_i htest
      cases heq
      exact htest
    · cases heq

theorem foldMatches {J : β → Nat → Prop} {fold : β → α → β} (h : Yields p P)
    (hstep : ∀ acc n a, J acc n → P a → J (fold acc a) (n + 1)) (fuel : Nat) {acc : β} {n : Nat}
    (hacc : J acc n) (cursor : Cursor) :
    J (foldMatches p fold fuel acc n cursor).1 (foldMatches p fold fuel acc n cursor).2.1 :=
  foldMatches_keeps (J := fun acc n _ => J acc n) fold
    (fun acc n _ a _ hacc ha => hstep acc n a hacc (h ha)) fuel _ _ hacc

theorem many {J : β → Prop} {init : β} {fold : β → α → β} (h : Yields p P) (hinit : J init)
    (hstep : ∀ acc a, J acc → P a → J (fold acc a)) : Yields (Parser.many p init fold) J := by
  intro cursor value rest heq
  have hall := h.foldMatches (n := 0) (fun acc _ a => hstep acc a) (cursor.rest.length + 1) hinit
    cursor
  cases heq
  exact hall

theorem many1 {J : β → Nat → Prop} {init : β} {fold : β → α → β} (h : Yields p P)
    (hinit : J init 0) (hstep : ∀ acc n a, J acc n → P a → J (fold acc a) (n + 1)) :
    Yields (Parser.many1 p init fold) fun b => ∃ n, n ≠ 0 ∧ J b n := by
  intro cursor value rest heq
  have hall := h.foldMatches hstep (cursor.rest.length + 1) hinit cursor
  unfold Parser.many1 repeated at heq
  dsimp only at heq
  split at heq
  · cases heq
  · rename_i hcount
    cases heq
    exact ⟨_, hcount, hall⟩

theorem list (h : Yields p P) : Yields (Parser.list p) fun as => ∀ a ∈ as, P a := by
  refine map (many h (J := fun as => ∀ a ∈ as, P a) nofun ?_) ?_
  · intro as a has ha
    exact List.forall_mem_cons.mpr ⟨ha, has⟩
  · intro as has a ha
    exact has a (List.mem_reverse.mp ha)

theorem list1 (h : Yields p P) : Yields (Parser.list1 p) fun as => as ≠ [] ∧ ∀ a ∈ as, P a := by
  refine map (many1 h (J := fun as n => as.length = n ∧ ∀ a ∈ as, P a) ⟨rfl, nofun⟩ ?_) ?_
  · intro as n a has ha
    exact ⟨by simp [has.1], List.forall_mem_cons.mpr ⟨ha, has.2⟩⟩
  · intro as ⟨n, hn, hlength, has⟩
    refine ⟨?_, fun a ha => has a (List.mem_reverse.mp ha)⟩
    intro hnil
    rw [List.reverse_eq_nil_iff] at hnil
    exact hn (by simp [← hlength, hnil])

theorem chars {p : Parser Char} {P : Char → Prop} (h : Yields p P) :
    Yields (Parser.chars p) fun text => text.toList ≠ [] ∧ ∀ c ∈ text.toList, P c := by
  refine imp (many1 h (J := fun text n => text.toList.length = n ∧ ∀ c ∈ text.toList, P c)
    ⟨rfl, by simp⟩ ?_) ?_
  · intro text n c htext hc
    rw [String.toList_push, List.forall_mem_append]
    exact ⟨by simp [htext.1], htext.2, by simpa using hc⟩
  · intro text ⟨n, hn, hlength, htext⟩
    exact ⟨fun hnil => hn (by simp [← hlength, hnil]), htext⟩

end Yields

end PCode.Parser

namespace PCode.Grammar

open PCode.Parser

/-- A name or a keyword. -/
structure IsWord (w : String) : Prop where
  nonempty : w.toList ≠ []
  chars : ∀ c ∈ w.toList, isWordChar c = true
  start : (w.toList.headD 'a').isDigit = false

theorem word_yields : Yields word IsWord := by
  apply Yields.token
  refine Yields.imp (.verify (.chars .satisfy)) ?_
  intro w ⟨⟨hne, hchars⟩, hstart⟩
  exact ⟨hne, hchars, by simpa using hstart⟩

theorem ident_yields : Yields ident IsName := by
  refine Yields.imp (word_yields.verify) ?_
  intro name ⟨hword, hkeyword⟩
  refine ⟨hword.nonempty, ?_, ?_, by simpa using hkeyword⟩
  · intro c hc
    simpa [isWordChar] using hword.chars c hc
  · intro c hc
    simpa [List.headD_eq_head?_getD, hc] using hword.start

section Types

theorem typeNamed_wellFormed {name : String} (h : IsName name) : (typeNamed name).WellFormed := by
  unfold typeNamed
  split
  · exact .i64
  · split
    · exact .real
    · split
      · exact .string
      · split
        · exact .bool
        · exact .named h (by simp [*])

theorem type_yields (fuel : Nat) : Yields (type fuel) Ty.WellFormed := by
  induction fuel with
  | zero => exact .reject
  | succ fuel ih =>
    apply Yields.choice
    simp only [List.forall_mem_cons]
    refine ⟨?_, ?_, ?_, ?_, nofun⟩
    · exact Yields.any.map fun _ _ => .vararg
    · exact .after fun _ => ih.bind fun element helement => .after fun _ => .pure (.array helement)
    · exact .after fun _ => ih.list.bind fun params hparams => .after fun _ =>
        ih.bind fun ret hret => .after fun _ => .pure (.function hparams hret)
    · exact ident_yields.map fun name hname => typeNamed_wellFormed hname

end Types

/-- A form that becomes a well-formed expression with any note that is not checked. -/
def ExprForm (form : Note → Expr) : Prop :=
  ∀ n : Note, n.ty = .unknown → (form n).WellFormed

section Expressions

variable {inner : Parser Expr}

theorem node_yields {p : Parser (Note → Expr)} (h : Yields p ExprForm) :
    Yields (node p) Expr.WellFormed :=
  (h.spanned.token).map fun _ hform => hform _ rfl

/-- The literal of a numeral, unless it is an integer that does not fit a cell. -/
def numeralExpr? (n : Numeral) (span : Span) : Option Expr :=
  match n.fraction with
  | some fraction => some (.real (Real.ofDigits n.negative n.whole fraction) ⟨span, .unknown⟩)
  | none => n.integer?.map fun value => .integer value ⟨span, .unknown⟩

theorem number_apply_eq_some_iff {cursor rest : Cursor} {e : Expr} :
    number cursor = some (e, rest) ↔ ∃ n, numeral cursor.skipSpacing = some (n, rest) ∧
      numeralExpr? n (cursor.skipSpacing.spanTo rest) = some e := by
  unfold number numeralExpr?
  dsimp only
  cases numeral cursor.skipSpacing with
  | none => simp
  | some reply =>
    obtain ⟨n, behind⟩ := reply
    simp only [Option.some.injEq, Prod.mk.injEq]
    constructor
    · intro h
      cases hfraction : n.fraction with
      | some fraction =>
        rw [hfraction] at h
        cases h
        exact ⟨n, ⟨rfl, rfl⟩, by rw [hfraction]⟩
      | none =>
        rw [hfraction] at h
        obtain ⟨v, hv, hvalue⟩ := Option.map_eq_some_iff.mp h
        cases hvalue
        exact ⟨n, ⟨rfl, rfl⟩, by rw [hfraction]; exact Option.map_eq_some_iff.mpr ⟨v, hv, rfl⟩⟩
    · rintro ⟨_, ⟨rfl, rfl⟩, h⟩
      cases hfraction : n.fraction with
      | some fraction =>
        rw [hfraction] at h
        cases h
        rfl
      | none =>
        rw [hfraction] at h
        obtain ⟨v, hv, hvalue⟩ := Option.map_eq_some_iff.mp h
        cases hvalue
        exact Option.map_eq_some_iff.mpr ⟨v, hv, rfl⟩

theorem number_yields : Yields number Expr.WellFormed := by
  intro cursor value rest heq
  obtain ⟨n, -, hn⟩ := number_apply_eq_some_iff.mp heq
  unfold numeralExpr? at hn
  split at hn
  · cases hn
    exact .real rfl
  · obtain ⟨v, -, rfl⟩ := Option.map_eq_some_iff.mp hn
    exact .integer rfl

theorem of_argument {cursor : Cursor} {r : Expr × Cursor} (h : argument inner cursor = some r) :
    inner cursor = some r := by
  unfold argument at h
  split at h
  · cases h
  · exact h

theorem arguments_yields (h : Yields inner Expr.WellFormed) :
    Yields (arguments inner) fun args => ∀ arg ∈ args, arg.WellFormed := by
  have hargument : Yields (argument inner) Expr.WellFormed := fun _ _ _ heq => h (of_argument heq)
  refine .bind h.maybe fun first hfirst => ?_
  cases first with
  | none => exact .pure nofun
  | some first =>
    exact hargument.list.bind fun rest hrest =>
      .pure (List.forall_mem_cons.mpr ⟨hfirst first rfl, hrest⟩)

theorem atom_yields (h : Yields inner Expr.WellFormed) : Yields (atom inner) Expr.WellFormed := by
  apply Yields.choice
  simp only [List.forall_mem_cons]
  refine ⟨number_yields, ?text, ?boolean, ?cond, ?lambda, ?call, ?array, ?name, ?group, nofun⟩
  case text => exact node_yields (Yields.any.map fun _ _ _ hn => .text hn)
  case boolean =>
    exact node_yields (.alt (Yields.any.map fun _ _ _ hn => .boolean hn)
      (Yields.any.map fun _ _ _ hn => .boolean hn))
  case cond =>
    exact node_yields (.after fun _ => h.bind fun c hc => .after fun _ => h.bind fun t ht =>
      .after fun _ => h.bind fun e he => .pure fun n hn => .cond hc ht he hn)
  case lambda =>
    exact node_yields (.after fun _ => ident_yields.list1.bind fun params hparams =>
      .after fun _ => h.bind fun body hbody => .pure fun n hn =>
        .lambda hparams.1 hparams.2 hbody hn)
  case call =>
    exact node_yields (ident_yields.bind fun f hf => .after fun _ =>
      (arguments_yields h).bind fun args hargs => .after fun _ => .pure fun n hn =>
        .call hf hargs hn)
  case array =>
    exact node_yields (.after fun _ => h.list.bind fun items hitems => .after fun _ =>
      .pure fun n hn => .array hitems hn)
  case name => exact node_yields (ident_yields.map fun x hx n hn => .name hx hn)
  case group => exact .after fun _ => h.bind fun e he => .after fun _ => .pure he

/-- What a suffix says is well-formed. -/
def Suffix.WellFormed : Suffix → Prop
  | .member field _ => IsName field
  | .index position _ => position.WellFormed

section

variable (h : Yields inner Expr.WellFormed)
include h

theorem suffix_yields : Yields (suffix inner) Suffix.WellFormed := by
  refine .after fun point => ?_
  cases point with
  | none => exact .after fun _ => h.bind fun p hp => .after fun _ => .pure hp
  | some _ => exact (ident_yields.spanned.token).bind fun field hfield => .pure hfield

theorem postfixed_yields : Yields (postfixed inner) Expr.WellFormed := by
  unfold postfixed
  rw [andThen_eq_bind]
  refine (atom_yields h).bind fun first hfirst => (suffix_yields h).many hfirst ?_
  intro target suffix htarget hsuffix
  cases suffix with
  | member field span => exact .member htarget hsuffix rfl rfl
  | index position closing => exact .index htarget hsuffix rfl

theorem unary_yields (fuel : Nat) : Yields (unary inner fuel) Expr.WellFormed := by
  induction fuel with
  | zero => exact .reject
  | succ fuel ih =>
    refine (postfixed_yields h).alt ?_
    intro cursor value rest heq
    dsimp only at heq
    split at heq
    · rename_i op operand rest hpair
      cases heq
      exact .unary (Yields.any.pair ih hpair).2 rfl
    · cases heq

theorem binary_yields (levels : List (List BinaryOp)) :
    Yields (binary inner levels) Expr.WellFormed := by
  induction levels with
  | nil => exact h
  | cons level tighter ih =>
    unfold binary chainLeft
    rw [andThen_eq_bind]
    refine ih.bind fun first hfirst => (Yields.any.pair ih).many hfirst ?_
    intro left right hleft hright
    exact .binary hleft hright.2 rfl

end

theorem expression_yields (fuel : Nat) : Yields (expression fuel) Expr.WellFormed := by
  induction fuel with
  | zero => exact .reject
  | succ fuel ih =>
    refine .alt ?_ (binary_yields (unary_yields ih (fuel + 1)) levels)
    exact (ident_yields.spanned.token).bind fun target htarget => .after fun _ =>
      ih.bind fun value hvalue => .pure (.assign htarget rfl hvalue rfl)

end Expressions

/-- A form that becomes a well-formed statement with any note that is not checked. -/
def StmtForm (form : Note → Stmt) : Prop :=
  ∀ n : Note, n.ty = .unknown → (form n).WellFormed

section Statements

variable {expr : Parser Expr} {block : Parser (List Stmt)}

theorem mem_of_mem_trim {text : List Char} {c : Char} (h : c ∈ Text.trim text) : c ∈ text := by
  rw [Text.trim, List.mem_reverse] at h
  have hstart := List.dropWhile_subset _ h
  rw [List.mem_reverse] at hstart
  exact List.dropWhile_subset _ hstart

theorem trimmed_trim (text : List Char) : Text.Trimmed (Text.trim text) := by
  have hstop : ∀ (l : List Char) (c : Char), (l.dropWhile Text.isBlank).head? = some c →
      Text.isBlank c = false := by
    intro l c hc
    have hnot := List.head?_dropWhile_not Text.isBlank l
    rw [hc] at hnot
    simpa using hnot
  refine ⟨fun c hc => ?_, fun c hc => ?_⟩
  · -- the blanks at the end are cut from a text that starts with no blank
    apply hstop text
    have hprefix : Text.trim text <+: text.dropWhile Text.isBlank := by
      rw [← List.reverse_suffix, Text.trim, List.reverse_reverse]
      exact List.dropWhile_suffix _
    obtain ⟨rest, hrest⟩ := hprefix
    rw [← hrest, List.head?_append, hc]
    rfl
  · rw [Text.trim, List.getLast?_reverse] at hc
    exact hstop _ c hc

theorem comment_yields : Yields comment StmtForm := by
  refine .after fun _ => (Yields.satisfy.list).bind fun text htext => .pure fun n hn => ?_
  refine .comment ?_ ?_ hn
  · rw [String.toList_ofList]
    exact trimmed_trim text
  · rw [String.toList_ofList]
    intro hmem
    simpa using htext _ (mem_of_mem_trim hmem)

theorem record_yields (fuel : Nat) : Yields (record (type fuel)) StmtForm := by
  have hmember : Yields (recordMember (type fuel)) fun m => IsName m.1 ∧ m.2.WellFormed :=
    .after fun _ => ident_yields.bind fun name hname => (type_yields fuel).bind fun ty hty =>
      .after fun _ => .pure ⟨hname, hty⟩
  exact .after fun _ => ident_yields.bind fun name hname => .after fun _ =>
    hmember.list1.bind fun members hmembers => .pure fun n hn =>
      .record hname hmembers.1 hmembers.2 hn

theorem declaration_yields (fuel : Nat) : Yields (declaration (type fuel)) StmtForm :=
  ident_yields.bind fun _ hname => .after fun _ => (type_yields fuel).list.bind
    fun _ hparams => .after fun _ => (type_yields fuel).bind fun _ hret =>
      .pure fun _ hn => .declare hname (.function hparams hret) hn

theorem binding_yields (h : Yields expr Expr.WellFormed) :
    Yields (binding expr) fun b => IsName b.1 ∧ b.2.WellFormed :=
  ident_yields.bind fun _ hname => .after fun _ => h.bind fun _ hvalue => .pure ⟨hname, hvalue⟩

theorem localBindings_yields (h : Yields expr Expr.WellFormed) :
    Yields (localBindings expr) fun bs => ∀ b ∈ bs, IsName b.1 ∧ b.2.WellFormed :=
  .after fun _ => (binding_yields h).bind fun _ hfirst => (binding_yields h).right.list.bind
    fun _ hothers => .after fun _ => .pure (List.forall_mem_cons.mpr ⟨hfirst, hothers⟩)

theorem parameter_apply_eq_some_iff {cursor rest : Cursor} {x : String} :
    parameter cursor = some (x, rest) ↔
      cursor.newlineAhead = false ∧ ident cursor = some (x, rest) := by
  unfold parameter
  cases cursor.newlineAhead <;> simp

theorem parameter_yields : Yields parameter IsName :=
  fun _ _ _ heq => ident_yields (parameter_apply_eq_some_iff.mp heq).2

theorem definition_yields (h : Yields expr Expr.WellFormed)
    (hblock : Yields block fun body => ∀ s ∈ body, s.WellFormed) :
    Yields (definition expr block) StmtForm := by
  refine ident_yields.bind fun name hname => parameter_yields.list.bind fun params hparams =>
    .after fun _ => hblock.maybe.bind fun body hbody => ?_
  cases body with
  | some body => exact .pure fun n hn => .defineBlock hname hparams (hbody body rfl) hn
  | none =>
    refine (localBindings_yields h).maybe.bind fun locals hlocals => h.bind fun value hvalue =>
      .pure fun n hn => .define hname hparams ?_ hvalue hn
    cases locals with
    | none => exact nofun
    | some locals => exact hlocals locals rfl

theorem branch_yields (h : Yields expr Expr.WellFormed)
    (hblock : Yields block fun body => ∀ s ∈ body, s.WellFormed) (fuel : Nat) :
    Yields (branch expr block fuel) StmtForm := by
  induction fuel with
  | zero => exact .reject
  | succ fuel ih =>
    refine .after fun _ => h.bind fun test htest => hblock.bind fun thenBody hthen =>
      .after fun behind => ?_
    cases behind with
    | none => exact .pure fun n hn => .branch htest hthen nofun hn
    | some _ =>
      refine hblock.maybe.bind fun elseBody helse => ?_
      cases elseBody with
      | some elseBody => exact .pure fun n hn => .branch htest hthen (helse elseBody rfl) hn
      | none =>
        refine (ih.spanned.token).bind fun further hfurther => .pure fun n hn =>
          .branch htest hthen ?_ hn
        simpa using hfurther _ rfl

theorem statement_yields (fuel : Nat) : Yields (statement fuel) Stmt.WellFormed := by
  induction fuel with
  | zero => exact .reject
  | succ fuel ih =>
    have hexpr := expression_yields (fuel + 1)
    have hblock : Yields (Grammar.block (statement fuel)) fun body => ∀ s ∈ body, s.WellFormed :=
      .after fun _ => ih.list.bind fun body hbody => .after fun _ => .pure hbody
    have hform : Yields (statementForm (fuel + 1) (statement fuel)) StmtForm := by
      apply Yields.choice
      simp only [List.forall_mem_cons]
      refine ⟨comment_yields, record_yields _, declaration_yields _, definition_yields hexpr hblock,
        ?ret, ?loop, branch_yields hexpr hblock _, ?bind, ?block, ?expr, nofun⟩
      case ret => exact hexpr.right.map fun e he n hn => .ret he hn
      case loop =>
        exact .after fun _ => hexpr.bind fun c hc => hblock.bind fun body hbody =>
          .pure fun n hn => .loop hc hbody hn
      case bind =>
        exact .after fun _ => (binding_yields hexpr).bind fun b hb => .pure fun n hn =>
          .bind hb.1 hb.2 hn
      case block => exact hblock.map fun body hbody n hn => .block hbody hn
      case expr => exact hexpr.map fun e he n hn => .expr he hn
    exact (hform.spanned.token).map fun _ hs => hs _ rfl

end Statements

end PCode.Grammar

namespace PCode

open PCode.Parser PCode.Grammar

/-- Every program that is read is well-formed. -/
theorem Program.parse_wellFormed {text : String} {program : Program}
    (h : Program.parse text = .ok program) : program.WellFormed := by
  have hstep : ∀ (ss : List Stmt) (n : Nat) (s : Stmt), (∀ s ∈ ss, s.WellFormed) →
      s.WellFormed → ∀ t ∈ s :: ss, t.WellFormed :=
    fun ss _ s hss hs => List.forall_mem_cons.mpr ⟨hs, hss⟩
  have hall := (statement_yields (text.toList.length + 1)).foldMatches (n := 0)
    (J := fun ss _ => ∀ s ∈ ss, Stmt.WellFormed s) hstep (text.toList.length + 1)
    (List.forall_mem_nil _) (Cursor.ofText text)
  unfold Program.parse at h
  dsimp only at h
  split at h
  · cases h
    intro s hs
    exact hall s (List.mem_reverse.mp hs)
  · cases h

end PCode
