import PCode.Proofs.Grammar.Programs

namespace PCode

/-- How tightly a binary operator binds. -/
def BinaryOp.level : BinaryOp → Nat
  | .or => 0
  | .and => 1
  | .eq | .ne => 2
  | .lt | .gt => 3
  | .add | .sub => 4
  | .mul | .div | .mod => 5

theorem BinaryOp.level_lt (op : BinaryOp) : op.level < 6 := by
  cases op <;> decide

namespace Expr

/-- Expressions over names, booleans and integers without a sign. -/
inductive Formula : Expr → Prop where
  | integer {v n} : 0 ≤ v.toInt → n.ty = .unknown → Formula (.integer v n)
  | boolean {v n} : n.ty = .unknown → Formula (.boolean v n)
  | name {x n} : IsName x → n.ty = .unknown → Formula (.name x n)
  | unary {op e n} : Formula e → n.ty = .unknown → Formula (.unary op e n)
  | binary {op l r n} : Formula l → Formula r → n.ty = .unknown → Formula (.binary op l r n)

/-- How tightly an expression holds together: as its operator binds, or tighter than all binary
operators. -/
def level : Expr → Nat
  | .binary op _ _ _ => op.level
  | _ => 6

/-- A formula as text, with a space behind a unary operator and on both sides of a binary one.
Parentheses stand around a binary operand of a unary operator, around an operand that binds looser
than the operator next to it, and around a right operand on the level of its operator. -/
def sparse : Expr → List Char
  | .integer v _ => integerText v
  | .boolean v _ => (toString v).toList
  | .name x _ => x.toList
  | .unary op e _ => op.symbol.toList ++ ' ' :: (if e.level < 6 then paren e.sparse else e.sparse)
  | .binary op l r _ =>
    (if l.level < op.level then paren l.sparse else l.sparse) ++
      ' ' :: (op.symbol.toList ++
        ' ' :: (if r.level ≤ op.level then paren r.sparse else r.sparse))
  | _ => []

/-- An expression as text in a place where it has to bind at least this tightly. -/
def guarded (k : Nat) (e : Expr) : List Char :=
  if e.level < k then paren e.sparse else e.sparse

theorem guarded_of_lt {k : Nat} {e : Expr} (h : e.level < k) : e.guarded k = paren e.sparse :=
  if_pos h

theorem guarded_of_le {k : Nat} {e : Expr} (h : k ≤ e.level) : e.guarded k = e.sparse :=
  if_neg (Nat.not_lt.mpr h)

theorem guarded_succ {k : Nat} {e : Expr} (h : e.level ≠ k) : e.guarded (k + 1) = e.guarded k := by
  by_cases hlt : e.level < k
  · rw [guarded_of_lt hlt, guarded_of_lt (Nat.lt_succ_of_lt hlt)]
  · rw [guarded_of_le (by omega), guarded_of_le (by omega)]

theorem sparse_unary (op : UnaryOp) (e : Expr) (n : Note) :
    (Expr.unary op e n).sparse = op.symbol.toList ++ ' ' :: e.guarded 6 := rfl

/-- An operator and its right operand, behind a left operand. -/
def stepText (p : BinaryOp × Expr) : List Char :=
  ' ' :: (p.1.symbol.toList ++ ' ' :: p.2.guarded (p.1.level + 1))

theorem sparse_binary (op : BinaryOp) (l r : Expr) (n : Note) :
    (Expr.binary op l r n).sparse = l.guarded op.level ++ stepText (op, r) := by
  simp only [sparse, guarded, stepText, Nat.lt_succ_iff]

/-- A further operator and its right operand, up to places. -/
def joined (left : Expr) (p : BinaryOp × Expr) : Expr :=
  .binary p.1 left p.2.unplaced bare

/-- At one level, an expression is its first operand with operators of that level behind it. -/
structure Chain (k : Nat) (e first : Expr) (steps : List (BinaryOp × Expr)) : Prop where
  text : e.guarded k = first.guarded (k + 1) ++ steps.flatMap stepText
  value : e.unplaced = steps.foldl joined first.unplaced
  first : first.Formula
  steps : ∀ p ∈ steps, p.1.level = k ∧ p.2.Formula

theorem Formula.chain {k : Nat} (hk : k < 6) {e : Expr} (h : e.Formula) :
    ∃ first steps, Chain k e first steps := by
  have hoperand : ∀ {e : Expr}, e.Formula → e.level ≠ k → ∃ first steps, Chain k e first steps := by
    intro e he hlevel
    refine ⟨e, [], ?_, rfl, he, List.forall_mem_nil _⟩
    rw [List.flatMap_nil, List.append_nil, guarded_succ hlevel]
  -- operators of one level group from the left, so the chain goes on in the left operand
  induction h with
  | integer hv hn => exact hoperand (.integer hv hn) (Nat.ne_of_gt hk)
  | boolean hn => exact hoperand (.boolean hn) (Nat.ne_of_gt hk)
  | name hx hn => exact hoperand (.name hx hn) (Nat.ne_of_gt hk)
  | unary he hn => exact hoperand (.unary he hn) (Nat.ne_of_gt hk)
  | @binary op l r n hl hr hn ihl _ =>
    by_cases hlevel : op.level = k
    · obtain ⟨first, steps, hchain⟩ := ihl
      refine ⟨first, steps ++ [(op, r)], ?_, ?_, hchain.first, ?_⟩
      · rw [guarded_of_le (Nat.le_of_eq hlevel.symm), sparse_binary, hlevel, hchain.text,
          List.flatMap_append, List.flatMap_singleton, List.append_assoc]
      · rw [List.foldl_append, ← hchain.value, unplaced, Grammar.unplaced_of_unknown hn]
        rfl
      · rw [List.forall_mem_append, List.forall_mem_singleton]
        exact ⟨hchain.steps, hlevel, hr⟩
    · exact hoperand (.binary hl hr hn) hlevel

end Expr

namespace Grammar

open PCode.Parser

section Levels

variable {k : Nat} {op : BinaryOp} {table : List BinaryOp}

theorem drop_levels (hk : k < 6) :
    ∃ table, levels.drop k = table :: levels.drop (k + 1) ∧ ∀ op, op ∈ table ↔ op.level = k := by
  match k, hk with
  | 0, _ | 1, _ | 2, _ | 3, _ | 4, _ | 5, _ =>
    refine ⟨_, rfl, ?_⟩
    intro op
    cases op <;> decide

theorem le_level_of_mem (ht : table ∈ levels.drop k) (hop : op ∈ table) : k ≤ op.level := by
  have hall : ∀ i : Fin 6, ∀ op ∈ levels[i], op.level = i := by decide
  obtain ⟨i, hi, rfl⟩ := List.mem_drop_iff_getElem.mp ht
  have hlevel := hall ⟨k + i, by simpa [levels, Nat.add_comm] using hi⟩ op hop
  exact hlevel ▸ Nat.le_add_right k i

end Levels

/-- What may stand behind an operand at this level: nothing, a closing parenthesis, or an operator
that binds looser. -/
inductive Stops (k : Nat) : List Char → Prop where
  | done : Stops k []
  | close (rest : List Char) : Stops k (')' :: rest)
  | operator {op : BinaryOp} (rest : List Char) : op.level < k →
      Stops k (' ' :: (op.symbol.toList ++ ' ' :: rest))

namespace Stops

variable {k k' : Nat} {rest : List Char}

theorem mono (h : Stops k rest) (hk : k ≤ k') : Stops k' rest := by
  cases h with
  | done => exact .done
  | close rest => exact .close rest
  | operator rest hop => exact .operator rest (Nat.lt_of_lt_of_le hop hk)

theorem step {p : BinaryOp × Expr} (hp : p.1.level < k) (rest : List Char) :
    Stops k (Expr.stepText p ++ rest) := by
  rw [Expr.stepText, List.cons_append, List.append_assoc, List.cons_append]
  exact .operator _ hp

theorem head (h : Stops k rest) (c : Char) (hc : rest.head? = some c) : c = ' ' ∨ c = ')' := by
  cases h with
  | done => cases hc
  | close => exact .inr (Option.some.inj hc).symm
  | operator => exact .inl (Option.some.inj hc).symm

theorem wordEnds (h : Stops k rest) : WordEnds rest := by
  intro c hc
  rcases h.head c hc with rfl | rfl <;> decide

theorem numeralEnds (h : Stops k rest) : NumeralEnds rest := by
  intro c hc
  rcases h.head c hc with rfl | rfl <;> decide

theorem suffixEnds (h : Stops k rest) : SuffixEnds rest := by
  intro c hc
  rcases h.head c hc with rfl | rfl <;> decide

theorem fails {α : Type} {p : Parser α} {S : Char → Bool} (h : Stops k rest) (hp : Begins p S)
    (hskips : Skips p) (hS : ∀ c ∈ ')' :: operatorStarts, S c = false) : Fails p rest := by
  cases h with
  | done => exact hp.fails nofun
  | close => exact hp.fails_cons rfl (hS _ List.mem_cons_self)
  | @operator op rest _ =>
    obtain ⟨c, hc, hhead⟩ := head_symbol op
    obtain ⟨text, htext⟩ := List.head?_eq_some_iff.mp hhead
    rw [htext, List.cons_append]
    refine (hp.fails_cons ?_ (hS c (List.mem_cons_of_mem _ hc))).space hskips rfl
    exact eq_false_of_mem hc (by decide)

theorem binaryOp_skips (table : List BinaryOp) : Skips (binaryOp table) := by
  apply Skips.choice
  intro p hp
  obtain ⟨op, -, rfl⟩ := List.mem_map.mp hp
  exact (op_skips _).map _

theorem binaryOp_fails (h : Stops k rest) {table : List BinaryOp} (ht : table ∈ levels.drop k) :
    Fails (binaryOp table) rest := by
  cases h with
  | done => exact Grammar.binaryOp_fails stmtEnds_nil.operator table
  | close rest => exact Grammar.binaryOp_fails (exprEnds_close rest).2 table
  | operator rest hop =>
    refine (binaryOp_fails_other fun hmem => ?_).space (binaryOp_skips table) rfl
    exact Nat.not_le.mpr hop (le_level_of_mem ht hmem)

theorem op_fails_colon {symbol : String} (h : Stops k rest)
    (hsymbol : symbol.toList.head? = some ':') : Fails (op symbol) rest := by
  have hne : symbol.toList ≠ [] := by
    intro hnil
    rw [hnil] at hsymbol
    cases hsymbol
  refine h.fails (op_begins hne) (op_skips symbol) ?_
  intro c hc
  rw [hsymbol]
  exact eq_false_of_mem (S := fun c => some ':' == some c) hc (by decide)

theorem ident_fails (h : Stops k rest) : Fails ident rest :=
  h.fails ident_begins ident_skips fun _ hc => eq_false_of_mem hc (by decide)

theorem op_fails_equals (h : Stops k rest) : Fails (op "=") rest := by
  cases h with
  | done => exact (op_begins (by decide)).fails nofun
  | close => exact op_fails_cons rfl (by decide) (by decide)
  | @operator op rest _ =>
    refine Fails.space ?_ (op_skips _) rfl
    by_cases heq : op = .eq
    · -- the second character makes a longer operator of the first
      rw [heq]
      exact fun _ => rfl
    · obtain ⟨c, hc, hhead⟩ := head_symbol op
      obtain ⟨text, htext⟩ := List.head?_eq_some_iff.mp hhead
      rw [htext, List.cons_append]
      refine op_fails_cons (eq_false_of_mem hc (by decide)) (by decide) ?_
      rw [← hhead, beq_eq_false_iff_ne]
      exact fun hequal => heq (head_symbol_inj hequal.symm : op = .eq)

end Stops

section Operands

variable {inner operand : Parser Expr} {e : Expr} {k : Nat} {rest : List Char}

theorem number_skips : Skips number := by
  intro cursor
  simp only [number, skipSpacing_skipSpacing]

theorem atom_skips : Skips (atom inner) := by
  have hnode : ∀ p : Parser (Note → Expr), Skips (node p) := fun p => (Skips.token _).map _
  apply Skips.choice
  simp only [List.forall_mem_cons]
  exact ⟨number_skips, hnode _, hnode _, hnode _, hnode _, hnode _, hnode _, hnode _,
    (punct_skips _).bind _, List.forall_mem_nil _⟩

theorem unary_skips (fuel : Nat) : Skips (unary inner fuel) := by
  cases fuel with
  | zero => exact fun _ => rfl
  | succ fuel =>
    refine Skips.alt ?_ ?_
    · unfold postfixed
      rw [andThen_eq_bind]
      exact atom_skips.bind _
    · intro cursor
      dsimp only
      rw [skipSpacing_skipSpacing]

theorem binary_skips (h : Skips operand) (levels : List (List BinaryOp)) :
    Skips (binary operand levels) := by
  induction levels with
  | nil => exact h
  | cons level tighter ih =>
    unfold binary chainLeft
    rw [andThen_eq_bind]
    exact ih.bind _

/-- At this level, an expression is read from its text in a place of that level. -/
def ReadsAt (operand : Parser Expr) (k : Nat) (e : Expr) : Prop :=
  ∀ rest, Stops k rest → Reads (binary operand (levels.drop k)) (SameAs e) (e.guarded k) rest

theorem unplaced_foldl {as steps : List (BinaryOp × Expr)}
    (h : as.map (fun p => (p.1, p.2.unplaced)) = steps.map fun p => (p.1, p.2.unplaced))
    (first : Expr) :
    (as.foldl applyBinary first).unplaced = steps.foldl Expr.joined first.unplaced := by
  induction steps generalizing as first with
  | nil =>
    rw [List.map_eq_nil_iff.mp h]
    rfl
  | cons p steps ih =>
    obtain ⟨a, as, rfl, ha, has⟩ := List.map_eq_cons_iff.mp h
    rw [List.foldl_cons, List.foldl_cons, ih has, applyBinary, Expr.unplaced, Expr.joined,
      ← (Prod.mk.inj ha).1, ← (Prod.mk.inj ha).2]
    rfl

theorem readsAt_of_chain {first : Expr} {steps : List (BinaryOp × Expr)} (hk : k < 6)
    (hchain : e.Chain k first steps) (hskips : Skips operand)
    (hfirst : ReadsAt operand (k + 1) first)
    (hsteps : ∀ p ∈ steps, ReadsAt operand (k + 1) p.2) : ReadsAt operand k e := by
  intro rest hrest
  obtain ⟨table, htable, hmem⟩ := drop_levels hk
  have heach : ReadsEach (pair (binaryOp table) (binary operand (levels.drop (k + 1))))
      (fun p => (p.1, p.2.unplaced)) (Stops (k + 1)) (fun p => (p.1, p.2.unplaced))
      Expr.stepText steps := by
    intro p hp
    have hlevel := (hchain.steps p hp).1
    refine ⟨List.cons_ne_nil _ _, Stops.step (by omega), fun rest hrest => ?_⟩
    have hop := binaryOp_reads ((hmem p.1).mpr hlevel)
      (opEnds_cons (p.2.guarded (k + 1) ++ rest) (c := ' ') (by decide))
    have hright := (hsteps p hp rest hrest).space (binary_skips hskips _) (c := ' ') rfl
    rw [Expr.stepText, hlevel]
    refine ((hop.space (Stops.binaryOp_skips table) (c := ' ') rfl).pair hright).imp ?_
    rintro a ⟨ha, hright⟩
    exact Prod.ext ha hright
  have hend : Fails (pair (binaryOp table) (binary operand (levels.drop (k + 1)))) rest :=
    pair_fails (hrest.binaryOp_fails (htable ▸ List.mem_cons_self))
  have hstops := hrest.mono (Nat.le_succ k)
  rw [htable, hchain.text]
  unfold binary chainLeft
  rw [andThen_eq_bind]
  refine Reads.bind (hfirst _ (heach.follows hstops)) fun first' hfirst' => ?_
  refine (heach.many applyBinary hstops hend first').imp ?_
  rintro a ⟨as, has, ha⟩
  rw [SameAs, ha, unplaced_foldl has, hfirst', hchain.value]

/-- What stands in parentheses is read if it has no more characters than this with them. -/
def ReadsWithin (inner : Parser Expr) (size : Nat) : Prop :=
  ∀ e : Expr, e.Formula → e.sparse.length + 2 ≤ size →
    ∀ rest, Reads inner (SameAs e) e.sparse (')' :: rest)

theorem operand_reads {size fuel : Nat} (hinner : ReadsWithin inner size) (h : e.Formula)
    (hsize : (e.guarded 6).length ≤ size) (hfuel : (e.guarded 6).length < fuel)
    (hrest : Stops 6 rest) : Reads (unary inner fuel) (SameAs e) (e.guarded 6) rest := by
  have hatom : ∀ {e : Expr} {text : List Char} {fuel : Nat}, text.length < fuel →
      Reads (atom inner) (SameAs e) text rest → Reads (unary inner fuel) (SameAs e) text rest := by
    intro e text fuel hfuel hread
    obtain ⟨fuel, rfl⟩ := Nat.exists_eq_succ_of_ne_zero (Nat.ne_of_gt (Nat.zero_lt_of_lt hfuel))
    exact unary_of_postfixed (postfixed_of_atom hread hrest.suffixEnds) fuel
  induction h generalizing fuel with
  | @integer v _ _ hn => exact hatom hfuel (integer_reads v hn hrest.numeralEnds)
  | @boolean v _ hn => exact hatom hfuel (boolean_reads v hn hrest.wordEnds)
  | name hx hn =>
    refine hatom hfuel (name_reads hx hn hrest.wordEnds fun hhead => ?_)
    rcases hrest.head _ hhead with hc | hc <;> cases hc
  | @unary op e n _ hn ih =>
    rw [Expr.guarded_of_le (Nat.le_refl 6), Expr.sparse_unary] at hsize hfuel ⊢
    rw [List.length_append, List.length_cons] at hsize hfuel
    obtain ⟨fuel, rfl⟩ := Nat.exists_eq_succ_of_ne_zero (Nat.ne_of_gt (Nat.zero_lt_of_lt hfuel))
    have hread : Reads (Grammar.unary inner fuel) (SameAs e) (e.guarded 6) rest :=
      ih (by omega) (by omega)
    exact unary_of_operator op (by decide) (by decide) (hread.space (unary_skips fuel) rfl) hn
  | @binary op l r n hl hr hn =>
    rw [Expr.guarded_of_lt op.level_lt] at hsize hfuel ⊢
    refine hatom hfuel (atom_reads_paren (hinner _ (.binary hl hr hn) ?_ rest))
    rwa [length_paren] at hsize

/-- From the tightest level to the loosest, each chain is read. -/
theorem readsAt_of_within {size fuel : Nat} (hinner : ReadsWithin inner size) (hk : k ≤ 6)
    (h : e.Formula) (hsize : (e.guarded k).length ≤ size) (hfuel : (e.guarded k).length < fuel) :
    ReadsAt (unary inner fuel) k e := by
  obtain ⟨d, hd⟩ := Nat.exists_eq_add_of_le hk
  induction d generalizing k e with
  | zero =>
    obtain rfl : k = 6 := hd.symm
    exact fun rest hrest => operand_reads hinner h hsize hfuel hrest
  | succ d ih =>
    have hk : k < 6 := by omega
    obtain ⟨first, steps, hchain⟩ := h.chain hk
    rw [hchain.text, List.length_append] at hsize hfuel
    refine readsAt_of_chain hk hchain (unary_skips fuel)
      (ih (by omega) hchain.first (by omega) (by omega) (by omega)) ?_
    intro p hp
    obtain ⟨hlevel, hformula⟩ := hchain.steps p hp
    have hlength := length_le_flatMap Expr.stepText hp
    rw [Expr.stepText, hlevel, List.length_cons, List.length_append, List.length_cons] at hlength
    exact ih (by omega) hformula (by omega) (by omega) (by omega)

end Operands

/-- How the text of a formula starts: with no comment, no block and no statement of a keyword. If it
starts with a name, then no declaration, definition or assignment of it. -/
structure FormulaStart (text : List Char) : Prop where
  start : ∃ c, text.head? = some c ∧ Text.isSpacing c = false ∧ c ∉ ['#', '\x7b']
  keyword : ∀ k ∈ ["set", "return", "while", "if", "let"], Fails (keyword k) text
  name : Fails ident text ∨ ∃ x rest, IsName x ∧ text = x.toList ++ rest ∧ Stops 6 rest

section Starts

variable {text rest : List Char}

theorem FormulaStart.ahead (h : FormulaStart text) : ahead text = text.head? := by
  obtain ⟨c, hhead, hspace, -⟩ := h.start
  obtain ⟨behind, rfl⟩ := List.head?_eq_some_iff.mp hhead
  exact ahead_cons behind hspace

theorem FormulaStart.fails_start {α : Type} {p : Parser α} {S : Char → Bool} (h : FormulaStart text)
    (hp : Begins p S) (hS : ∀ c, S c = true → c ∈ ['#', '\x7b']) : Fails p text := by
  obtain ⟨c, hhead, -, hc⟩ := h.start
  apply hp.fails
  intro d hd
  rw [h.ahead, hhead] at hd
  cases hd
  exact Bool.eq_false_iff.mpr fun htrue => hc (hS c htrue)

theorem formulaStart_word {w : String} (hw : IsWord w)
    (hkeyword : ∀ k ∈ ["set", "return", "while", "if", "let"], w ≠ k) (hrest : Stops 6 rest)
    (hname : Fails ident (w.toList ++ rest) ∨ IsName w) : FormulaStart (w.toList ++ rest) := by
  refine ⟨?_, fun k hk => keyword_fails hw (hkeyword k hk) hrest.wordEnds, ?_⟩
  · obtain ⟨c, -, hhead, hc, -⟩ := hw.ahead rest
    refine ⟨c, hhead, isSpacing_of_isWordChar hc, fun hmem => ?_⟩
    rw [eq_false_of_mem (S := isWordChar) hmem (by decide)] at hc
    cases hc
  · exact hname.imp_right fun hw => ⟨w, rest, hw, rfl, hrest⟩

theorem formulaStart_symbol {c : Char} (hc : c ∈ ['(', '-', '+', '!']) :
    FormulaStart (c :: text) := by
  have hspace : Text.isSpacing c = false := eq_false_of_mem hc (by decide)
  have hword : isWordChar c = false := eq_false_of_mem hc (by decide)
  refine ⟨⟨c, rfl, hspace, fun hmem => ?_⟩,
    fun k _ => (keyword_begins k).fails_cons hspace hword,
    .inl (ident_begins.fails_cons hspace hword)⟩
  have hother := eq_false_of_mem (S := fun d => ['#', '\x7b'].contains d) hc (by decide)
  simp [hmem] at hother

theorem formulaStart_integer {v : Int64} (hv : 0 ≤ v.toInt) (hrest : Stops 6 rest) :
    FormulaStart (integerText v ++ rest) := by
  have htext : integerText v = Nat.toDigits 10 v.toInt.natAbs := by
    rw [integerText, decide_eq_false (by omega)]
    rfl
  have hword : Fails word (integerText v ++ rest) := by
    rw [htext]
    exact word_fails_digits Nat.toDigits_ne_nil isDigit_of_mem_toDigits hrest.wordEnds
  refine ⟨?_, fun k _ => (hword.verify _).map _, .inl (hword.verify _)⟩
  obtain ⟨c, digits, hdigits⟩ := List.exists_cons_of_ne_nil (@Nat.toDigits_ne_nil v.toInt.natAbs 10)
  have hc := isWordChar_of_isDigit (isDigit_of_mem_toDigits c (hdigits ▸ List.mem_cons_self))
  refine ⟨c, by rw [htext, hdigits]; rfl, isSpacing_of_isWordChar hc, fun hmem => ?_⟩
  rw [eq_false_of_mem (S := isWordChar) hmem (by decide)] at hc
  cases hc

theorem formulaStart_sparse {e : Expr} (h : e.Formula) (hrest : Stops 6 rest) :
    FormulaStart (e.sparse ++ rest) := by
  induction h generalizing rest with
  | integer hv _ => exact formulaStart_integer hv hrest
  | @boolean v _ _ =>
    have hword : toString v ∈ keywords := by cases v <;> decide
    refine formulaStart_word (isWord_of_mem_keywords hword) (by cases v <;> decide) hrest (.inl ?_)
    exact ident_fails hword hrest.wordEnds
  | @name x _ hx _ =>
    refine formulaStart_word (isWord_of_isName hx) (fun k hk heq => ?_) hrest (.inr hx)
    have hkeyword : ∀ k ∈ ["set", "return", "while", "if", "let"], k ∈ keywords := by decide
    exact hx.keyword (heq ▸ hkeyword k hk)
  | @unary op =>
    obtain ⟨c, hc, hsymbol⟩ := symbol_unary op
    rw [Expr.sparse_unary, hsymbol]
    exact formulaStart_symbol (List.mem_cons_of_mem _ hc)
  | @binary op l r n hl hr hn ihl _ =>
    rw [Expr.sparse_binary, List.append_assoc]
    by_cases hlevel : l.level < op.level
    · rw [Expr.guarded_of_lt hlevel]
      exact formulaStart_symbol List.mem_cons_self
    · -- the left operand goes first, and an operator follows it
      rw [Expr.guarded_of_le (Nat.not_lt.mp hlevel)]
      exact ihl (Stops.step op.level_lt rest)

theorem FormulaStart.assignment_fails {inner : Parser Expr} (h : FormulaStart text) :
    Fails (assignment inner) text := by
  rcases h.name with hident | ⟨x, rest, hx, rfl, hrest⟩
  · exact Grammar.assignment_fails hident
  · exact assignment_fails_name hx hrest.wordEnds (hrest.op_fails_colon rfl)

theorem FormulaStart.declaration_fails {ty : Parser Ty} (h : FormulaStart text) :
    Fails (declaration ty) text := by
  rcases h.name with hident | ⟨x, rest, hx, rfl, hrest⟩
  · exact hident.bind _
  · exact (ident_reads hx hrest.wordEnds).bind_fails fun _ _ => (hrest.op_fails_colon rfl).bind _

theorem FormulaStart.definition_fails {expr : Parser Expr} {body : Parser (List Stmt)}
    (h : FormulaStart text) : Fails (definition expr body) text := by
  rcases h.name with hident | ⟨x, rest, hx, rfl, hrest⟩
  · exact hident.bind _
  · have hparams := (readsEach_params (List.forall_mem_nil IsName)).list hrest.wordEnds
      (parameter_fails hrest.ident_fails)
    exact (ident_reads hx hrest.wordEnds).bind_fails fun _ _ =>
      Reads.bind_fails (s := []) hparams fun _ _ => hrest.op_fails_equals.bind _

end Starts

section Statements

variable {e : Expr} {fuel : Nat} {rest : List Char}

/-- With more fuel than it has characters, a formula is read. -/
theorem expression_reads_sparse (h : e.Formula) (hfuel : e.sparse.length ≤ fuel)
    (hrest : Stops 0 rest) : Reads (expression (fuel + 1)) (SameAs e) e.sparse rest := by
  induction fuel using Nat.strongRecOn generalizing e rest with
  | _ fuel ih =>
    -- in parentheses there are fewer characters
    have hinner : ReadsWithin (expression fuel) fuel := by
      intro e' he' hsize rest'
      obtain ⟨f, rfl⟩ : ∃ f, fuel = f + 1 := ⟨fuel - 1, by omega⟩
      exact ih f (Nat.lt_succ_self f) he' (by omega) (.close rest')
    have hguarded : e.guarded 0 = e.sparse := Expr.guarded_of_le (Nat.zero_le _)
    have hlength : (e.guarded 0).length ≤ fuel := by rwa [hguarded]
    have hread : Reads (binary (unary (expression fuel) (fuel + 1)) levels) (SameAs e) e.sparse
        rest := by
      have hat := readsAt_of_within hinner (Nat.zero_le 6) h hlength (Nat.lt_succ_of_le hlength)
        rest hrest
      rwa [hguarded] at hat
    have hstart := formulaStart_sparse h (hrest.mono (Nat.zero_le 6))
    exact Reads.alt_right hstart.assignment_fails hread

theorem statement_reads_sparse (h : e.Formula) (hfuel : e.sparse.length ≤ fuel) :
    Reads (statement (fuel + 1)) (fun s => ∃ a note, s = .expr a note ∧ SameAs e a)
      e.sparse [] := by
  have hstart := formulaStart_sparse h (.done : Stops 6 [])
  have hkeyword := hstart.keyword
  simp only [List.forall_mem_cons] at hkeyword
  obtain ⟨hset, hreturn, hwhile, hif, hlet, -⟩ := hkeyword
  refine Reads.map (Reads.token (Reads.spanned (P := fun form => ∀ note, ∃ a note', form note =
    Stmt.expr a note' ∧ SameAs e a) ?_) hstart.ahead) fun a ha => ha _
  refine Reads.alt_right (hstart.fails_start comment_begins (by simp)) <|
    Reads.alt_right (hset.bind _) <|
    Reads.alt_right hstart.declaration_fails <|
    Reads.alt_right hstart.definition_fails <|
    Reads.alt_right ((pair_fails hreturn).map _ |>.map _) <|
    Reads.alt_right (hwhile.bind _) <|
    Reads.alt_right (hif.bind _) <|
    Reads.alt_right (hlet.bind _) <|
    Reads.alt_right ((hstart.fails_start block_begins (by simp)).map _) <|
    Reads.alt_left ?_
  exact (expression_reads_sparse h hfuel .done).map fun a ha note => ⟨a, note, rfl, ha⟩

end Statements

end Grammar

open PCode.Parser PCode.Grammar in
/-- A formula with no more parentheses than it needs is read as one statement, which is the formula
up to places. -/
theorem Program.parse_sparse {e : Expr} (h : e.Formula) :
    ∃ a note, Program.parse (String.ofList e.sparse) = .ok [.expr a note] ∧
      a.unplaced = e.unplaced := by
  have hread := statement_reads_sparse h (Nat.le_refl e.sparse.length)
  have hne : e.sparse ≠ [] := by
    obtain ⟨c, hc, -⟩ := (formulaStart_sparse h (.done : Stops 6 [])).start
    intro hnil
    rw [hnil] at hc
    cases hc
  have hend : Fails (statement (e.sparse.length + 1)) [] := (statement_begins _).fails nofun
  have hall : Reads (many (statement (e.sparse.length + 1)) [] fun items s => s :: items)
      (fun b => ∃ s, (∃ a note, s = Stmt.expr a note ∧ SameAs e a) ∧ b = [s]) e.sparse [] :=
    many_one hread hne hend
  obtain ⟨_, hmany, _, ⟨a, note, rfl, ha⟩, rfl⟩ := hall 0
  refine ⟨a, note, ?_, ha⟩
  rw [List.append_nil] at hmany
  simp only [many, Option.some.injEq, Prod.mk.injEq] at hmany
  simp only [Program.parse, Cursor.ofText, String.toList_ofList, hmany.1, hmany.2]
  rfl

/-- An expression with operators of every level, two of which need parentheses. -/
def levelsSample : Expr :=
  .binary .or
    (.unary .not
      (.binary .eq (.name "a" bare)
        (.binary .sub (.integer 1 bare)
          (.binary .mul (.binary .sub (.integer 2 bare) (.name "b" bare) bare)
            (.unary .neg (.name "c" bare) bare) bare) bare) bare) bare)
    (.binary .and (.boolean true bare)
      (.binary .lt (.binary .sub (.binary .add (.name "d" bare) (.integer 3 bare) bare)
        (.name "e" bare) bare) (.integer 0 bare) bare) bare) bare

theorem levelsSample_formula : levelsSample.Formula :=
  .binary
    (.unary (.binary (.name (by decide) rfl) (.binary (.integer (by decide) rfl)
      (.binary (.binary (.integer (by decide) rfl) (.name (by decide) rfl) rfl)
        (.unary (.name (by decide) rfl) rfl) rfl) rfl) rfl) rfl)
    (.binary (.boolean rfl)
      (.binary (.binary (.binary (.name (by decide) rfl) (.integer (by decide) rfl) rfl)
        (.name (by decide) rfl) rfl) (.integer (by decide) rfl) rfl) rfl) rfl

theorem parse_sparse_levels :
    levelsSample.Formula ∧
      String.ofList levelsSample.sparse =
        "! (a == 1 - (2 - b) * - c) || true && d + 3 - e < 0" ∧
      ∃ a note, Program.parse (String.ofList levelsSample.sparse) = .ok [.expr a note] ∧
        a.unplaced = levelsSample.unplaced :=
  ⟨levelsSample_formula, by decide +kernel, Program.parse_sparse levelsSample_formula⟩

end PCode
