import Mathlib.Data.List.Induction
import PCode.Proofs.Grammar.CutExpressions

namespace PCode

/-- The note of a node that is read from a whole text. -/
def Note.whole (text : String) : Note :=
  ⟨⟨0, text.utf8ByteSize⟩, .unknown⟩

theorem byteLength_toList (text : String) : byteLength text.toList = text.utf8ByteSize := by
  have hlist : ∀ chars : List Char, byteLength chars = (String.ofList chars).utf8ByteSize := by
    intro chars
    induction chars with
    | nil => simp [byteLength]
    | cons c chars ih =>
      rw [byteLength, ih, ← List.singleton_append, String.ofList_append, String.utf8ByteSize_append,
        ← String.singleton_eq_ofList, String.utf8ByteSize_singleton]
  rw [hlist, String.ofList_toList]

namespace Grammar

open PCode.Parser

section Alone

variable {stop : Cursor} {e : Expr} {text : List Char}

theorem choice_append_of_fails {α : Type} {ps : List (Parser α)} (h : ∀ p ∈ ps, Fails p text)
    (qs : List (Parser α)) (offset : Nat) :
    choice (ps ++ qs) ⟨offset, text⟩ = choice qs ⟨offset, text⟩ := by
  induction ps with
  | nil => rfl
  | cons p ps ih =>
    rw [List.forall_mem_cons] at h
    exact (alt_apply_of_none (h.1 offset)).trans (ih h.2)

/-- No word, no comment and no block starts here. -/
structure ValueStart (text : List Char) : Prop where
  word : Fails word text
  comment : Fails comment text
  block (inner : Parser Stmt) : Fails (block inner) text
  solid : ahead text = text.head?

theorem valueStart_cons {c : Char} (hspace : Text.isSpacing c = false) (hc : c ∉ ['#', '\x7b'])
    (hword : Fails Grammar.word (c :: text)) : ValueStart (c :: text) := by
  simp only [List.mem_cons, List.not_mem_nil, or_false, not_or] at hc
  refine ⟨hword, comment_begins.fails_cons hspace ?_,
    fun _ => block_begins.fails_cons hspace ?_, ahead_cons _ hspace⟩
  · exact beq_eq_false_iff_ne.mpr fun h => hc.1 (Option.some.inj h).symm
  · exact beq_eq_false_iff_ne.mpr fun h => hc.2 (Option.some.inj h).symm

theorem ValueStart.statementForm (h : ValueStart text) {inner : Parser Stmt} (fuel offset : Nat) :
    statementForm fuel inner ⟨offset, text⟩ = map (expression fuel) .expr ⟨offset, text⟩ := by
  have hident : Fails ident text := h.word.verify _
  have hkeyword : ∀ k, Fails (keyword k) text := fun k => (h.word.verify _).map _
  have hbranch : Fails (branch (expression fuel) (Grammar.block inner) fuel) text := by
    cases fuel with
    | zero => exact fun _ => rfl
    | succ fuel => exact (hkeyword _).bind _
  have hothers : ∀ p ∈ [Grammar.comment, record (type fuel), declaration (type fuel),
      definition (expression fuel) (Grammar.block inner), returning (expression fuel),
      loop (expression fuel) (Grammar.block inner),
      branch (expression fuel) (Grammar.block inner) fuel, bindStatement (expression fuel),
      map (Grammar.block inner) .block], Fails p text := by
    simp only [List.forall_mem_cons]
    exact ⟨h.comment, (hkeyword _).bind _, hident.bind _, hident.bind _,
      ((pair_fails (hkeyword _)).map _).map _, (hkeyword _).bind _, hbranch, (hkeyword _).bind _,
      (h.block inner).map _, List.forall_mem_nil _⟩
  have hlast := choice_append_of_fails hothers [map (expression fuel) .expr] offset
  rwa [choice_singleton] at hlast

theorem ValueStart.readStmt_eq (h : ValueStart text) (offset : Nat) :
    readStmt ⟨offset, text⟩ = (readExpr ⟨offset, text⟩).map fun r =>
      (.expr r.1 ⟨Span.between offset r.2.offset, .unknown⟩, r.2) := by
  simp only [readStmt, readExpr, statement, map, token, skipSpacing_of_ahead h.solid, spanned,
    h.statementForm]
  cases expression (text.length + 1) ⟨offset, text⟩ with
  | none => rfl
  | some r => rfl

theorem readExpr_of_atom {offset : Nat} (hword : Fails word text)
    (h : atom readExpr ⟨offset, text⟩ = some (e, stop)) (hstop : stop.rest = []) :
    readExpr ⟨offset, text⟩ = some (e, stop) := by
  obtain ⟨last, rest⟩ := stop
  obtain rfl : rest = [] := hstop
  have hassign : assignment readExpr ⟨offset, text⟩ = none :=
    assignment_eq_none (hword.verify _ offset)
  have hoperator : ∀ o : BinaryOp, Fails (op o.symbol) [] := fun o =>
    (op_begins (symbol_ne_nil o)).fails nofun
  rw [readExpr_eq, alt_apply_of_none hassign]
  exact binary_of_readOperand (readOperand_of_atom h (suffix_fails stmtEnds_nil.expr.1 last))
    (fun o => hoperator o last) levels

end Alone

end Grammar

namespace Program

open PCode.Parser PCode.Grammar

variable {text : String}

theorem parse_of_atom {e : Expr} (hstart : ValueStart text.toList) (hne : text.toList ≠ [])
    (h : atom readExpr (Cursor.ofText text) = some (e, ⟨text.utf8ByteSize, []⟩)) :
    Program.parse text = .ok [.expr e (Note.whole text)] := by
  have hfirst : statement (text.toList.length + 1) ⟨0, text.toList⟩ = _ := hstart.readStmt_eq 0
  rw [readExpr_of_atom hstart.word h rfl] at hfirst
  -- behind the text there is no other statement
  have hend : Fails (statement (text.toList.length + 1)) [] := (statement_begins _).fails nofun
  have hlast := hend text.utf8ByteSize
  have hmoved : text.utf8ByteSize ≠ 0 := by
    rw [← byteLength_toList]
    exact Nat.ne_of_gt (byteLength_pos hne)
  obtain ⟨count, hcount⟩ := Nat.exists_eq_succ_of_ne_zero (List.length_pos_iff.mpr hne).ne'
  have hall : repeated (statement (text.toList.length + 1)) [] (fun items s => s :: items)
      ⟨0, text.toList⟩ = ([.expr e (Note.whole text)], 1, ⟨text.utf8ByteSize, []⟩) := by
    rw [repeated]
    simp only [hcount, foldMatches] at hfirst hlast ⊢
    simp only [hfirst, Option.map_some, hlast, hmoved, if_false]
    rfl
  simp only [Program.parse, Cursor.ofText, hall]
  rfl

theorem parse_of_none (hstart : ValueStart text.toList) (hne : text.toList ≠ [])
    (h : readExpr ⟨0, text.toList⟩ = none) : Program.parse text = .error ⟨0⟩ := by
  have hnone : statement (text.toList.length + 1) ⟨0, text.toList⟩ = _ := hstart.readStmt_eq 0
  rw [h, Option.map_none] at hnone
  have hall : repeated (statement (text.toList.length + 1)) [] (fun items s => s :: items)
      ⟨0, text.toList⟩ = ([], 0, ⟨0, text.toList⟩) := by
    rw [repeated]
    simp only [foldMatches, hnone]
  have hrest : Cursor.skipSpacing ⟨0, text.toList⟩ = ⟨0, text.toList⟩ :=
    skipSpacing_of_ahead hstart.solid
  simp only [Program.parse, Cursor.ofText, hall, hrest, Cursor.isEmpty, List.isEmpty_iff, hne,
    if_false]

end Program

/-- A decimal numeral: a minus sign or none, and one or more ASCII digits. -/
structure Decimal where
  negative : Bool
  digits : List Char
  nonempty : digits ≠ []
  decimal : ∀ c ∈ digits, c.isDigit = true

namespace Decimal

open PCode.Parser PCode.Grammar

def text (d : Decimal) : String :=
  String.ofList (Grammar.signText d.negative ++ d.digits)

/-- The integer that a numeral denotes. -/
def value (d : Decimal) : Int :=
  if d.negative then -(Nat.ofDigitChars 10 d.digits 0 : Int) else Nat.ofDigitChars 10 d.digits 0

/-- A 64-bit word can hold the integer. -/
def Fits (d : Decimal) : Prop :=
  Int64.minValue.toInt ≤ d.value ∧ d.value ≤ Int64.maxValue.toInt

instance (d : Decimal) : Decidable d.Fits :=
  inferInstanceAs (Decidable (_ ∧ _))

/-- The numeral without its sign. -/
def unsigned (d : Decimal) : Decimal :=
  { d with negative := false }

theorem toList_text (d : Decimal) :
    d.text.toList = Grammar.signText d.negative ++ d.digits := by
  rw [text, String.toList_ofList]

theorem exists_digit (d : Decimal) : ∃ c chars, d.digits = c :: chars ∧ c.isDigit = true := by
  obtain ⟨c, chars, hdigits⟩ := List.exists_cons_of_ne_nil d.nonempty
  exact ⟨c, chars, hdigits, d.decimal c (by rw [hdigits]; exact List.mem_cons_self)⟩

theorem text_ne_nil (d : Decimal) : d.text.toList ≠ [] := by
  rw [toList_text]
  exact List.append_ne_nil_of_right_ne_nil _ d.nonempty

theorem valueStart (d : Decimal) : ValueStart d.text.toList := by
  obtain ⟨c, chars, hdigits, hc⟩ := d.exists_digit
  have hends : WordEnds [] := nofun
  have hword := word_fails_digits d.nonempty d.decimal hends
  rw [hdigits, List.append_nil] at hword
  rw [toList_text, hdigits]
  cases d.negative with
  | true => exact valueStart_cons rfl (by decide) (word_begins.fails_cons rfl (by decide))
  | false =>
    refine valueStart_cons (isSpacing_of_isWordChar (isWordChar_of_isDigit hc))
      (fun hmem => ?_) hword
    rw [eq_false_of_mem (S := Char.isDigit) hmem (by decide)] at hc
    cases hc

theorem integer?_eq (d : Decimal) (n : Int64) :
    (Numeral.mk d.negative d.digits none).integer? = some n ↔ n.toInt = d.value := by
  have hvalue : (if d.negative then -(Text.spelled 10 d.digits : Int)
      else (Text.spelled 10 d.digits : Int)) = d.value := by
    rw [spelled_eq_ofDigitChars d.decimal, value]
  simp only [Numeral.integer?, Text.word?, hvalue]
  have hlow := n.le_toInt
  have hhigh := n.toInt_lt
  constructor
  · intro h
    split at h
    · rename_i hfits
      cases h
      rw [Int64.toInt_ofInt_of_le] <;> simp at hfits <;> omega
    · cases h
  · intro h
    rw [← h, if_pos (by simp; omega), Int64.ofInt_toInt]

theorem fits_iff (d : Decimal) : d.Fits ↔ ∃ n : Int64, n.toInt = d.value := by
  have hmin : Int64.minValue.toInt = -0x8000000000000000 := by decide
  have hmax : Int64.maxValue.toInt = 0x7fffffffffffffff := by decide
  constructor
  · rintro ⟨hlow, hhigh⟩
    exact ⟨Int64.ofInt d.value, Int64.toInt_ofInt_of_le (by omega) (by omega)⟩
  · rintro ⟨n, hn⟩
    have hlow := n.le_toInt
    have hhigh := n.toInt_lt
    unfold Fits
    omega

theorem number_apply (d : Decimal) :
    number (Cursor.ofText d.text) = (Numeral.mk d.negative d.digits none).integer?.map fun n =>
      (.integer n (Note.whole d.text), ⟨d.text.utf8ByteSize, []⟩) := by
  have hends : NumeralEnds [] := nofun
  obtain ⟨m, hm, rfl⟩ := numeral_reads d.negative d.nonempty d.decimal hends 0
  rw [← toList_text, byteLength_toList, List.append_nil, Nat.zero_add] at hm
  rw [number, Cursor.ofText, skipSpacing_of_ahead d.valueStart.solid]
  simp only [hm, Cursor.spanTo, Span.between, Nat.sub_zero]
  rfl

theorem number_of_eq {d : Decimal} {n : Int64} (h : n.toInt = d.value) :
    number (Cursor.ofText d.text) =
      some (.integer n (Note.whole d.text), ⟨d.text.utf8ByteSize, []⟩) := by
  rw [number_apply, (d.integer?_eq n).mpr h]
  rfl

theorem fits_of_readExpr {d : Decimal} {r : Expr × Cursor}
    (h : readExpr ⟨0, d.text.toList⟩ = some r) : d.Fits := by
  obtain ⟨c, chars, hdigits, hc⟩ := d.exists_digit
  obtain ⟨e, m, hoperand, -⟩ := readOperand_of_readExpr h (d.valueStart.word.verify _ 0)
  have hnumber : ∃ e k, number (Cursor.ofText d.text) = some (e, k) := by
    rw [toList_text, hdigits] at hoperand
    rw [Cursor.ofText, toList_text, hdigits]
    cases hsign : d.negative with
    | false =>
      rw [hsign] at hoperand
      exact number_of_readOperand List.head?_cons hc hoperand
    | true =>
      rw [hsign] at hoperand
      exact number_of_minus (m := ⟨1, c :: chars⟩) rfl rfl rfl hc hoperand
  obtain ⟨e, k, hnumber⟩ := hnumber
  rw [number_apply, Option.map_eq_some_iff] at hnumber
  obtain ⟨n, hn, -⟩ := hnumber
  exact d.fits_iff.mpr ⟨n, (d.integer?_eq n).mp hn⟩

end Decimal

/-- The decimal text of a cell. -/
def Decimal.ofCell (n : Int64) : Decimal where
  negative := n.toInt < 0
  digits := Nat.toDigits 10 n.toInt.natAbs
  nonempty := Nat.toDigits_ne_nil
  decimal := Grammar.isDigit_of_mem_toDigits

theorem Decimal.text_ofCell (n : Int64) : (Decimal.ofCell n).text = toString n := by
  have hrepr : ∀ i : Int, String.ofList (Grammar.signText (i < 0) ++ Nat.toDigits 10 i.natAbs) =
      i.repr := by
    intro i
    cases i with
    | ofNat m => exact (Nat.repr_eq_ofList_toDigits).symm
    | negSucc m =>
      rw [decide_eq_true (Int.negSucc_lt_zero m), String.ofList_append, Int.repr,
        Nat.repr_eq_ofList_toDigits]
      rfl
  exact (hrepr n.toInt).trans Int.toString_eq_repr.symm

theorem Decimal.value_ofCell (n : Int64) : (Decimal.ofCell n).value = n.toInt := by
  have hdigits : Nat.ofDigitChars 10 (ofCell n).digits 0 = n.toInt.natAbs :=
    Nat.ofDigitChars_toDigits (by decide) (by decide)
  have hsign : (ofCell n).negative = decide (n.toInt < 0) := rfl
  rw [value, hdigits, hsign]
  by_cases hneg : n.toInt < 0
  · rw [if_pos (decide_eq_true hneg)]
    omega
  · rw [if_neg (by simpa using hneg)]
    omega

open PCode.Parser PCode.Grammar in
theorem Program.parse_decimal {d : Decimal} {n : Int64} (h : n.toInt = d.value) :
    Program.parse d.text = .ok [.expr (.integer n (Note.whole d.text)) (Note.whole d.text)] :=
  parse_of_atom d.valueStart d.text_ne_nil (alt_apply_of_some (Decimal.number_of_eq h))

open PCode.Parser PCode.Grammar in
/-- Integer literals are exact. The decimal text of a cell is one statement, that integer. A numeral
that denotes an integer in range is read as that integer, and one that is out of range is not read
at all, neither as a number nor as a minus sign in front of one. -/
theorem Program.parse_integer_literals :
    (∀ n : Int64, Program.parse (toString n) =
      .ok [.expr (.integer n (Note.whole (toString n))) (Note.whole (toString n))]) ∧
    ∀ d : Decimal,
      (d.Fits → ∃ n : Int64, n.toInt = d.value ∧
        number (Cursor.ofText d.text) =
          some (.integer n (Note.whole d.text), ⟨d.text.utf8ByteSize, []⟩) ∧
        Program.parse d.text = .ok [.expr (.integer n (Note.whole d.text)) (Note.whole d.text)]) ∧
      (¬ d.Fits → Program.parse d.text = .error ⟨0⟩) := by
  refine ⟨fun n => ?_, fun d => ⟨fun h => ?_, fun h => ?_⟩⟩
  · rw [← Decimal.text_ofCell]
    exact parse_decimal (Decimal.value_ofCell n).symm
  · obtain ⟨n, hn⟩ := d.fits_iff.mp h
    exact ⟨n, hn, Decimal.number_of_eq hn, parse_decimal hn⟩
  · refine parse_of_none d.valueStart d.text_ne_nil (Option.eq_none_iff_forall_ne_some.mpr ?_)
    exact fun r hr => h (Decimal.fits_of_readExpr hr)

/-- The least integer of a cell, with a zero in front. -/
def leastDecimal : Decimal where
  negative := true
  digits := "09223372036854775808".toList
  nonempty := by decide
  decimal := List.all_eq_true.mp (by decide)

theorem Program.parse_integer_literals_least :
    leastDecimal.text = "-09223372036854775808" ∧ leastDecimal.Fits ∧
      (∃ n : Int64, n.toInt = leastDecimal.value ∧ Program.parse leastDecimal.text =
        .ok [.expr (.integer n (Note.whole leastDecimal.text)) (Note.whole leastDecimal.text)]) ∧
      ¬ leastDecimal.unsigned.Fits ∧ Program.parse leastDecimal.unsigned.text = .error ⟨0⟩ := by
  have hfits : leastDecimal.Fits := by decide +kernel
  have hnot : ¬ leastDecimal.unsigned.Fits := by decide +kernel
  obtain ⟨n, hn, -, hparse⟩ := (Program.parse_integer_literals.2 leastDecimal).1 hfits
  exact ⟨by decide +kernel, hfits, ⟨n, hn, hparse⟩, hnot,
    (Program.parse_integer_literals.2 leastDecimal.unsigned).2 hnot⟩

namespace Grammar

open PCode.Parser

section Strings

variable {cursor stop : Cursor} {text body : List Char}

theorem stringChar_spells {c : Char} (h : stringChar cursor = some (c, stop)) :
    ∃ piece, Spells c piece ∧ cursor.Between stop piece := by
  have hescape : ∀ {symbol : String} {d : Char},
      map (literal symbol) (fun _ => d) cursor = some (c, stop) →
      d = c ∧ cursor.Between stop symbol.toList := by
    intro symbol d hmap
    rw [map_eq_bind, bind_apply_eq_some_iff] at hmap
    obtain ⟨value, mid, hliteral, hpure⟩ := hmap
    obtain ⟨hd, rfl⟩ := pure_apply_eq_some_iff.mp hpure
    exact ⟨hd, literal_text hliteral⟩
  rw [stringChar, choice] at h
  rcases alt_apply_eq_some h with h | h
  · obtain ⟨rfl, htext⟩ := hescape h
    exact ⟨_, .newline, htext⟩
  rcases alt_apply_eq_some h with h | h
  · obtain ⟨rfl, htext⟩ := hescape h
    exact ⟨_, .tab, htext⟩
  rcases alt_apply_eq_some h with h | h
  · obtain ⟨rfl, htext⟩ := hescape h
    exact ⟨_, .backslash, htext⟩
  rcases alt_apply_eq_some h with h | h
  · obtain ⟨rfl, htext⟩ := hescape h
    exact ⟨_, .quote, htext⟩
  · rw [choice_singleton, satisfy_apply_eq_some_iff] at h
    obtain ⟨hc, htext⟩ := h
    simp only [Bool.and_eq_true, bne_iff_ne] at hc
    exact ⟨[c], .plain hc.1 hc.2, htext⟩

theorem spellsText_nil : SpellsText [] [] :=
  ⟨[], List.forall_mem_nil _, rfl, rfl⟩

theorem SpellsText.cons {c : Char} {piece : List Char} (hc : Spells c piece)
    (h : SpellsText text body) : SpellsText (c :: text) (piece ++ body) := by
  obtain ⟨pieces, hpieces, rfl, rfl⟩ := h
  exact ⟨(c, piece) :: pieces, List.forall_mem_cons.mpr ⟨hc, hpieces⟩, rfl, rfl⟩

theorem spellsText_of_matches {chars : List Char} (h : Matches stringChar cursor chars stop) :
    ∃ body, SpellsText chars body ∧ cursor.Between stop body := by
  induction h with
  | nil => exact ⟨[], spellsText_nil, rfl, rfl⟩
  | cons hfirst _ ih =>
    obtain ⟨piece, hpiece, htext⟩ := stringChar_spells hfirst
    obtain ⟨body, hbody, hrest⟩ := ih
    exact ⟨piece ++ body, hbody.cons hpiece, htext.append hrest⟩

theorem quoted_apply_eq_some_iff {value : String} :
    quoted cursor = some (value, stop) ↔
      ∃ body, SpellsText value.toList body ∧ cursor.Between stop (inQuotes body) := by
  constructor
  · intro h
    obtain ⟨_, first, hopen, h⟩ := bind_apply_eq_some_iff.mp h
    obtain ⟨contents, last, hmany, h⟩ := bind_apply_eq_some_iff.mp h
    obtain ⟨_, behind, hclose, h⟩ := bind_apply_eq_some_iff.mp h
    obtain ⟨rfl, rfl⟩ := pure_apply_eq_some_iff.mp h
    obtain ⟨chars, hchars, rfl⟩ := (many_apply_eq_some_iff stringChar_advances).mp hmany
    obtain ⟨body, hbody, htext⟩ := spellsText_of_matches hchars
    rw [foldl_push, String.toList_ofList]
    exact ⟨body, hbody, (literal_text hopen).append (htext.append (literal_text hclose))⟩
  · rintro ⟨body, hbody, hrest, hoffset⟩
    have hreads : Reads quoted (fun a => a = value) (inQuotes body) stop.rest := hbody.reads
    obtain ⟨a, ha, rfl⟩ := hreads cursor.offset
    rw [← hrest, ← hoffset] at ha
    exact ha

/-- The backslashes in a row at the end of a text. -/
def backslashes (before : List Char) : Nat :=
  (before.reverse.takeWhile (· == '\\')).length

/-- What follows is not escaped: the backslashes before it are escapes of each other. -/
def Unescaped (before : List Char) : Prop :=
  backslashes before % 2 = 0

theorem backslashes_concat (before : List Char) :
    backslashes (before ++ ['\\']) = backslashes before + 1 := by
  simp [backslashes]

theorem backslashes_concat_of_ne {c : Char} (hc : c ≠ '\\') (before : List Char) :
    backslashes (before ++ [c]) = 0 := by
  simp [backslashes, hc]

theorem Spells.unescaped {c : Char} {piece : List Char} (hc : Spells c piece)
    (h : Unescaped body) : Unescaped (body ++ piece) := by
  have hescape : ∀ {d : Char}, d ≠ '\\' → Unescaped (body ++ ['\\', d]) := by
    intro d hd
    rw [Unescaped, List.append_cons, backslashes_concat_of_ne hd]
  cases hc with
  | newline => exact hescape (by decide)
  | tab => exact hescape (by decide)
  | quote => exact hescape (by decide)
  | backslash =>
    rw [Unescaped, List.append_cons, backslashes_concat, backslashes_concat]
    unfold Unescaped at h
    omega
  | plain _ hbackslash => rw [Unescaped, backslashes_concat_of_ne hbackslash]

theorem Spells.quote_behind {c : Char} {piece before after : List Char} (hc : Spells c piece)
    (h : piece = before ++ '"' :: after) : before = ['\\'] := by
  have hescape : ∀ d : Char, ['\\', d] = before ++ '"' :: after → before = ['\\'] := by
    intro d hd
    rcases before with _ | ⟨c, _ | ⟨d, before⟩⟩
    · cases hd
    · cases hd
      rfl
    · simp at hd
  cases hc with
  | newline | tab | backslash | quote => exact hescape _ h
  | plain hquote =>
    cases before with
    | nil =>
      cases h
      exact absurd rfl hquote
    | cons d before => simp at h

theorem SpellsText.first_unescaped (h : SpellsText text body) : Unescaped body ∧
    ∀ before after, body = before ++ '"' :: after → ¬ Unescaped before := by
  obtain ⟨pieces, hpieces, -, rfl⟩ := h
  -- the last piece is taken off, since only what stands before a quote tells whether it is escaped
  induction pieces using List.reverseRecOn with
  | nil => exact ⟨rfl, by simp⟩
  | append_singleton pieces piece ih =>
    rw [List.forall_mem_append, List.forall_mem_singleton] at hpieces
    obtain ⟨hends, hquotes⟩ := ih hpieces.1
    rw [List.flatMap_append, List.flatMap_singleton]
    refine ⟨hpieces.2.unescaped hends, fun before after hbody => ?_⟩
    rcases List.append_eq_append_iff.mp hbody with ⟨behind, rfl, hpiece⟩ | ⟨front, hfront, hquote⟩
    · rw [hpieces.2.quote_behind hpiece, Unescaped, backslashes_concat]
      unfold Unescaped at hends
      omega
    · cases front with
      | nil =>
        have hnil : ([] : List Char) = ['\\'] := hpieces.2.quote_behind hquote.symm
        cases hnil
      | cons c front =>
        cases hquote
        exact hquotes before front hfront

end Strings

end Grammar

open PCode.Parser PCode.Grammar in
theorem Program.parse_quoted {value : String} {body : List Char}
    (h : SpellsText value.toList body) :
    Program.parse (String.ofList (inQuotes body)) =
      .ok [.expr (.text value (Note.whole (String.ofList (inQuotes body))))
        (Note.whole (String.ofList (inQuotes body)))] := by
  have hlist : (String.ofList (inQuotes body)).toList = inQuotes body := String.toList_ofList
  have hstart : ValueStart (inQuotes body) :=
    valueStart_cons rfl (by decide) (word_begins.fails_cons rfl (by decide))
  have hquoted : quoted ⟨0, inQuotes body⟩ =
      some (value, ⟨(String.ofList (inQuotes body)).utf8ByteSize, []⟩) := by
    refine quoted_apply_eq_some_iff.mpr ⟨body, h, (List.append_nil _).symm, ?_⟩
    rw [← byteLength_toList, hlist]
    exact (Nat.zero_add _).symm
  have hnode : node (map quoted .text) ⟨0, inQuotes body⟩ =
      some (.text value (Note.whole (String.ofList (inQuotes body))),
        ⟨(String.ofList (inQuotes body)).utf8ByteSize, []⟩) := by
    simp only [node, map, token, skipSpacing_of_ahead hstart.solid, spanned, hquoted]
    rfl
  have hnumber : number ⟨0, inQuotes body⟩ = none := number_begins.fails_cons rfl (by decide) 0
  refine parse_of_atom (by rwa [hlist]) (by rw [hlist]; exact List.cons_ne_nil _ _) ?_
  rw [Cursor.ofText, hlist, atom, choice, alt_apply_of_none hnumber]
  exact alt_apply_of_some hnode

open PCode.Parser PCode.Grammar in
/-- String literals are decoded. Every spelling of a text, between quotes, is one statement, that
text; every text has a spelling. A string is read exactly where a spelling stands between quotes,
and reading ends behind the first quote that is not escaped. -/
theorem Program.parse_string_literals :
    (∀ value : String, (∃ body, SpellsText value.toList body) ∧
      ∀ body, SpellsText value.toList body →
        Program.parse (String.ofList (inQuotes body)) =
          .ok [.expr (.text value (Note.whole (String.ofList (inQuotes body))))
            (Note.whole (String.ofList (inQuotes body)))]) ∧
    ∀ cursor : Cursor,
      ((∃ value stop, quoted cursor = some (value, stop)) ↔
        ∃ text body rest, SpellsText text body ∧ cursor.rest = inQuotes body ++ rest) ∧
      ∀ value stop, quoted cursor = some (value, stop) →
        ∃ body, cursor.Between stop (inQuotes body) ∧ SpellsText value.toList body ∧
          Unescaped body ∧ ∀ before after, body = before ++ '"' :: after → ¬ Unescaped before := by
  refine ⟨fun value => ⟨⟨_, spellsText_escape _⟩, fun body => parse_quoted⟩, fun cursor =>
    ⟨⟨?_, ?_⟩, ?_⟩⟩
  · rintro ⟨value, stop, h⟩
    obtain ⟨body, hbody, htext, -⟩ := quoted_apply_eq_some_iff.mp h
    exact ⟨value.toList, body, stop.rest, hbody, htext⟩
  · rintro ⟨text, body, rest, hbody, hrest⟩
    refine ⟨String.ofList text, ⟨cursor.offset + byteLength (inQuotes body), rest⟩, ?_⟩
    refine quoted_apply_eq_some_iff.mpr ⟨body, ?_, hrest, rfl⟩
    rwa [String.toList_ofList]
  · intro value stop h
    obtain ⟨body, hbody, htext⟩ := quoted_apply_eq_some_iff.mp h
    exact ⟨body, htext, hbody, hbody.first_unescaped⟩

/-- A backslash and a quote, and two newlines of which one is escaped. -/
def spelledSample : List (Char × List Char) :=
  [('\\', ['\\', '\\']), ('"', ['\\', '"']), ('\n', ['\\', 'n']), ('\n', ['\n'])]

open PCode.Grammar in
theorem Program.parse_string_literals_sample :
    ∃ body, body = "\\\\\\\"\\n\n".toList ∧ SpellsText "\\\"\n\n".toList body ∧
      Program.parse (String.ofList (inQuotes body)) =
        .ok [.expr (.text "\\\"\n\n" (Note.whole (String.ofList (inQuotes body))))
          (Note.whole (String.ofList (inQuotes body)))] ∧
      ∃ value stop, quoted ⟨0, inQuotes body ++ ['"']⟩ = some (value, stop) := by
  have hspells : SpellsText "\\\"\n\n".toList (spelledSample.flatMap Prod.snd) := by
    refine ⟨spelledSample, ?_, by decide, rfl⟩
    simp only [spelledSample, List.forall_mem_cons]
    exact ⟨.backslash, .quote, .newline, .plain (by decide) (by decide), List.forall_mem_nil _⟩
  exact ⟨_, by decide, hspells, (Program.parse_string_literals.1 _).2 _ hspells,
    (Program.parse_string_literals.2 _).1.mpr ⟨_, _, ['"'], hspells, rfl⟩⟩

end PCode
