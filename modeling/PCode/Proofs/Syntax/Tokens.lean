import Mathlib.Data.Bool.AllAny
import PCode.Proofs.Grammar.Literals
import PCode.Syntax.Printer

namespace PCode

namespace Text

section Quoting

/-- The characters that are quoted by one letter behind a backslash. -/
def letters : List (Char × Char) :=
  [('\x00', '0'), ('\t', 't'), ('\r', 'r'), ('\n', 'n'), ('\\', '\\'), ('"', '"')]

/-- The three ways in which a character is quoted. -/
inductive Quotes : Char → List Char → Prop where
  | letter {c k : Char} : (c, k) ∈ letters → Quotes c ['\\', k]
  | plain {c : Char} : c ≠ '\\' → c ≠ '"' → Quotes c [c]
  | code (c : Char) : Quotes c ('\\' :: 'u' :: '\x7b' :: (Nat.toDigits 16 c.toNat ++ ['\x7d']))

theorem quotes_quoteChar (c : Char) : Quotes c (quoteChar c) := by
  unfold quoteChar
  iterate 6
    split
    · subst_vars
      exact .letter (by decide)
  split
  · exact .plain ‹_› ‹_›
  · exact .code c

theorem hex_digits (n : Nat) :
    spelled 16 (Nat.toDigits 16 n) = n ∧ '\x7d' ∉ Nat.toDigits 16 n := by
  have hdigit : ∀ k < 16, digitValue (Nat.digitChar k) = k := by decide
  induction n using Nat.strongRecOn with
  | ind n ih =>
    rw [Nat.toDigits_eq_if (by decide)]
    split
    · rename_i hlt
      exact ⟨by simp [spelled, hdigit n hlt], by simp⟩
    · -- the last digit is the remainder, and the others spell the quotient
      obtain ⟨hquotient, hbraces⟩ := ih (n / 16) (by omega)
      constructor
      · rw [spelled, List.foldl_append, ← spelled, hquotient, List.foldl_cons, List.foldl_nil,
          hdigit (n % 16) (Nat.mod_lt n (by decide))]
        omega
      · simp [hbraces]

variable {c d : Char} {p q r s : List Char}

theorem append_inj_of_stops {S : Char → Prop} (hp : ∀ c ∈ p, ¬ S c) (hq : ∀ c ∈ q, ¬ S c)
    (hr : ∀ c, r.head? = some c → S c) (hs : ∀ c, s.head? = some c → S c)
    (h : p ++ r = q ++ s) : p = q ∧ r = s := by
  induction p generalizing q with
  | nil =>
    cases q with
    | nil => exact ⟨rfl, h⟩
    | cons d q =>
      rw [List.nil_append] at h
      exact absurd (hr d (by rw [h]; rfl)) (hq d List.mem_cons_self)
  | cons c p ih =>
    cases q with
    | nil =>
      rw [List.nil_append] at h
      exact absurd (hs c (by rw [← h]; rfl)) (hp c List.mem_cons_self)
    | cons d q =>
      rw [List.forall_mem_cons] at hp hq
      simp only [List.cons_append, List.cons.injEq] at h
      obtain ⟨rfl, hrest⟩ := h
      obtain ⟨rfl, hrs⟩ := ih hp.2 hq.2 hrest
      exact ⟨rfl, hrs⟩

theorem Quotes.inj (hc : Quotes c p) (hd : Quotes d q) (h : p ++ r = q ++ s) : c = d ∧ r = s := by
  have hletters : ∀ a ∈ letters, a.2 ≠ 'u' ∧ ∀ b ∈ letters, a.2 = b.2 → a.1 = b.1 := by decide
  cases hc with
  | letter hk =>
    cases hd with
    | letter hk' =>
      simp only [List.cons_append, List.nil_append, List.cons.injEq, true_and] at h
      exact ⟨(hletters _ hk).2 _ hk' h.1, h.2⟩
    | plain hbackslash =>
      cases h
      exact absurd rfl hbackslash
    | code =>
      cases h
      exact absurd rfl (hletters _ hk).1
  | plain hbackslash =>
    cases hd with
    | letter | code =>
      cases h
      exact absurd rfl hbackslash
    | plain => exact List.cons.inj h
  | code =>
    cases hd with
    | letter hk =>
      cases h
      exact absurd rfl (hletters _ hk).1
    | plain hbackslash =>
      cases h
      exact absurd rfl hbackslash
    | code =>
      simp only [List.cons_append, List.append_assoc, List.nil_append, List.cons.injEq,
        true_and] at h
      -- the digits end at the brace
      have hbrace : ∀ n, ∀ k ∈ Nat.toDigits 16 n, ¬ k = '\x7d' := by
        rintro n k hk rfl
        exact (hex_digits n).2 hk
      obtain ⟨hdigits, hrs⟩ := append_inj_of_stops (hbrace _) (hbrace _) (by simp) (by simp) h
      have hcode := congrArg (spelled 16) hdigits
      rw [(hex_digits _).1, (hex_digits _).1] at hcode
      exact ⟨Char.toNat_inj.mp hcode, (List.cons.inj hrs).2⟩

theorem Quotes.head_ne (hc : Quotes c p) : p.head? ≠ some '"' ∧ p ≠ [] := by
  cases hc with
  | letter | code => exact ⟨by simp, List.cons_ne_nil _ _⟩
  | plain _ hquote => exact ⟨by simpa using hquote, List.cons_ne_nil _ _⟩

/-- The end of a quoted text is the first quote that is not part of a character. -/
theorem quoted_inj {text other : List Char}
    (h : text.flatMap quoteChar ++ '"' :: r = other.flatMap quoteChar ++ '"' :: s) :
    text = other ∧ r = s := by
  have hend : ∀ {c : Char} {chars r s : List Char}, '"' :: r ≠ quoteChar c ++ chars ++ s := by
    intro c chars r s heq
    obtain ⟨hhead, hne⟩ := (quotes_quoteChar c).head_ne
    obtain ⟨k, rest, hk⟩ := List.exists_cons_of_ne_nil hne
    rw [hk] at hhead heq
    cases heq
    exact hhead rfl
  induction text generalizing other with
  | nil =>
    cases other with
    | nil =>
      cases h
      exact ⟨rfl, rfl⟩
    | cons d other => exact absurd h hend
  | cons c text ih =>
    cases other with
    | nil => exact absurd h.symm hend
    | cons d other =>
      rw [List.flatMap_cons, List.flatMap_cons, List.append_assoc, List.append_assoc] at h
      obtain ⟨rfl, hrest⟩ := (quotes_quoteChar c).inj (quotes_quoteChar d) h
      obtain ⟨rfl, hrs⟩ := ih hrest
      exact ⟨rfl, hrs⟩

end Quoting

end Text

/-- The tokens of a printed expression. -/
inductive Token where
  | integer (value : Int64)
  | real (bits : Int64)
  | text (value : String)
  | word (w : String)
  | symbol (x : String)

namespace Token

open PCode.Grammar

def chars : Token → List Char
  | .integer value => (toString value).toList
  | .real bits => (Real.render bits).toList
  | .text value => (Text.quote value).toList
  | .word w => w.toList
  | .symbol x => x.toList

/-- The symbols that stand at the start of an operation. -/
def symbols : List String :=
  ["+", "-", "!", "||", "&&", "==", "!=", "<", ">", "*", "/", "%", ".", ":=", "\\", "@"]

/-- Tokens that can be told from their text. -/
def Legible : Token → Prop
  | .integer _ | .text _ => True
  | .real _ => False
  | .word w => IsWord w
  | .symbol x => x ∈ symbols

/-- The characters between tokens. -/
def separators : List Char :=
  [' ', ')', ']', '(', '[']

/-- The characters that are in no token but a quoted text. -/
def marks : List Char :=
  '"' :: separators

variable {t u : Token} {w x : String} {r s : List Char}

theorem chars_integer (n : Int64) :
    (Token.integer n).chars =
      Grammar.signText (Decimal.ofCell n).negative ++ (Decimal.ofCell n).digits := by
  rw [chars, ← Decimal.text_ofCell, Decimal.toList_text]

theorem chars_text (v : String) :
    (Token.text v).chars = '"' :: (v.toList.flatMap Text.quoteChar ++ ['"']) := by
  rw [chars, Text.quote, String.toList_ofList]
  rfl

/-- A token other than a quoted text is a row of characters that are no marks. -/
def Solid (chars : List Char) : Prop :=
  chars ≠ [] ∧ ∀ c ∈ chars, c ∉ marks

theorem solid_symbol (h : x ∈ symbols) : Solid x.toList := by
  have hall : ∀ x ∈ symbols, x.toList ≠ [] ∧ x.toList.all (· ∉ marks) = true := by decide
  exact ⟨(hall x h).1, List.all_iff_forall_prop.mp (hall x h).2⟩

theorem solid_word (h : IsWord w) : Solid w.toList := by
  refine ⟨h.nonempty, fun c hc hmark => ?_⟩
  have hmarks : ∀ c ∈ marks, isWordChar c = false := List.all_iff_forall_prop.mp (by decide)
  have hchar := h.chars c hc
  rw [hmarks c hmark] at hchar
  cases hchar

theorem integer_inj {n m : Int64} (h : toString n = toString m) : n = m := by
  have hn := Program.parse_decimal (Decimal.value_ofCell n).symm
  have hm := Program.parse_decimal (Decimal.value_ofCell m).symm
  rw [Decimal.text_ofCell] at hn hm
  rw [h, hm] at hn
  simp only [Except.ok.injEq, List.cons.injEq, Stmt.expr.injEq, Expr.integer.injEq] at hn
  exact hn.1.1.1.symm

theorem integer_chars (n : Int64) :
    (∃ c ∈ (Token.integer n).chars, c.isDigit = true) ∧
      ∀ c ∈ (Token.integer n).chars, c = '-' ∨ c.isDigit = true := by
  have hdecimal := (Decimal.ofCell n).decimal
  obtain ⟨d, digits, hdigits⟩ := List.exists_cons_of_ne_nil (Decimal.ofCell n).nonempty
  have hd : d ∈ (Decimal.ofCell n).digits := by
    rw [hdigits]
    exact List.mem_cons_self
  rw [chars_integer]
  refine ⟨⟨d, List.mem_append_right _ hd, hdecimal d hd⟩, fun c hc => ?_⟩
  rcases List.mem_append.mp hc with hsign | hdigit
  · left
    unfold Grammar.signText at hsign
    split at hsign
    · exact List.mem_singleton.mp hsign
    · cases hsign
  · exact .inr (hdecimal c hdigit)

theorem solid_integer (n : Int64) : Solid (Token.integer n).chars := by
  obtain ⟨⟨d, hd, -⟩, hchars⟩ := integer_chars n
  refine ⟨List.ne_nil_of_mem hd, fun c hc hmark => ?_⟩
  have hmarks : ∀ c ∈ marks, c ≠ '-' ∧ c.isDigit = false :=
    List.all_iff_forall_prop.mp (by decide)
  rcases hchars c hc with hminus | hdigit
  · exact (hmarks c hmark).1 hminus
  · rw [(hmarks c hmark).2] at hdigit
    cases hdigit

theorem text_or_solid (h : t.Legible) : (∃ value, t = .text value) ∨ Solid t.chars := by
  cases t with
  | integer n => exact .inr (solid_integer n)
  | real => exact h.elim
  | text value => exact .inl ⟨value, rfl⟩
  | word w => exact .inr (solid_word h)
  | symbol x => exact .inr (solid_symbol h)

theorem head_chars (h : t.Legible) : ∃ c rest, t.chars = c :: rest ∧ c ∉ separators := by
  rcases text_or_solid h with ⟨v, rfl⟩ | hsolid
  · exact ⟨'"', _, chars_text v, by decide⟩
  · obtain ⟨c, rest, hc⟩ := List.exists_cons_of_ne_nil hsolid.1
    have hmark := hsolid.2 c (by rw [hc]; exact List.mem_cons_self)
    exact ⟨c, rest, hc, fun hmem => hmark (List.mem_cons_of_mem _ hmem)⟩

/-- What the characters of a token tell of it: whether letters or digits are among them, and whether
it starts with a letter. -/
def kind (chars : List Char) : Bool × Bool :=
  (chars.any isWordChar, isWordChar (chars.headD ' ') && !(chars.headD ' ').isDigit)

/-- The kind of the tokens that have no quotes. -/
def sort : Token → Bool × Bool
  | .integer _ => (true, false)
  | .word _ => (true, true)
  | .symbol _ => (false, false)
  | .real _ | .text _ => (false, true)

theorem kind_word (h : IsWord w) : kind w.toList = (true, true) := by
  obtain ⟨c, rest, hw⟩ := List.exists_cons_of_ne_nil h.nonempty
  have hstart := h.start
  have hchar := h.chars c (by rw [hw]; exact List.mem_cons_self)
  rw [hw, List.headD_cons] at hstart
  simp [kind, hw, hchar, hstart]

theorem kind_integer (n : Int64) : kind (Token.integer n).chars = (true, false) := by
  obtain ⟨⟨d, hd, hdigit⟩, hchars⟩ := integer_chars n
  obtain ⟨c, rest, hc⟩ := List.exists_cons_of_ne_nil (List.ne_nil_of_mem hd)
  have hany := List.any_eq_true.mpr ⟨d, hd, isWordChar_of_isDigit hdigit⟩
  rw [kind, hany, hc, List.headD_cons]
  rcases hchars c (by rw [hc]; exact List.mem_cons_self) with rfl | hdigit
  · decide
  · rw [hdigit, Bool.not_true, Bool.and_false]

theorem not_solid_text (v : String) : ¬ Solid (Token.text v).chars := by
  rw [chars_text]
  exact fun h => h.2 '"' List.mem_cons_self (by decide)

theorem kind_chars (h : t.Legible) (hsolid : Solid t.chars) : kind t.chars = t.sort := by
  have hsymbols : ∀ x ∈ symbols, kind x.toList = (false, false) := by decide
  cases t with
  | integer n => exact kind_integer n
  | real => exact h.elim
  | text v => exact absurd hsolid (not_solid_text v)
  | word w => exact kind_word h
  | symbol x => exact hsymbols x h

theorem eq_of_chars (ht : t.Legible) (hu : u.Legible) (hsolid : Solid t.chars)
    (h : t.chars = u.chars) : t = u := by
  have hsort : t.sort = u.sort := by rw [← kind_chars ht hsolid, h, kind_chars hu (h ▸ hsolid)]
  cases t with
  | integer n =>
    cases u with
    | integer m => rw [integer_inj (String.toList_injective h)]
    | _ => cases hsort
  | word w =>
    cases u with
    | word => rw [String.toList_injective h]
    | _ => cases hsort
  | symbol x =>
    cases u with
    | symbol => rw [String.toList_injective h]
    | _ => cases hsort
  | real => exact ht.elim
  | text v => exact absurd hsolid (not_solid_text v)

/-- What follows a token: nothing, a space or a closing bracket. -/
def Ends (rest : List Char) : Prop :=
  ∀ c, rest.head? = some c → c ∈ [' ', ')', ']']

theorem chars_append_inj (ht : t.Legible) (hu : u.Legible) (hr : Ends r) (hs : Ends s)
    (h : t.chars ++ r = u.chars ++ s) : t = u ∧ r = s := by
  have hmixed : ∀ {v : String} {p r s : List Char}, Solid p →
      (Token.text v).chars ++ r ≠ p ++ s := by
    intro v p r s hp heq
    obtain ⟨c, p, rfl⟩ := List.exists_cons_of_ne_nil hp.1
    rw [chars_text, List.cons_append, List.cons_append] at heq
    obtain ⟨rfl, -⟩ := List.cons.inj heq
    exact hp.2 _ List.mem_cons_self (by decide)
  rcases text_or_solid ht with ⟨v, rfl⟩ | hsolid
  · rcases text_or_solid hu with ⟨v', rfl⟩ | hsolid'
    · rw [chars_text, chars_text, List.cons_append, List.cons_append, List.append_assoc,
        List.append_assoc] at h
      obtain ⟨htext, hrs⟩ := Text.quoted_inj (List.cons.inj h).2
      exact ⟨by rw [String.toList_injective htext], hrs⟩
    · exact absurd h (hmixed hsolid')
  · rcases text_or_solid hu with ⟨v', rfl⟩ | hsolid'
    · exact absurd h.symm (hmixed hsolid)
    · have hmarks : ∀ c ∈ [' ', ')', ']'], c ∈ marks := List.all_iff_forall_prop.mp (by decide)
      obtain ⟨htu, hrs⟩ := Text.append_inj_of_stops hsolid.2 hsolid'.2
        (fun c hc => hmarks c (hr c hc)) (fun c hc => hmarks c (hs c hc)) h
      exact ⟨eq_of_chars ht hu hsolid htu, hrs⟩

end Token

/-- A printed expression: a token, or items in brackets, round or square. -/
inductive Datum where
  | token (token : Token)
  | row (square : Bool) (items : List Datum)

/-- Texts with single spaces between them. -/
def spacedChars : List (List Char) → List Char
  | [] => []
  | first :: others => first ++ others.flatMap (' ' :: ·)

theorem toList_spaced (words : List String) :
    (spaced words).toList = spacedChars (words.map String.toList) := by
  have hothers : ∀ (first : List Char) (others : List (List Char)),
      [' '].intercalate (first :: others) = first ++ others.flatMap (' ' :: ·) := by
    intro first others
    induction others generalizing first with
    | nil => simp
    | cons second others ih =>
      rw [List.intercalate_cons_cons, ih]
      simp
  rw [spaced, String.toList_intercalate]
  cases words with
  | nil => rfl
  | cons first others => exact hothers _ _

namespace Datum

open Token (Ends)

def opening (square : Bool) : Char :=
  if square then '[' else '('

def closing (square : Bool) : Char :=
  if square then ']' else ')'

mutual

def text : Datum → List Char
  | .token t => t.chars
  | .row square items => opening square :: (spacedChars (texts items) ++ [closing square])

def texts : List Datum → List (List Char)
  | [] => []
  | d :: ds => d.text :: texts ds

end

mutual

/-- All tokens can be told from their text. -/
def Legible : Datum → Prop
  | .token t => t.Legible
  | .row _ items => AllLegible items

def AllLegible : List Datum → Prop
  | [] => True
  | d :: ds => d.Legible ∧ AllLegible ds

end

theorem opening_mem (square : Bool) : opening square ∈ Token.separators := by
  cases square <;> decide

theorem opening_inj {square square' : Bool} (h : opening square = opening square') :
    square = square' := by
  revert h
  cases square <;> cases square' <;> decide

theorem closing_ne_space (square : Bool) : closing square ≠ ' ' := by
  cases square <;> decide

theorem head_text {d : Datum} (h : d.Legible) :
    ∃ c rest, d.text = c :: rest ∧ c ≠ ' ' ∧ ∀ square, c ≠ closing square := by
  cases d with
  | token t =>
    obtain ⟨c, rest, hc, hsep⟩ := Token.head_chars h
    refine ⟨c, rest, hc, ?_, fun square => ?_⟩
    · rintro rfl
      exact hsep (by decide)
    · rintro rfl
      revert hsep
      cases square <;> decide
  | row square items =>
    refine ⟨opening square, _, rfl, ?_, fun square' => ?_⟩
    · cases square <;> decide
    · cases square <;> cases square' <;> decide

variable {d : Datum} {ds : List Datum} {square : Bool} {r s : List Char}

theorem token_ne_row {t : Token} (h : t.Legible) :
    (token t).text ++ r ≠ (row square ds).text ++ s := by
  intro heq
  obtain ⟨c, rest, hc, hsep⟩ := Token.head_chars h
  rw [text, text, hc] at heq
  obtain ⟨rfl, -⟩ := List.cons.inj heq
  exact hsep (opening_mem square)

theorem closing_ne_items (h : d.Legible) :
    closing square :: r ≠ spacedChars (texts (d :: ds)) ++ s := by
  intro heq
  obtain ⟨c, rest, hc, -, hclosing⟩ := head_text h
  rw [texts, spacedChars, hc] at heq
  exact hclosing square (List.cons.inj heq).1.symm

/-- Items behind the first, each behind a space, and the closing bracket. -/
def tail (square : Bool) (items : List Datum) (rest : List Char) : List Char :=
  (texts items).flatMap (' ' :: ·) ++ closing square :: rest

theorem tail_cons (square : Bool) (d : Datum) (ds : List Datum) (rest : List Char) :
    tail square (d :: ds) rest = ' ' :: (d.text ++ tail square ds rest) := by
  simp [tail, texts]

theorem ends_tail (square : Bool) (ds : List Datum) (rest : List Char) :
    Ends (tail square ds rest) := by
  intro c hc
  cases ds with
  | nil =>
    cases hc
    cases square <;> decide
  | cons d ds =>
    rw [tail_cons] at hc
    cases hc
    decide

mutual

theorem text_append_inj : ∀ {a b : Datum} {r s : List Char}, a.Legible → b.Legible → Ends r →
    Ends s → a.text ++ r = b.text ++ s → a = b ∧ r = s
  | .token t, .token u, r, s, ha, hb, hr, hs, h => by
    obtain ⟨rfl, hrs⟩ := Token.chars_append_inj ha hb hr hs h
    exact ⟨rfl, hrs⟩
  | .token t, .row square items, r, s, ha, hb, hr, hs, h => by
    exact absurd h (token_ne_row ha)
  | .row square items, .token u, r, s, ha, hb, hr, hs, h => by
    exact absurd h.symm (token_ne_row hb)
  | .row square items, .row square' items', r, s, ha, hb, hr, hs, h => by
    rw [text, text, List.cons_append, List.cons_append, List.append_assoc, List.append_assoc] at h
    obtain ⟨hopening, hitems⟩ := List.cons.inj h
    obtain rfl := opening_inj hopening
    obtain ⟨rfl, hrs⟩ := items_append_inj ha hb hitems
    exact ⟨rfl, hrs⟩

theorem items_append_inj : ∀ {as bs : List Datum} {square : Bool} {r s : List Char},
    AllLegible as → AllLegible bs →
    spacedChars (texts as) ++ closing square :: r = spacedChars (texts bs) ++ closing square :: s →
    as = bs ∧ r = s
  | [], [], square, r, s, ha, hb, h => ⟨rfl, (List.cons.inj h).2⟩
  | [], b :: bs, square, r, s, ha, hb, h => by
    exact absurd h (closing_ne_items hb.1)
  | a :: as, [], square, r, s, ha, hb, h => by
    exact absurd h.symm (closing_ne_items ha.1)
  | a :: as, b :: bs, square, r, s, ha, hb, h => by
    rw [texts, texts, spacedChars, spacedChars, List.append_assoc, List.append_assoc] at h
    obtain ⟨rfl, htail⟩ := text_append_inj ha.1 hb.1 (ends_tail square as r)
      (ends_tail square bs s) h
    obtain ⟨rfl, hrs⟩ := tail_inj ha.2 hb.2 htail
    exact ⟨rfl, hrs⟩

theorem tail_inj : ∀ {as bs : List Datum} {square : Bool} {r s : List Char},
    AllLegible as → AllLegible bs → tail square as r = tail square bs s → as = bs ∧ r = s
  | [], [], square, r, s, ha, hb, h => ⟨rfl, (List.cons.inj h).2⟩
  | [], b :: bs, square, r, s, ha, hb, h => by
    rw [tail_cons] at h
    exact absurd (List.cons.inj h).1 (closing_ne_space square)
  | a :: as, [], square, r, s, ha, hb, h => by
    rw [tail_cons] at h
    exact absurd (List.cons.inj h).1.symm (closing_ne_space square)
  | a :: as, b :: bs, square, r, s, ha, hb, h => by
    rw [tail_cons, tail_cons] at h
    obtain ⟨rfl, htail⟩ := text_append_inj ha.1 hb.1 (ends_tail square as r) (ends_tail square bs s)
      (List.cons.inj h).2
    obtain ⟨rfl, hrs⟩ := tail_inj ha.2 hb.2 htail
    exact ⟨rfl, hrs⟩

end

end Datum

end PCode
