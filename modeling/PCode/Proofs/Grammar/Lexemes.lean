import PCode.Proofs.Grammar.Reads

namespace PCode.Grammar

open PCode.Parser

/-- No word goes on here. -/
def WordEnds (rest : List Char) : Prop :=
  ∀ c, rest.head? = some c → isWordChar c = false

/-- No operator goes on here. -/
def OpEnds (rest : List Char) : Prop :=
  ∀ c, rest.head? = some c → extendsOperator c = false

theorem wordEnds_cons {c : Char} (rest : List Char) (hc : isWordChar c = false) :
    WordEnds (c :: rest) := by
  intro d hd
  cases hd
  exact hc

theorem opEnds_cons {c : Char} (rest : List Char) (hc : extendsOperator c = false) :
    OpEnds (c :: rest) := by
  intro d hd
  cases hd
  exact hc

theorem isSpacing_of_isWordChar {c : Char} (h : isWordChar c = true) :
    Text.isSpacing c = false := by
  cases hc : Text.isSpacing c with
  | false => rfl
  | true =>
    simp only [Text.isSpacing, Bool.or_eq_true, decide_eq_true_eq] at hc
    obtain ((rfl | rfl) | rfl) | rfl := hc <;> revert h <;> decide

section Words

variable {w k x : String} {rest : List Char}

theorem isWord_of_isName (h : IsName x) : IsWord x := by
  refine ⟨h.nonempty, ?_, ?_⟩
  · intro c hc
    simpa [isWordChar] using h.chars c hc
  · obtain ⟨c, chars, hchars⟩ := List.exists_cons_of_ne_nil h.nonempty
    rw [hchars, List.headD_cons]
    exact h.start c (by rw [hchars, List.head?_cons])

theorem isWord_of_mem_keywords (h : k ∈ keywords) : IsWord k := by
  have hall : ∀ k ∈ keywords, k.toList ≠ [] ∧ k.toList.all isWordChar = true ∧
      (k.toList.headD 'a').isDigit = false := by
    decide
  obtain ⟨hne, hchars, hstart⟩ := hall k h
  exact ⟨hne, List.all_eq_true.mp hchars, hstart⟩

theorem IsWord.ahead (h : IsWord w) (rest : List Char) :
    ∃ c, ahead (w.toList ++ rest) = some c ∧ (w.toList ++ rest).head? = some c ∧
      isWordChar c = true ∧ c.isDigit = false := by
  obtain ⟨c, chars, hchars⟩ := List.exists_cons_of_ne_nil h.nonempty
  have hc := h.chars c (by rw [hchars]; exact List.mem_cons_self)
  have hstart := h.start
  rw [hchars, List.headD_cons] at hstart
  rw [hchars, List.cons_append]
  exact ⟨c, ahead_cons _ (isSpacing_of_isWordChar hc), rfl, hc, hstart⟩

theorem IsWord.fails {α : Type} {p : Parser α} {S : Char → Bool} (h : IsWord w) (hp : Begins p S)
    (hS : ∀ c, isWordChar c = true → c.isDigit = false → S c = false) :
    Fails p (w.toList ++ rest) := by
  obtain ⟨c, hahead, -, hc, hdigit⟩ := h.ahead rest
  apply hp.fails
  intro d hd
  rw [hahead] at hd
  cases hd
  exact hS c hc hdigit

theorem word_begins : Begins word isWordChar :=
  (((Opens.satisfy _).chars).verify _).token

theorem word_skips : Skips word :=
  .token _

theorem ident_begins : Begins ident isWordChar :=
  word_begins.verify _

theorem ident_skips : Skips ident :=
  word_skips.verify _

theorem keyword_begins (k : String) : Begins (keyword k) isWordChar :=
  (word_begins.verify _).map _

theorem foldl_push (text : List Char) (s : String) :
    text.foldl String.push s = String.ofList (s.toList ++ text) := by
  induction text generalizing s with
  | nil => simp
  | cons c text ih =>
    rw [List.foldl_cons, ih, String.toList_push, List.append_assoc]
    rfl

theorem chars_reads {test : Char → Bool} {text : List Char} (hne : text ≠ [])
    (htext : ∀ c ∈ text, test c = true) (hrest : ∀ c, rest.head? = some c → test c = false) :
    Reads (chars (satisfy test)) (fun a => a = String.ofList text) text rest := by
  have heach : ReadsEach (satisfy test) id (fun _ => True) id (fun c => [c]) text := by
    intro c hc
    exact ⟨by simp, fun _ => trivial, fun _ _ => Reads.satisfy (htext c hc)⟩
  have hend : Fails (satisfy test) rest := by
    intro offset
    cases rest with
    | nil => rfl
    | cons c rest => simp [satisfy, hrest c rfl]
  have hread := heach.many1 String.push trivial hend hne ""
  rw [List.flatMap_singleton'] at hread
  refine hread.imp ?_
  rintro a ⟨as, has, ha⟩
  rw [List.map_id, List.map_id] at has
  rw [ha, has, foldl_push]
  rfl

theorem word_reads (h : IsWord w) (hrest : WordEnds rest) :
    Reads word (fun a => a = w) w.toList rest := by
  obtain ⟨c, hahead, hhead, -, -⟩ := h.ahead rest
  refine Reads.token (.verify ?_ ?_) (hahead.trans hhead.symm)
  · have hread := chars_reads h.nonempty h.chars hrest
    rwa [String.ofList_toList] at hread
  · intro a ha
    simpa [ha] using h.start

theorem ident_reads (h : IsName x) (hrest : WordEnds rest) :
    Reads ident (fun a => a = x) x.toList rest := by
  refine (word_reads (isWord_of_isName h) hrest).verify ?_
  intro a ha
  simpa [ha] using h.keyword

theorem keyword_reads (hk : k ∈ keywords) (hrest : WordEnds rest) :
    Reads (keyword k) (fun _ => True) k.toList rest := by
  refine Reads.map ((word_reads (isWord_of_mem_keywords hk) hrest).verify ?_) fun _ _ => trivial
  intro a ha
  simpa using ha

theorem keyword_fails (h : IsWord w) (hne : w ≠ k) (hrest : WordEnds rest) :
    Fails (keyword k) (w.toList ++ rest) := by
  refine Fails.map ((word_reads h hrest).verify_fails ?_) _
  intro a ha
  simpa [ha] using hne

theorem ident_fails (hk : k ∈ keywords) (hrest : WordEnds rest) :
    Fails ident (k.toList ++ rest) := by
  refine (word_reads (isWord_of_mem_keywords hk) hrest).verify_fails ?_
  intro a ha
  simpa [ha] using hk

end Words

section Symbols

variable {symbol : String} {rest : List Char}

theorem of_starts {S : Char → Bool} (hsymbol : symbol.toList.head?.all S = true) (c : Char)
    (hc : (symbol.toList.head? == some c) = true) : S c = true := by
  rw [beq_iff_eq.mp hc] at hsymbol
  exact hsymbol

theorem eq_false_of_mem {S : Char → Bool} {cs : List Char} {c : Char} (hc : c ∈ cs)
    (hcs : cs.any S = false) : S c = false :=
  Bool.eq_false_iff.mpr (List.any_eq_false.mp hcs c hc)

theorem punct_skips (symbol : String) : Skips (punct symbol) :=
  (Skips.token _).map _

theorem punct_begins (hne : symbol.toList ≠ []) :
    Begins (punct symbol) fun c => symbol.toList.head? == some c :=
  ((Opens.literal hne).token).map _

theorem not_starts_of_isWordChar (hsymbol : symbol.toList.head?.any isWordChar = false) (c : Char)
    (hc : isWordChar c = true) : (symbol.toList.head? == some c) = false := by
  cases hhead : symbol.toList.head? with
  | none => rfl
  | some d =>
    rw [hhead, Option.any_some] at hsymbol
    have hne : d ≠ c := by
      intro heq
      rw [heq, hc] at hsymbol
      cases hsymbol
    simpa using hne

theorem punct_fails_word {w : String} (hw : IsWord w) (hne : symbol.toList ≠ [])
    (hsymbol : symbol.toList.head?.any isWordChar = false) :
    Fails (punct symbol) (w.toList ++ rest) :=
  hw.fails (punct_begins hne) fun c hc _ => not_starts_of_isWordChar hsymbol c hc

theorem op_skips (symbol : String) : Skips (op symbol) :=
  (punct_skips symbol).bind _

theorem op_begins (hne : symbol.toList ≠ []) :
    Begins (op symbol) fun c => symbol.toList.head? == some c :=
  (punct_begins hne).bind _

theorem op_fails_word {w : String} (hw : IsWord w) (hne : symbol.toList ≠ [])
    (hsymbol : symbol.toList.head?.any isWordChar = false) :
    Fails (op symbol) (w.toList ++ rest) :=
  (punct_fails_word hw hne hsymbol).bind _

theorem punct_reads (hsymbol : ahead symbol.toList = symbol.toList.head?)
    (hne : symbol.toList ≠ []) : Reads (punct symbol) (fun _ => True) symbol.toList rest := by
  obtain ⟨c, chars, hchars⟩ := List.exists_cons_of_ne_nil hne
  refine Reads.map ((Reads.literal symbol).token ?_) fun _ _ => trivial
  rw [hchars, List.head?_cons] at hsymbol
  rw [hchars, List.cons_append, ahead_cons _ (isSpacing_of_ahead hsymbol), List.head?_cons]

theorem op_reads (hsymbol : ahead symbol.toList = symbol.toList.head?)
    (hne : symbol.toList ≠ []) (hrest : OpEnds rest) :
    Reads (op symbol) (fun _ => True) symbol.toList rest := by
  refine Reads.last (punct_reads hsymbol hne) fun _ _ => ?_
  -- the character behind the symbol is looked at and not taken
  intro offset
  refine ⟨(), ?_, trivial⟩
  cases rest with
  | nil => rfl
  | cons c rest =>
    have hc := hrest c rfl
    show (if extendsOperator c = true then reject else pure () : Parser Unit) _ = _
    rw [hc]
    rfl

end Symbols

section Numerals

variable {digits rest : List Char}

/-- No digit and no point goes on here. -/
def NumeralEnds (rest : List Char) : Prop :=
  ∀ c, rest.head? = some c → c.isDigit = false ∧ c ≠ '.'

/-- The sign of a numeral, if it has one. -/
def signText (negative : Bool) : List Char :=
  if negative then ['-'] else []

theorem literal_fails {symbol : String} (hne : symbol.toList ≠ [])
    (hrest : ∀ c, rest.head? = some c → symbol.toList.head? ≠ some c) :
    Fails (literal symbol) rest := by
  intro offset
  cases hl : literal symbol ⟨offset, rest⟩ with
  | none => rfl
  | some reply =>
    obtain ⟨c, hc, hsymbol⟩ := Opens.literal hne hl
    exact absurd (by simpa using hsymbol) (hrest c hc)

theorem numeral_reads (negative : Bool) (hne : digits ≠ [])
    (hdigits : ∀ c ∈ digits, c.isDigit = true) (hrest : NumeralEnds rest) :
    Reads numeral (fun n => n = ⟨negative, digits, none⟩) (signText negative ++ digits) rest := by
  have hsign : Reads (maybe (literal "-")) (fun o => o.isSome = negative) (signText negative)
      (digits ++ rest) := by
    cases negative with
    | true =>
      refine (Reads.maybe_some (Reads.literal "-")).imp ?_
      intro o ⟨a, ha, _⟩
      rw [ha]
      rfl
    | false =>
      refine (Reads.maybe_none (literal_fails (by decide) ?_)).imp fun o ho => by rw [ho]; rfl
      -- a numeral without a sign starts with a digit
      intro c hc hminus
      obtain ⟨d, ds, hds⟩ := List.exists_cons_of_ne_nil hne
      rw [hds, List.cons_append, List.head?_cons] at hc
      cases hc
      cases hminus
      exact absurd (hdigits '-' (by rw [hds]; exact List.mem_cons_self)) (by decide)
  have hfraction : Fails (right (literal ".") Grammar.digits) rest := by
    refine Fails.map ?_ _
    unfold Parser.pair
    rw [andThen_eq_bind]
    refine Fails.bind (literal_fails (by decide) ?_) _
    intro c hc hpoint
    cases hpoint
    exact (hrest '.' hc).2 rfl
  refine Reads.bind hsign fun sign hsign => ?_
  refine Reads.last (chars_reads hne hdigits fun c hc => (hrest c hc).1) fun whole hwhole => ?_
  refine Reads.last (Reads.maybe_none hfraction) fun fraction hnone => Reads.pure ?_
  rw [hsign, hwhole, hnone, String.toList_ofList]
  rfl

theorem isWordChar_of_isDigit {c : Char} (h : c.isDigit = true) : isWordChar c = true := by
  have hascii : c.toNat < 0x80 := by
    simp only [Char.isDigit, Bool.and_eq_true, decide_eq_true_eq, UInt32.le_iff_toNat_le] at h
    have hc : c.val.toNat ≤ 57 := h.2
    show c.val.toNat < 128
    omega
  simp [isWordChar, Text.isAlphanumeric_of_ascii hascii, Char.isAlphanum, h]

theorem word_fails_digits (hne : digits ≠ []) (hdigits : ∀ c ∈ digits, c.isDigit = true)
    (hrest : WordEnds rest) : Fails word (digits ++ rest) := by
  have hchars : ∀ c ∈ digits, isWordChar c = true :=
    fun c hc => isWordChar_of_isDigit (hdigits c hc)
  obtain ⟨d, ds, rfl⟩ := List.exists_cons_of_ne_nil hne
  refine Fails.token ((chars_reads hne hchars hrest).verify_fails ?_) ?_
  · intro w hw
    rw [hw, String.toList_ofList, List.headD_cons, hdigits d List.mem_cons_self]
    rfl
  · exact ahead_cons _ (isSpacing_of_isWordChar (hchars d List.mem_cons_self))

theorem ident_fails_digits (hne : digits ≠ []) (hdigits : ∀ c ∈ digits, c.isDigit = true)
    (hrest : WordEnds rest) : Fails ident (digits ++ rest) :=
  (word_fails_digits hne hdigits hrest).verify _

theorem spelled_eq_ofDigitChars (hdigits : ∀ c ∈ digits, c.isDigit = true) :
    Text.spelled 10 digits = Nat.ofDigitChars 10 digits 0 := by
  have hfold : ∀ (digits : List Char) (init : Nat), (∀ c ∈ digits, c.isDigit = true) →
      digits.foldl (fun n c => 10 * n + Text.digitValue c) init =
        Nat.ofDigitChars 10 digits init := by
    intro digits
    induction digits with
    | nil => intros; rfl
    | cons c digits ih =>
      intro init hdigits
      rw [List.forall_mem_cons] at hdigits
      rw [List.foldl_cons, ih _ hdigits.2, Text.digitValue, if_pos hdigits.1]
      rfl
  exact hfold digits 0 hdigits

theorem spelled_toDigits (n : Nat) : Text.spelled 10 (Nat.toDigits 10 n) = n := by
  rw [spelled_eq_ofDigitChars fun c hc => Nat.isDigit_of_mem_toDigits (by decide) (by decide) hc]
  exact Nat.ofDigitChars_toDigits (by decide) (by decide)

end Numerals

section Strings

variable {rest : List Char}

/-- The ways in which a character stands between quotes: a quote and a backslash behind a backslash,
a newline and a tab by a letter or as they are, and any other character as it is. -/
inductive Spells : Char → List Char → Prop where
  | newline : Spells '\n' ['\\', 'n']
  | tab : Spells '\t' ['\\', 't']
  | backslash : Spells '\\' ['\\', '\\']
  | quote : Spells '"' ['\\', '"']
  | plain {c : Char} : c ≠ '"' → c ≠ '\\' → Spells c [c]

/-- A text stands between quotes piece by piece, one for each of its characters. -/
def SpellsText (text body : List Char) : Prop :=
  ∃ pieces : List (Char × List Char), (∀ piece ∈ pieces, Spells piece.1 piece.2) ∧
    text = pieces.map Prod.fst ∧ body = pieces.flatMap Prod.snd

theorem Spells.ne_nil {c : Char} {piece : List Char} (h : Spells c piece) : piece ≠ [] := by
  cases h <;> exact List.cons_ne_nil _ _

theorem Spells.reads {c : Char} {piece : List Char} (h : Spells c piece) :
    Reads stringChar (fun a => a = c) piece rest := by
  cases h with
  | newline | tab | backslash | quote => exact fun _ => ⟨_, rfl, rfl⟩
  | plain hquote hbackslash =>
    -- no escape starts here
    have hfails : ∀ (symbol : String) (d : Char), symbol.toList.head? = some '\\' →
        Fails (map (literal symbol) fun _ => d) ([c] ++ rest) := by
      intro symbol d hsymbol
      refine Fails.map (literal_fails ?_ ?_) _
      · intro hnil
        rw [hnil] at hsymbol
        cases hsymbol
      · intro e he hhead
        cases he
        rw [hsymbol] at hhead
        cases hhead
        exact hbackslash rfl
    refine Reads.alt_right (hfails _ _ rfl) (Reads.alt_right (hfails _ _ rfl)
      (Reads.alt_right (hfails _ _ rfl) (Reads.alt_right (hfails _ _ rfl)
      (Reads.alt_left (Reads.satisfy ?_)))))
    simp [hquote, hbackslash]

theorem stringChar_fails : Fails stringChar ('"' :: rest) :=
  fun _ => rfl

/-- A row of characters between two quotes. -/
def inQuotes (body : List Char) : List Char :=
  '"' :: (body ++ ['"'])

theorem SpellsText.reads {text : String} {body : List Char} (h : SpellsText text.toList body) :
    Reads quoted (fun a => a = text) (inQuotes body) rest := by
  obtain ⟨pieces, hpieces, htext, rfl⟩ := h
  have heach : ReadsEach stringChar id (fun _ => True) Prod.fst Prod.snd pieces := by
    intro piece hpiece
    exact ⟨(hpieces piece hpiece).ne_nil, fun _ => trivial, fun _ _ => (hpieces piece hpiece).reads⟩
  have hcontents := heach.many String.push trivial (@stringChar_fails rest) ""
  refine Reads.bind (Reads.literal "\"") fun _ _ => ?_
  refine Reads.bind hcontents fun contents ⟨as, has, hcontents⟩ => ?_
  refine Reads.last (Reads.literal "\"") fun _ _ => Reads.pure ?_
  rw [List.map_id, ← htext] at has
  rw [hcontents, has, foldl_push]
  exact String.ofList_toList

/-- A character between quotes; a quote and a backslash stand behind a backslash. -/
def escape (c : Char) : List Char :=
  if c = '"' then ['\\', '"'] else if c = '\\' then ['\\', '\\'] else [c]

theorem spells_escape (c : Char) : Spells c (escape c) := by
  unfold escape
  split
  · subst_vars
    exact .quote
  · rename_i hquote
    split
    · subst_vars
      exact .backslash
    · rename_i hbackslash
      exact .plain hquote hbackslash

theorem spellsText_escape (text : List Char) : SpellsText text (text.flatMap escape) := by
  refine ⟨text.map fun c => (c, escape c), ?_, ?_, ?_⟩
  · simpa using fun c _ => spells_escape c
  · simp [Function.comp_def]
  · simp [List.flatMap_map]

/-- A text between quotes. -/
def quotedText (text : List Char) : List Char :=
  '"' :: (text.flatMap escape ++ ['"'])

theorem quoted_reads (text : String) :
    Reads quoted (fun a => a = text) (quotedText text.toList) rest :=
  (spellsText_escape text.toList).reads

end Strings

end PCode.Grammar
