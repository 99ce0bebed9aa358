import PCode.Proofs.Grammar.Cuts

namespace PCode.Grammar

open PCode.Parser

variable {tail : List Char} {region : UpperSet Cursor} {F : Cursor → Prop} {c d : Cursor}

section

variable (hs : Solid tail)
include hs

theorem word_cuts : Cuts tail region word F :=
  .token hs ((chars_cuts _).verify _)

theorem word_keeps : Keeps tail word :=
  .token hs ((chars_keeps _).verify _)

theorem ident_cuts : Cuts tail region ident F :=
  (word_cuts hs).verify _

theorem ident_keeps : Keeps tail ident :=
  (word_keeps hs).verify _

theorem keyword_cuts (k : String) : Cuts tail region (keyword k) F :=
  ((word_cuts hs).verify _).map _

theorem punct_cuts (symbol : String) : Cuts tail region (punct symbol) F :=
  (Cuts.token hs (literal_cuts symbol)).map _

theorem punct_keeps (symbol : String) : Keeps tail (punct symbol) :=
  (Keeps.token hs (literal_keeps symbol)).map _

end

theorem punct_apply_eq_some_iff {symbol : String} {value : Unit} :
    punct symbol c = some (value, d) ↔ ∃ text, literal symbol c.skipSpacing = some (text, d) := by
  unfold punct
  rw [map_eq_bind, bind_apply_eq_some_iff]
  constructor
  · rintro ⟨text, mid, hliteral, hpure⟩
    obtain ⟨-, rfl⟩ := pure_apply_eq_some_iff.mp hpure
    exact ⟨text, hliteral⟩
  · rintro ⟨text, hliteral⟩
    exact ⟨text, d, hliteral, rfl⟩

theorem punct_extend_iff (hs : Solid tail) {symbol : String} {value : Unit} :
    punct symbol (c.extend tail) = some (value, d.extend tail) ↔
      punct symbol c = some (value, d) := by
  rw [punct_apply_eq_some_iff, punct_apply_eq_some_iff, hs.skipSpacing]
  exact exists_congr fun _ => literal_extend_iff

theorem op_apply_eq_some_iff {symbol : String} {value : Unit} :
    op symbol c = some (value, d) ↔ punct symbol c = some (value, d) ∧ OpEnds d.rest := by
  unfold op
  rw [bind_apply_eq_some_iff]
  constructor
  · rintro ⟨⟨⟩, mid, hpunct, h⟩
    obtain ⟨cursor, mid', hhere, h⟩ := bind_apply_eq_some_iff.mp h
    cases hhere
    cases hrest : mid.rest with
    | nil =>
      rw [hrest] at h
      cases h
      refine ⟨hpunct, ?_⟩
      rw [hrest]
      exact nofun
    | cons ch rest =>
      rw [hrest] at h
      change (if extendsOperator ch = true then reject else Pure.pure () : Parser Unit) mid = _ at h
      by_cases hch : extendsOperator ch = true
      · rw [if_pos hch] at h
        cases h
      · rw [if_neg hch] at h
        cases h
        refine ⟨hpunct, ?_⟩
        rw [hrest]
        exact opEnds_cons rest (Bool.eq_false_iff.mpr hch)
  · rintro ⟨hpunct, hends⟩
    refine ⟨value, d, hpunct, bind_apply_eq_some_iff.mpr ⟨d, d, rfl, ?_⟩⟩
    cases hrest : d.rest with
    | nil => rfl
    | cons ch rest =>
      have hch := hends ch (by rw [hrest]; rfl)
      show (if extendsOperator ch = true then reject else Pure.pure () : Parser Unit) d = _
      rw [hch]
      rfl

theorem op_follows (symbol : String) : Follows (op symbol) := by
  intro c value d heq
  have hpunct := (op_apply_eq_some_iff.mp heq).1
  exact ((literal_follows symbol).token.map _) hpunct

theorem op_cuts (hs : Solid tail) (symbol : String) : Cuts tail region (op symbol) F := by
  refine ⟨op_follows symbol, ?_⟩
  intro c value d hc heq _
  rw [op_apply_eq_some_iff] at heq ⊢
  obtain ⟨hpunct, hends⟩ := heq
  refine ⟨(punct_cuts (F := Anywhere) hs symbol).same hc hpunct trivial, ?_⟩
  intro ch hch
  apply hends
  show (d.rest ++ tail).head? = some ch
  rw [List.head?_append, hch]
  rfl

theorem op_keeps (hs : Solid tail) (symbol : String) : Keeps tail (op symbol) := by
  refine ⟨op_follows symbol, ?_⟩
  intro c value d heq hd
  rw [op_apply_eq_some_iff] at heq ⊢
  obtain ⟨hpunct, hends⟩ := heq
  refine ⟨(punct_keeps hs symbol).same hpunct hd, ?_⟩
  -- the character behind the operator is there before the cut
  obtain ⟨ch, rest, hrest⟩ := List.exists_cons_of_ne_nil hd
  intro ch' hch'
  apply hends
  rw [hrest]
  change (d.rest ++ tail).head? = some ch' at hch'
  rw [hrest] at hch'
  exact hch'

section Starts

/-- The characters with which a word can start. -/
def wordStart (ch : Char) : Bool :=
  isWordChar ch && !ch.isDigit

theorem word_starts : Starts word wordStart := by
  refine ⟨word_skips, word_advances, ?_⟩
  intro c w d heq
  obtain ⟨ch, hahead, -, hch, hdigit⟩ := (word_yields heq).ahead d.rest
  rw [← (word_text heq).1, ahead_skipSpacing] at hahead
  exact ⟨ch, hahead, by simp [wordStart, hch, hdigit]⟩

theorem ident_starts : Starts ident wordStart :=
  ⟨ident_skips, ident_advances, word_starts.begins.verify _⟩

theorem keyword_starts (k : String) : Starts (keyword k) wordStart :=
  ⟨(word_skips.verify _).map _, keyword_advances k, (word_starts.begins.verify _).map _⟩

theorem punct_starts {symbol : String} (hne : symbol.toList ≠ []) :
    Starts (punct symbol) fun ch => symbol.toList.head? == some ch :=
  ⟨punct_skips symbol, punct_advances hne, punct_begins hne⟩

theorem op_starts {symbol : String} (hne : symbol.toList ≠ []) :
    Starts (op symbol) fun ch => symbol.toList.head? == some ch :=
  ⟨op_skips symbol, op_advances hne, op_begins hne⟩

end Starts

section Numbers

theorem literal_eq_none_of_extend {symbol : String} (h : literal symbol (c.extend tail) = none) :
    literal symbol c = none :=
  eq_none_of_extend (fun _ _ heq => literal_extend_iff.mpr heq) h

theorem digits_eq_none_of_extend (h : digits (c.extend tail) = none) : digits c = none := by
  unfold digits chars at h ⊢
  rw [many1_eq_none_iff (.satisfy _)] at h ⊢
  exact eq_none_of_extend (fun _ _ heq => satisfy_extend_iff.mpr heq) h

theorem fraction_eq_none_of_extend (h : right (literal ".") digits (c.extend tail) = none) :
    right (literal ".") digits c = none := by
  rw [right_eq_bind] at h ⊢
  cases hpoint : literal "." c with
  | none => exact bind_eq_none hpoint _
  | some reply =>
    obtain ⟨value, d⟩ := reply
    rw [bind_eq_of_some (literal_extend_iff.mpr hpoint)] at h
    rw [bind_eq_of_some hpoint]
    exact digits_eq_none_of_extend h

theorem numeral_cuts : Cuts tail region numeral F := by
  refine .maybe_bind (G := Anywhere) (literal_cuts "-") (fun sign => ?_)
    (fun _ _ _ _ _ _ _ => trivial) fun _ _ _ _ hnone _ _ => literal_eq_none_of_extend hnone
  refine .after (chars_cuts _) fun whole => ?_
  refine .maybe_bind (G := Anywhere) ?_ (fun _ => .pure _) (fun _ _ _ _ _ _ _ => trivial)
    fun _ _ _ _ hnone _ _ => fraction_eq_none_of_extend hnone
  rw [right_eq_bind]
  exact .after (literal_cuts ".") fun _ => chars_cuts _

theorem number_cuts (hs : Solid tail) : Cuts tail region number F := by
  refine ⟨number_advances.follows, ?_⟩
  intro c e d hc heq _
  rw [number_apply_eq_some_iff] at heq ⊢
  obtain ⟨n, hnumeral, hexpr⟩ := heq
  rw [hs.skipSpacing] at hnumeral hexpr
  exact ⟨n, (numeral_cuts (F := Anywhere)).same (region.upper c.le_skipSpacing hc) hnumeral trivial,
    hexpr⟩

end Numbers

section Strings

theorem stringChar_cuts : Cuts tail region stringChar F := by
  have hliteral : ∀ (symbol : String) (ch : Char) (p : Parser Char), Cuts tail region p F →
      Cuts tail region (alt (map (literal symbol) fun _ => ch) p) F := by
    intro symbol ch p hp
    refine .alt ((literal_cuts symbol).map _) hp fun c _ _ _ hnone _ _ => ?_
    rw [map_eq_none_iff] at hnone ⊢
    exact literal_eq_none_of_extend hnone
  exact hliteral _ _ _ (hliteral _ _ _ (hliteral _ _ _ (hliteral _ _ _
    (.alt (satisfy_cuts _) .reject fun _ _ _ _ _ heq => nomatch heq))))

theorem stringChar_row :
    Cuts.Row tail region stringChar Anywhere fun d => ∃ a e, literal "\"" d = some (a, e) where
  advances := stringChar_advances
  cuts := stringChar_cuts
  next _ _ _ _ _ _ := trivial
  last _ _ _ := trivial
  stop d _ _ hd := by
    obtain ⟨a, e, hquote⟩ := hd
    obtain ⟨hrest, -⟩ := literal_text hquote
    obtain ⟨offset, text⟩ := d
    cases hrest
    exact stringChar_fails offset

theorem quoted_cuts : Cuts tail region quoted F := by
  refine .after (literal_cuts _) fun _ => .bind stringChar_row.many
    (fun _ => .after (literal_cuts _) fun _ => .pure _) ?_
  intro d contents value e _ heq _
  obtain ⟨a, mid, hquote, hpure⟩ := bind_apply_eq_some_iff.mp heq
  obtain ⟨-, rfl⟩ := pure_apply_eq_some_iff.mp hpure
  exact ⟨a, e, literal_extend_iff.mp hquote⟩

end Strings

section Types

variable {inner : Parser Ty}

theorem not_of_starts {symbol : String} {S : Char → Bool}
    (h : symbol.toList.head?.any S = false) (ch : Char)
    (hch : (symbol.toList.head? == some ch) = true) : S ch = false := by
  rw [beq_iff_eq.mp hch] at h
  exact h

theorem not_starts_of {symbol : String} {S : Char → Bool} (h : symbol.toList.head?.any S = false)
    (ch : Char) (hch : S ch = true) : (symbol.toList.head? == some ch) = false := by
  cases hsymbol : (symbol.toList.head? == some ch) with
  | false => rfl
  | true =>
    rw [not_of_starts h ch hsymbol] at hch
    cases hch

theorem arrayType_starts (h : Follows inner) :
    Starts (arrayType inner) fun ch => "[".toList.head? == some ch :=
  (punct_starts (by decide)).bind fun _ => h.bind fun _ =>
    (punct_advances (by decide)).follows.bind fun _ => .pure _

theorem functionType_starts (h : Follows inner) :
    Starts (functionType inner) fun ch => "(".toList.head? == some ch :=
  (punct_starts (by decide)).bind fun _ => h.list.bind fun _ =>
    (op_advances (by decide)).follows.bind fun _ => h.bind fun _ =>
      (punct_advances (by decide)).follows.bind fun _ => .pure _

theorem arrayType_cuts (hs : Solid tail) (h : Cuts tail region inner Anywhere) :
    Cuts tail region (arrayType inner) F :=
  .after (punct_cuts hs _) fun _ => .after h fun _ => .after (punct_cuts hs _) fun _ => .pure _

theorem functionType_cuts (hs : Solid tail) (hadvances : Advances inner)
    (hbegins : Begins inner typeStart) (h : Cuts tail region inner Anywhere) :
    Cuts tail region (functionType inner) F := by
  have hparams := Cuts.Row.before (T := fun ch => "->".toList.head? == some ch) hadvances h hbegins
    (not_starts_of (by decide)) (fun _ _ _ _ _ _ => trivial) fun _ _ => trivial
  exact .after (punct_cuts hs _) fun _ => .before hs hparams.list (op_starts (by decide))
    (op_cuts hs _) (fun _ hd => hd) fun _ _ => .after h fun _ => .after (punct_cuts hs _) fun _ =>
      .pure _

/-- The names of types and the types in parentheses start so. -/
def nameOrParen (ch : Char) : Bool :=
  wordStart ch || ch == '('

theorem nameType_starts : Starts (choice [map ident typeNamed]) wordStart :=
  (ident_starts.map _).alt .reject

theorem parenType_starts (h : Follows inner) :
    Starts (choice [functionType inner, map ident typeNamed]) nameOrParen := by
  refine .alt ((functionType_starts h).mono (of_starts (by decide))) (nameType_starts.mono ?_)
  intro ch hch
  simp [nameOrParen, hch]

theorem bracketType_starts (h : Follows inner) :
    Starts (choice [arrayType inner, functionType inner, map ident typeNamed])
      fun ch => nameOrParen ch || ch == '[' := by
  refine .alt ((arrayType_starts h).mono (of_starts (by decide))) ((parenType_starts h).mono ?_)
  intro ch hch
  simp [hch]

theorem type_cuts (hs : Solid tail) (fuel : Nat) : Cuts tail region (type fuel) F := by
  induction fuel generalizing F with
  | zero => exact .reject
  | succ fuel ih =>
    have hadvances := type_advances fuel
    have hinner := hadvances.follows
    rw [type_succ]
    refine .alt_of_starts hs ((op_cuts hs _).map _) ?_ ((op_begins (by decide)).map _)
      (bracketType_starts hinner) (not_of_starts (by decide))
    refine .alt_of_starts hs (arrayType_cuts hs ih) ?_ (arrayType_starts hinner).begins
      (parenType_starts hinner) (not_of_starts (by decide))
    refine .alt_of_starts hs (functionType_cuts hs hadvances (type_begins fuel) ih) ?_
      (functionType_starts hinner).begins nameType_starts (not_of_starts (by decide))
    rw [choice_singleton]
    exact (ident_cuts hs).map _

theorem type_keeps (hs : Solid tail) (fuel : Nat) : Keeps tail (type fuel) := by
  induction fuel with
  | zero => exact ⟨.reject, nofun⟩
  | succ fuel ih =>
    have hinner := (type_advances fuel).follows
    have harray : Keeps tail (arrayType (type fuel)) :=
      .bind (punct_keeps hs _) fun _ => .bind ih fun _ => .bind (punct_keeps hs _) fun _ => .pure _
    have hfunction : Keeps tail (functionType (type fuel)) :=
      .bind (punct_keeps hs _) fun _ => .list_before hs ih (type_advances fuel) (type_begins fuel)
        (op_keeps hs _) (op_begins (by decide)) (not_starts_of (by decide)) fun _ _ =>
          .bind ih fun _ => .bind (punct_keeps hs _) fun _ => .pure _
    rw [type_succ]
    refine .alt hs ((op_keeps hs _).map _) ?_ ((op_begins (by decide)).map _)
      (bracketType_starts hinner).begins (not_of_starts (by decide))
    refine .alt hs harray ?_ (arrayType_starts hinner).begins (parenType_starts hinner).begins
      (not_of_starts (by decide))
    refine .alt hs hfunction ?_ (functionType_starts hinner).begins nameType_starts.begins
      (not_of_starts (by decide))
    rw [choice_singleton]
    exact (ident_keeps hs).map _

/-- Types are read with as much fuel as there are characters, before the cut and on the whole. -/
theorem readType_cuts (hs : Solid tail) : Cuts tail region readType F := by
  refine ⟨readType_advances.follows, ?_⟩
  intro c a d hc heq hd
  have hlength := Cursor.length_lt_extend c tail
  rw [← type_eq_readType hlength]
  exact (type_cuts hs _).same hc heq hd

theorem readType_keeps (hs : Solid tail) : Keeps tail readType := by
  refine ⟨readType_advances.follows, ?_⟩
  intro c a d heq hd
  have hlength := Cursor.length_lt_extend c tail
  rw [← type_eq_readType hlength] at heq
  exact (type_keeps hs _).same heq hd

end Types

end PCode.Grammar
