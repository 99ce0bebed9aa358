import Mathlib.Order.Defs.PartialOrder
import PCode.Proofs.Grammar.Reads

namespace PCode

namespace Cursor

variable {a b c : Cursor} {text text' : List Char}

/-- The text that stands between two places. -/
def Between (a b : Cursor) (text : List Char) : Prop :=
  a.rest = text ++ b.rest ∧ b.offset = a.offset + byteLength text

theorem Between.append (h : Between a b text) (h' : Between b c text') :
    Between a c (text ++ text') := by
  refine ⟨?_, ?_⟩
  · rw [h.1, h'.1, List.append_assoc]
  · rw [h'.2, h.2, byteLength_append, Nat.add_assoc]

/-- Reading some text, or none, leads from the first place to the second. -/
instance : LE Cursor where
  le a b := ∃ text, Between a b text

instance : PartialOrder Cursor where
  le_refl _ := ⟨[], rfl, rfl⟩
  le_trans a b c := by
    rintro ⟨s, hs⟩ ⟨t, ht⟩
    exact ⟨s ++ t, hs.append ht⟩
  le_antisymm a b := by
    rintro ⟨s, hs, hs'⟩ ⟨t, ht, ht'⟩
    cases s with
    | nil =>
      cases a
      cases b
      cases hs
      cases hs'
      rfl
    | cons c s =>
      have hpos := byteLength_pos (List.cons_ne_nil c s)
      omega

theorem offset_le_of_le (h : a ≤ b) : a.offset ≤ b.offset := by
  obtain ⟨text, -, htext⟩ := h
  omega

theorem length_le_of_le (h : a ≤ b) : b.rest.length ≤ a.rest.length := by
  obtain ⟨text, htext, -⟩ := h
  rw [htext, List.length_append]
  exact Nat.le_add_left _ _

theorem Between.lt (h : Between a b text) (hne : text ≠ []) : a < b := by
  refine lt_of_le_of_ne ⟨text, h⟩ ?_
  rintro rfl
  have hpos := byteLength_pos hne
  have hoffset := h.2
  omega

theorem exists_text_of_lt (h : a < b) : ∃ text, text ≠ [] ∧ Between a b text := by
  obtain ⟨text, htext⟩ := le_of_lt h
  refine ⟨text, ?_, htext⟩
  rintro rfl
  exact h.2 ⟨[], htext.1.symm, htext.2.symm⟩

theorem offset_lt_of_lt (h : a < b) : a.offset < b.offset := by
  obtain ⟨text, hne, htext⟩ := exists_text_of_lt h
  have hpos := byteLength_pos hne
  have hoffset := htext.2
  omega

theorem length_lt_of_lt (h : a < b) : b.rest.length < a.rest.length := by
  obtain ⟨text, hne, htext⟩ := exists_text_of_lt h
  have hpos := List.length_pos_iff.mpr hne
  rw [htext.1, List.length_append]
  omega

theorem rest_ne_nil_of_lt (h : a < b) : a.rest ≠ [] :=
  List.length_pos_iff.mp (Nat.zero_lt_of_lt (length_lt_of_lt h))

theorem le_skipSpacing (a : Cursor) : a ≤ a.skipSpacing :=
  ⟨a.rest.takeWhile Text.isSpacing, List.takeWhile_append_dropWhile.symm, rfl⟩

end Cursor

theorem splitAt?_eq_some_iff {text before after : List Char} {offset : Nat} :
    splitAt? text offset = some (before, after) ↔
      text = before ++ after ∧ byteLength before = offset := by
  induction text generalizing before offset with
  | nil =>
    cases offset with
    | zero =>
      simp only [splitAt?, Option.some.injEq, Prod.mk.injEq, List.nil_eq, List.append_eq_nil_iff]
      constructor
      · rintro ⟨rfl, rfl⟩
        exact ⟨⟨rfl, rfl⟩, rfl⟩
      · rintro ⟨⟨rfl, rfl⟩, -⟩
        exact ⟨rfl, rfl⟩
    | succ offset =>
      simp only [splitAt?, reduceCtorEq, false_iff, List.nil_eq, List.append_eq_nil_iff]
      rintro ⟨⟨rfl, -⟩, h⟩
      cases h
  | cons c text ih =>
    have hc := Char.utf8Size_pos c
    cases before with
    | nil =>
      cases offset with
      | zero => simp [splitAt?, byteLength, eq_comm]
      | succ offset =>
        simp only [splitAt?, List.nil_append]
        split <;> simp [byteLength]
    | cons d before =>
      cases offset with
      | zero =>
        have hd := Char.utf8Size_pos d
        simp only [splitAt?, Option.some.injEq, Prod.mk.injEq, List.nil_eq, reduceCtorEq,
          false_and, false_iff, byteLength]
        omega
      | succ offset =>
        simp only [splitAt?, List.cons_append, List.cons.injEq]
        split
        · simp only [Option.map_eq_some_iff, Prod.exists, Prod.mk.injEq, List.cons.injEq]
          constructor
          · rintro ⟨before', after', h, ⟨rfl, rfl⟩, rfl⟩
            obtain ⟨htext, hlength⟩ := ih.mp h
            refine ⟨⟨rfl, htext⟩, ?_⟩
            simp only [byteLength] at hlength ⊢
            omega
          · rintro ⟨⟨rfl, htext⟩, hlength⟩
            refine ⟨before, after, ih.mpr ⟨htext, ?_⟩, ⟨rfl, rfl⟩, rfl⟩
            simp only [byteLength] at hlength ⊢
            omega
        · simp only [reduceCtorEq, false_iff]
          rintro ⟨⟨rfl, -⟩, hlength⟩
          simp only [byteLength] at hlength
          omega

theorem Cursor.at?_eq_some_iff {text : String} {offset : Nat} {cursor : Cursor} :
    Cursor.at? text offset = some cursor ↔ Cursor.ofText text ≤ cursor ∧
      cursor.offset = offset := by
  simp only [Cursor.at?, Option.map_eq_some_iff, Prod.exists, splitAt?_eq_some_iff]
  constructor
  · rintro ⟨before, after, ⟨htext, rfl⟩, rfl⟩
    exact ⟨⟨before, htext, (Nat.zero_add _).symm⟩, rfl⟩
  · rintro ⟨⟨before, htext, hoffset⟩, rfl⟩
    refine ⟨before, cursor.rest, ⟨htext, ?_⟩, rfl⟩
    rw [hoffset]
    exact (Nat.zero_add _).symm

theorem Cursor.offset_le_byteLength {text : String} {cursor : Cursor}
    (h : Cursor.ofText text ≤ cursor) : cursor.offset ≤ byteLength text.toList := by
  obtain ⟨before, htext, hoffset⟩ := h
  change text.toList = _ at htext
  change cursor.offset = 0 + _ at hoffset
  rw [htext, byteLength_append, hoffset]
  omega

namespace Parser

variable {α β : Type}

/-- A match does not go back. -/
def Follows (p : Parser α) : Prop :=
  ∀ ⦃cursor value rest⦄, p cursor = some (value, rest) → cursor ≤ rest

/-- A match goes forward. -/
def Advances (p : Parser α) : Prop :=
  ∀ ⦃cursor value rest⦄, p cursor = some (value, rest) → cursor < rest

theorem Advances.follows {p : Parser α} (h : Advances p) : Follows p :=
  fun _ _ _ heq => le_of_lt (h heq)

theorem pair_eq_bind (p : Parser α) (q : Parser β) :
    pair p q = p >>= fun a => q >>= fun b => pure (a, b) := by
  unfold pair
  rw [andThen_eq_bind]
  congr
  funext a
  exact map_eq_bind q _

theorem right_eq_bind (p : Parser α) (q : Parser β) : right p q = p >>= fun _ => q := by
  funext cursor
  unfold right
  rw [map_eq_bind, pair_eq_bind]
  show StateT.bind (StateT.bind p fun a => StateT.bind q _) _ cursor = StateT.bind p _ cursor
  simp only [StateT.bind]
  cases p cursor with
  | none => rfl
  | some reply =>
    show ((q reply.2 >>= _) >>= _) = q reply.2
    cases q reply.2 <;> rfl

section Texts

variable {a b : Cursor}

theorem literal_text {symbol value : String} (h : literal symbol a = some (value, b)) :
    a.Between b symbol.toList := by
  unfold literal at h
  split at h
  · rename_i hprefix
    cases h
    obtain ⟨behind, hbehind⟩ := List.isPrefixOf_iff_prefix.mp hprefix
    refine ⟨?_, rfl⟩
    rw [← hbehind, List.drop_left]
  · cases h

theorem satisfy_text {test : Char → Bool} {value : Char} (h : satisfy test a = some (value, b)) :
    a.Between b [value] := by
  unfold satisfy at h
  split at h
  · cases h
  · rename_i d rest hrest
    split at h
    · cases h
      exact ⟨hrest, rfl⟩
    · cases h

theorem chars_text {test : Char → Bool} {value : String}
    (h : chars (satisfy test) a = some (value, b)) : a.Between b value.toList := by
  have hall := foldMatches_keeps (p := satisfy test)
    (J := fun acc _ cursor => a.Between cursor acc.toList) String.push ?_ (a.rest.length + 1) "" 0
    ⟨rfl, rfl⟩
  · unfold chars many1 repeated at h
    dsimp only at h
    split at h
    · cases h
    · cases h
      exact hall
  · intro acc _ cursor value rest hacc hvalue
    rw [String.toList_push]
    exact hacc.append (satisfy_text hvalue)

end Texts

namespace Follows

variable {p q : Parser α}

theorem pure (a : α) : Follows (Pure.pure a : Parser α) := by
  intro cursor value rest heq
  rw [pure_apply_eq_some_iff] at heq
  exact le_of_eq heq.2

theorem reject : Follows (Parser.reject : Parser α) := by
  intro cursor value rest heq
  cases heq

theorem bind {f : α → Parser β} (h : Follows p) (hf : ∀ a, Follows (f a)) : Follows (p >>= f) := by
  intro cursor value rest heq
  obtain ⟨a, mid, ha, hb⟩ := bind_apply_eq_some_iff.mp heq
  exact le_trans (h ha) (hf a hb)

theorem map (h : Follows p) (f : α → β) : Follows (Parser.map p f) := by
  rw [map_eq_bind]
  exact h.bind fun a => pure (f a)

theorem alt (h : Follows p) (h' : Follows q) : Follows (Parser.alt p q) := by
  intro cursor value rest heq
  rcases alt_apply_eq_some heq with hreply | hreply
  · exact h hreply
  · exact h' hreply

theorem literal (symbol : String) : Follows (Parser.literal symbol) :=
  fun _ _ _ heq => ⟨_, literal_text heq⟩

theorem verify (h : Follows p) (test : α → Bool) : Follows (Parser.verify p test) :=
  fun _ _ _ heq => h (verify_apply_eq_some_iff.mp heq).1

theorem token (h : Follows p) : Follows (Parser.token p) :=
  fun cursor _ _ heq => le_trans cursor.le_skipSpacing (h heq)

theorem spanned (h : Follows p) : Follows (Parser.spanned p) := by
  intro cursor value rest heq
  exact h (spanned_apply_eq_some_iff.mp heq).1

theorem maybe (h : Follows p) : Follows (Parser.maybe p) := by
  intro cursor value rest heq
  rcases maybe_apply_eq_some_iff.mp heq with ⟨a, -, ha⟩ | ⟨-, -, rfl⟩
  · exact h ha
  · exact le_refl _

theorem pair {q : Parser β} (h : Follows p) (h' : Follows q) : Follows (Parser.pair p q) := by
  rw [pair_eq_bind]
  exact h.bind fun a => h'.bind fun b => pure _

theorem foldMatches (h : Follows p) (fold : β → α → β) (fuel : Nat) (acc : β) (n : Nat)
    (cursor : Cursor) : cursor ≤ (foldMatches p fold fuel acc n cursor).2.2 :=
  foldMatches_keeps (J := fun _ _ place => cursor ≤ place) fold
    (fun _ _ _ _ _ hle ha => le_trans hle (h ha)) fuel _ _ (le_refl _)

theorem many (h : Follows p) (init : β) (fold : β → α → β) : Follows (Parser.many p init fold) := by
  intro cursor value rest heq
  have hall := h.foldMatches fold (cursor.rest.length + 1) init 0 cursor
  cases heq
  exact hall

theorem many1 (h : Follows p) (init : β) (fold : β → α → β) :
    Follows (Parser.many1 p init fold) := by
  intro cursor value rest heq
  have hall := h.foldMatches fold (cursor.rest.length + 1) init 0 cursor
  unfold Parser.many1 repeated at heq
  dsimp only at heq
  split at heq
  · cases heq
  · cases heq
    exact hall

theorem list (h : Follows p) : Follows (Parser.list p) :=
  (h.many _ _).map _

end Follows

namespace Advances

variable {p q : Parser α}

theorem reject : Advances (Parser.reject : Parser α) := by
  intro cursor value rest heq
  cases heq

theorem bind {f : α → Parser β} (h : Advances p) (hf : ∀ a, Follows (f a)) :
    Advances (p >>= f) := by
  intro cursor value rest heq
  obtain ⟨a, mid, ha, hb⟩ := bind_apply_eq_some_iff.mp heq
  exact lt_of_lt_of_le (h ha) (hf a hb)

theorem after {f : α → Parser β} (h : Follows p) (hf : ∀ a, Advances (f a)) :
    Advances (p >>= f) := by
  intro cursor value rest heq
  obtain ⟨a, mid, ha, hb⟩ := bind_apply_eq_some_iff.mp heq
  exact lt_of_le_of_lt (h ha) (hf a hb)

theorem map (h : Advances p) (f : α → β) : Advances (Parser.map p f) := by
  rw [map_eq_bind]
  exact h.bind fun a => .pure (f a)

theorem alt (h : Advances p) (h' : Advances q) : Advances (Parser.alt p q) := by
  intro cursor value rest heq
  rcases alt_apply_eq_some heq with hreply | hreply
  · exact h hreply
  · exact h' hreply

theorem choice {ps : List (Parser α)} (h : ∀ p ∈ ps, Advances p) :
    Advances (Parser.choice ps) := by
  intro cursor value rest heq
  obtain ⟨p, hp, hreply⟩ := mem_of_choice heq
  exact h p hp hreply

theorem verify (h : Advances p) (test : α → Bool) : Advances (Parser.verify p test) := by
  intro cursor value rest heq
  exact h (verify_apply_eq_some_iff.mp heq).1

theorem token (h : Advances p) : Advances (Parser.token p) :=
  fun cursor _ _ heq => lt_of_le_of_lt cursor.le_skipSpacing (h heq)

theorem spanned (h : Advances p) : Advances (Parser.spanned p) := by
  intro cursor value rest heq
  exact h (spanned_apply_eq_some_iff.mp heq).1

theorem pair {q : Parser β} (h : Advances p) (h' : Follows q) : Advances (Parser.pair p q) := by
  rw [pair_eq_bind]
  exact h.bind fun a => h'.bind fun b => .pure _

theorem right {q : Parser β} (h : Advances p) (h' : Follows q) : Advances (Parser.right p q) := by
  rw [right_eq_bind]
  exact h.bind fun _ => h'

theorem satisfy (test : Char → Bool) : Advances (Parser.satisfy test) :=
  fun _ _ _ heq => (satisfy_text heq).lt (List.cons_ne_nil _ [])

theorem literal {symbol : String} (hne : symbol.toList ≠ []) : Advances (Parser.literal symbol) :=
  fun _ _ _ heq => (literal_text heq).lt hne

theorem foldMatches (h : Advances p) (fold : β → α → β) (fuel : Nat) (acc : β) (n : Nat)
    (cursor : Cursor) (hcount : (foldMatches p fold fuel acc n cursor).2.1 ≠ n) :
    cursor < (foldMatches p fold fuel acc n cursor).2.2 := by
  cases fuel with
  | zero => exact absurd rfl hcount
  | succ fuel =>
    rw [Parser.foldMatches] at hcount ⊢
    cases hp : p cursor with
    | none =>
      rw [hp] at hcount
      exact absurd rfl hcount
    | some reply =>
      obtain ⟨a, rest⟩ := reply
      dsimp only
      split
      · exact h hp
      · exact lt_of_lt_of_le (h hp) (h.follows.foldMatches _ _ _ _ _)

theorem many1 (h : Advances p) (init : β) (fold : β → α → β) :
    Advances (Parser.many1 p init fold) := by
  intro cursor value rest heq
  have hall := h.foldMatches fold (cursor.rest.length + 1) init 0 cursor
  unfold Parser.many1 repeated at heq
  dsimp only at heq
  split at heq
  · cases heq
  · rename_i hcount
    cases heq
    exact hall hcount

theorem list1 (h : Advances p) : Advances (Parser.list1 p) :=
  (h.many1 _ _).map _

theorem chars {p : Parser Char} (h : Advances p) : Advances (Parser.chars p) :=
  h.many1 _ _

end Advances

end Parser

end PCode
