import PCode.Proofs.Grammar.Yields

namespace PCode

theorem byteLength_append (s t : List Char) :
    byteLength (s ++ t) = byteLength s + byteLength t := by
  induction s with
  | nil => rw [List.nil_append, byteLength, Nat.zero_add]
  | cons c s ih => rw [List.cons_append, byteLength, byteLength, ih, Nat.add_assoc]

theorem byteLength_pos {s : List Char} (h : s ≠ []) : 0 < byteLength s := by
  cases s with
  | nil => exact absurd rfl h
  | cons c s =>
    have hc := Char.utf8Size_pos c
    rw [byteLength]
    omega

namespace Parser

variable {α β γ δ : Type}

/-- The first character behind the spacing at the start of a text. -/
def ahead (text : List Char) : Option Char :=
  (text.dropWhile Text.isSpacing).head?

theorem ahead_cons {c : Char} (text : List Char) (hc : Text.isSpacing c = false) :
    ahead (c :: text) = some c := by
  simp [ahead, hc]

theorem ahead_space {c : Char} (text : List Char) (hc : Text.isSpacing c = true) :
    ahead (c :: text) = ahead text := by
  simp [ahead, hc]

theorem isSpacing_of_ahead {text : List Char} {c : Char} (h : ahead text = some c) :
    Text.isSpacing c = false := by
  have hnot := List.head?_dropWhile_not Text.isSpacing text
  rw [← ahead, h] at hnot
  simpa using hnot

section Skipping

theorem skipSpacing_cons {c : Char} (offset : Nat) (text : List Char)
    (hc : Text.isSpacing c = true) :
    Cursor.skipSpacing ⟨offset, c :: text⟩ = Cursor.skipSpacing ⟨offset + c.utf8Size, text⟩ := by
  simp [Cursor.skipSpacing, hc, byteLength, Nat.add_assoc]

theorem skipSpacing_of_ahead {offset : Nat} {text : List Char} (h : ahead text = text.head?) :
    Cursor.skipSpacing ⟨offset, text⟩ = ⟨offset, text⟩ := by
  cases text with
  | nil => rfl
  | cons c text =>
    have hc := isSpacing_of_ahead h
    simp [Cursor.skipSpacing, hc, byteLength]

theorem ahead_skipSpacing (cursor : Cursor) :
    ahead cursor.skipSpacing.rest = ahead cursor.rest := by
  obtain ⟨offset, text⟩ := cursor
  induction text generalizing offset with
  | nil => rfl
  | cons c text ih =>
    cases hc : Text.isSpacing c with
    | false => rw [skipSpacing_of_ahead (ahead_cons text hc)]
    | true =>
      rw [skipSpacing_cons offset text hc, ih]
      exact (ahead_space text hc).symm

theorem skipSpacing_skipSpacing (cursor : Cursor) :
    cursor.skipSpacing.skipSpacing = cursor.skipSpacing :=
  skipSpacing_of_ahead (ahead_skipSpacing cursor)

/-- A parser that skips spacing before it does anything else. -/
def Skips (p : Parser α) : Prop :=
  ∀ cursor : Cursor, p cursor.skipSpacing = p cursor

namespace Skips

variable {p q : Parser α}

theorem token (p : Parser α) : Skips (Parser.token p) := by
  intro cursor
  simp only [Parser.token, skipSpacing_skipSpacing]

theorem bind (h : Skips p) (f : α → Parser β) : Skips (p >>= f) := by
  intro cursor
  show StateT.bind p f _ = StateT.bind p f _
  simp only [StateT.bind, h cursor]

theorem map (h : Skips p) (f : α → β) : Skips (Parser.map p f) := by
  rw [map_eq_bind]
  exact h.bind _

theorem alt (h : Skips p) (h' : Skips q) : Skips (Parser.alt p q) := by
  intro cursor
  simp only [Parser.alt, h cursor, h' cursor]

theorem choice {ps : List (Parser α)} (h : ∀ p ∈ ps, Skips p) : Skips (Parser.choice ps) := by
  induction ps with
  | nil => exact fun _ => rfl
  | cons p ps ih =>
    rw [List.forall_mem_cons] at h
    exact h.1.alt (ih h.2)

theorem verify (h : Skips p) (test : α → Bool) : Skips (Parser.verify p test) := by
  intro cursor
  simp only [Parser.verify, h cursor]

end Skips

end Skipping

/-- A match starts, behind spacing, with a character of this kind. -/
def Begins (p : Parser α) (S : Char → Bool) : Prop :=
  ∀ ⦃cursor value rest⦄, p cursor = some (value, rest) →
    ∃ c, ahead cursor.rest = some c ∧ S c = true

/-- A match starts at once with a character of this kind. -/
def Opens (p : Parser α) (S : Char → Bool) : Prop :=
  ∀ ⦃cursor value rest⦄, p cursor = some (value, rest) →
    ∃ c, cursor.rest.head? = some c ∧ S c = true

/-- There is no match on this text. -/
def Fails (p : Parser α) (text : List Char) : Prop :=
  ∀ offset, p ⟨offset, text⟩ = none

namespace Opens

variable {p : Parser α} {S : Char → Bool}

theorem token (h : Opens p S) : Begins (Parser.token p) S :=
  fun _ _ _ heq => h heq

theorem bind (h : Opens p S) (f : α → Parser β) : Opens (p >>= f) S := by
  intro cursor value rest heq
  obtain ⟨a, mid, ha, -⟩ := bind_apply_eq_some_iff.mp heq
  exact h ha

theorem map (h : Opens p S) (f : α → β) : Opens (Parser.map p f) S := by
  rw [map_eq_bind]
  exact h.bind _

theorem verify (h : Opens p S) (test : α → Bool) : Opens (Parser.verify p test) S :=
  fun _ _ _ heq => h (verify_apply_eq_some_iff.mp heq).1

theorem spanned (h : Opens p S) : Opens (Parser.spanned p) S :=
  fun _ _ _ heq => h (spanned_apply_eq_some_iff.mp heq).1

theorem satisfy (test : Char → Bool) : Opens (Parser.satisfy test) test := by
  intro cursor value rest heq
  unfold Parser.satisfy at heq
  split at heq
  · cases heq
  · rename_i c text htext
    split at heq
    · rename_i hc
      exact ⟨c, by rw [htext, List.head?_cons], hc⟩
    · cases heq

theorem literal {symbol : String} (hne : symbol.toList ≠ []) :
    Opens (Parser.literal symbol) fun c => symbol.toList.head? == some c := by
  intro cursor value rest heq
  unfold Parser.literal at heq
  split at heq
  · rename_i hprefix
    obtain ⟨behind, hbehind⟩ := List.isPrefixOf_iff_prefix.mp hprefix
    obtain ⟨c, chars, hsymbol⟩ := List.exists_cons_of_ne_nil hne
    refine ⟨c, ?_, by simp [hsymbol]⟩
    rw [← hbehind, hsymbol, List.cons_append, List.head?_cons]
  · cases heq

theorem chars {p : Parser Char} (h : Opens p S) : Opens (Parser.chars p) S := by
  intro cursor value rest heq
  unfold Parser.chars Parser.many1 repeated Parser.foldMatches at heq
  cases hp : p cursor with
  | none => simp [hp] at heq
  | some reply => exact h hp

end Opens

namespace Begins

variable {p q : Parser α} {S S' : Char → Bool}

theorem mono (h : Begins p S) (hS : ∀ c, S c = true → S' c = true) : Begins p S' := by
  intro cursor value rest heq
  obtain ⟨c, hc, hSc⟩ := h heq
  exact ⟨c, hc, hS c hSc⟩

theorem reject : Begins (Parser.reject : Parser α) S := by
  intro cursor value rest heq
  cases heq

theorem token (h : Begins p S) : Begins (Parser.token p) S := by
  intro cursor value rest heq
  rw [← ahead_skipSpacing]
  exact h heq

theorem bind (h : Begins p S) (f : α → Parser β) : Begins (p >>= f) S := by
  intro cursor value rest heq
  obtain ⟨a, mid, ha, -⟩ := bind_apply_eq_some_iff.mp heq
  exact h ha

theorem map (h : Begins p S) (f : α → β) : Begins (Parser.map p f) S := by
  rw [map_eq_bind]
  exact h.bind _

theorem alt (h : Begins p S) (h' : Begins q S) : Begins (Parser.alt p q) S := by
  intro cursor value rest heq
  rcases alt_apply_eq_some heq with hreply | hreply
  · exact h hreply
  · exact h' hreply

theorem choice {ps : List (Parser α)} (h : ∀ p ∈ ps, Begins p S) : Begins (Parser.choice ps) S := by
  intro cursor value rest heq
  obtain ⟨p, hp, hreply⟩ := mem_of_choice heq
  exact h p hp hreply

theorem verify (h : Begins p S) (test : α → Bool) : Begins (Parser.verify p test) S :=
  fun _ _ _ heq => h (verify_apply_eq_some_iff.mp heq).1

theorem spanned (h : Begins p S) : Begins (Parser.spanned p) S :=
  fun _ _ _ heq => h (spanned_apply_eq_some_iff.mp heq).1

theorem fails (h : Begins p S) {text : List Char} (ht : ∀ c, ahead text = some c → S c = false) :
    Fails p text := by
  intro offset
  cases hp : p ⟨offset, text⟩ with
  | none => rfl
  | some reply =>
    obtain ⟨c, hc, hSc⟩ := h hp
    rw [ht c hc] at hSc
    cases hSc

theorem fails_cons (h : Begins p S) {c : Char} {text : List Char}
    (hspace : Text.isSpacing c = false) (hS : S c = false) : Fails p (c :: text) := by
  apply h.fails
  intro d hd
  rw [ahead_cons text hspace] at hd
  cases hd
  exact hS

end Begins

namespace Fails

variable {p q : Parser α} {text : List Char}

section

variable (h : Fails p text)
include h

theorem space (hp : Skips p) {c : Char} (hc : Text.isSpacing c = true) : Fails p (c :: text) := by
  intro offset
  rw [← hp, skipSpacing_cons offset text hc, hp]
  exact h _

theorem bind (f : α → Parser β) : Fails (p >>= f) text := by
  intro offset
  show StateT.bind p f _ = none
  simp only [StateT.bind, h offset]
  rfl

theorem map (f : α → β) : Fails (Parser.map p f) text := by
  rw [map_eq_bind]
  exact h.bind _

theorem verify (test : α → Bool) : Fails (Parser.verify p test) text := by
  intro offset
  simp only [Parser.verify, h offset]

theorem spanned : Fails (Parser.spanned p) text := by
  intro offset
  simp only [Parser.spanned, h offset]

theorem token (ht : ahead text = text.head?) : Fails (Parser.token p) text := by
  intro offset
  rw [Parser.token, skipSpacing_of_ahead ht]
  exact h offset

theorem alt (h' : Fails q text) : Fails (Parser.alt p q) text := by
  intro offset
  simp only [Parser.alt, h offset, h' offset]

end

theorem choice {ps : List (Parser α)} (h : ∀ p ∈ ps, Fails p text) :
    Fails (Parser.choice ps) text := by
  induction ps with
  | nil => exact fun _ => rfl
  | cons p ps ih =>
    rw [List.forall_mem_cons] at h
    exact h.1.alt (ih h.2)

end Fails

/-- In front of `rest`, a parser reads exactly `text`, and what it gives has a property. -/
def Reads (p : Parser α) (P : α → Prop) (text rest : List Char) : Prop :=
  ∀ offset, ∃ a, p ⟨offset, text ++ rest⟩ = some (a, ⟨offset + byteLength text, rest⟩) ∧ P a

namespace Reads

variable {p q : Parser α} {P : α → Prop} {Q : β → Prop} {s t rest : List Char}

theorem imp {P' : α → Prop} (h : Reads p P s rest) (hP : ∀ a, P a → P' a) :
    Reads p P' s rest := by
  intro offset
  obtain ⟨a, ha, hPa⟩ := h offset
  exact ⟨a, ha, hP a hPa⟩

theorem pure {a : α} (h : P a) : Reads (Pure.pure a) P [] rest :=
  fun _ => ⟨a, rfl, h⟩

theorem bind {f : α → Parser β} (h : Reads p P s (t ++ rest))
    (hf : ∀ a, P a → Reads (f a) Q t rest) : Reads (p >>= f) Q (s ++ t) rest := by
  intro offset
  obtain ⟨a, ha, hPa⟩ := h offset
  obtain ⟨b, hb, hQb⟩ := hf a hPa (offset + byteLength s)
  refine ⟨b, ?_, hQb⟩
  rw [List.append_assoc, byteLength_append, ← Nat.add_assoc]
  exact bind_apply_eq_some_iff.mpr ⟨a, _, ha, hb⟩

theorem last {f : α → Parser β} (h : Reads p P s rest) (hf : ∀ a, P a → Reads (f a) Q [] rest) :
    Reads (p >>= f) Q s rest := by
  have hboth := bind (t := []) h hf
  rwa [List.append_nil] at hboth

theorem map {f : α → β} (h : Reads p P s rest) (hf : ∀ a, P a → Q (f a)) :
    Reads (Parser.map p f) Q s rest := by
  rw [map_eq_bind]
  exact h.last fun a ha => pure (hf a ha)

theorem alt_left (h : Reads p P s rest) : Reads (alt p q) P s rest := by
  intro offset
  obtain ⟨a, ha, hPa⟩ := h offset
  exact ⟨a, by simp only [alt, ha], hPa⟩

theorem alt_right (hp : Fails p (s ++ rest)) (h : Reads q P s rest) : Reads (alt p q) P s rest := by
  intro offset
  obtain ⟨a, ha, hPa⟩ := h offset
  exact ⟨a, by simp only [alt, hp offset, ha], hPa⟩

section

variable (h : Reads p P s rest)
include h

theorem verify {test : α → Bool} (htest : ∀ a, P a → test a = true) :
    Reads (Parser.verify p test) P s rest := by
  intro offset
  obtain ⟨a, ha, hPa⟩ := h offset
  exact ⟨a, by simp only [Parser.verify, ha, htest a hPa, if_true], hPa⟩

theorem verify_fails {test : α → Bool} (htest : ∀ a, P a → test a = false) :
    Fails (Parser.verify p test) (s ++ rest) := by
  intro offset
  obtain ⟨a, ha, hPa⟩ := h offset
  simp [Parser.verify, ha, htest a hPa]

theorem bind_fails {f : α → Parser β} (hf : ∀ a, P a → Fails (f a) rest) :
    Fails (p >>= f) (s ++ rest) := by
  intro offset
  obtain ⟨a, ha, hPa⟩ := h offset
  show StateT.bind p f _ = none
  simp only [StateT.bind, ha]
  exact hf a hPa _

theorem token (hs : ahead (s ++ rest) = (s ++ rest).head?) : Reads (Parser.token p) P s rest := by
  intro offset
  rw [Parser.token, skipSpacing_of_ahead hs]
  exact h offset

theorem space (hp : Skips p) {c : Char} (hc : Text.isSpacing c = true) :
    Reads p P (c :: s) rest := by
  intro offset
  obtain ⟨a, ha, hPa⟩ := h (offset + c.utf8Size)
  refine ⟨a, ?_, hPa⟩
  rw [← hp, List.cons_append, skipSpacing_cons offset _ hc, hp, ha]
  simp [byteLength, Nat.add_assoc]

theorem spanned : Reads (Parser.spanned p) (fun a => P a.1) s rest := by
  intro offset
  obtain ⟨a, ha, hPa⟩ := h offset
  exact ⟨_, by simp only [Parser.spanned, ha]; rfl, hPa⟩

theorem maybe_some : Reads (maybe p) (fun o => ∃ a, o = some a ∧ P a) s rest := by
  intro offset
  obtain ⟨a, ha, hPa⟩ := h offset
  exact ⟨some a, by simp only [maybe, ha], a, rfl, hPa⟩

end

theorem maybe_none (h : Fails p rest) : Reads (maybe p) (fun o => o = none) [] rest := by
  intro offset
  exact ⟨none, by simp only [maybe, List.nil_append, h offset]; rfl, rfl⟩

theorem pair {q : Parser β} (h : Reads p P s (t ++ rest)) (h' : Reads q Q t rest) :
    Reads (Parser.pair p q) (fun a => P a.1 ∧ Q a.2) (s ++ t) rest := by
  unfold Parser.pair
  rw [andThen_eq_bind]
  exact bind h fun a ha => map h' fun b hb => ⟨ha, hb⟩

theorem right {q : Parser β} (h : Reads p P s (t ++ rest)) (h' : Reads q Q t rest) :
    Reads (Parser.right p q) Q (s ++ t) rest :=
  (pair h h').map fun _ ha => ha.2

theorem satisfy {test : Char → Bool} {c : Char} (hc : test c = true) :
    Reads (Parser.satisfy test) (fun a => a = c) [c] rest := by
  intro offset
  refine ⟨c, ?_, rfl⟩
  simp [Parser.satisfy, hc, byteLength]

theorem literal (symbol : String) :
    Reads (Parser.literal symbol) (fun _ => True) symbol.toList rest := by
  intro offset
  refine ⟨symbol, ?_, trivial⟩
  have hprefix : symbol.toList.isPrefixOf (symbol.toList ++ rest) = true :=
    List.isPrefixOf_iff_prefix.mpr (List.prefix_append _ _)
  simp only [Parser.literal, hprefix, if_true, List.drop_left]

end Reads

/-- Each of several texts is read in front of whatever may follow it, and each of them may follow. A
value that is read looks as it should. -/
def ReadsEach (p : Parser α) (view : α → δ) (F : List Char → Prop) (want : γ → δ)
    (text : γ → List Char) (xs : List γ) : Prop :=
  ∀ x ∈ xs, text x ≠ [] ∧ (∀ rest, F (text x ++ rest)) ∧
    ∀ rest, F rest → Reads p (fun a => view a = want x) (text x) rest

namespace ReadsEach

variable {p : Parser α} {view : α → δ} {F : List Char → Prop} {want : γ → δ}
  {text : γ → List Char} {xs : List γ} {rest : List Char}

theorem follows (h : ReadsEach p view F want text xs) (hF : F rest) :
    F (xs.flatMap text ++ rest) := by
  cases xs with
  | nil => exact hF
  | cons x xs =>
    rw [List.flatMap_cons, List.append_assoc]
    exact (h x List.mem_cons_self).2.1 _

theorem length_le (h : ReadsEach p view F want text xs) :
    xs.length ≤ (xs.flatMap text).length := by
  induction xs with
  | nil => exact Nat.le_refl 0
  | cons x xs ih =>
    rw [ReadsEach, List.forall_mem_cons] at h
    have hx := List.length_pos_iff.mpr h.1.1
    have hxs := ih h.2
    simp only [List.flatMap_cons, List.length_append, List.length_cons]
    omega

theorem foldMatches (fold : β → α → β) (h : ReadsEach p view F want text xs) (hF : F rest)
    (hend : Fails p rest) {fuel : Nat} (hfuel : xs.length < fuel) (acc : β) (n offset : Nat) :
    ∃ as : List α, as.map view = xs.map want ∧
      foldMatches p fold fuel acc n ⟨offset, xs.flatMap text ++ rest⟩ =
        (as.foldl fold acc, n + xs.length, ⟨offset + byteLength (xs.flatMap text), rest⟩) := by
  -- a text that is read is not empty, so the repetition does not stop behind it
  induction xs generalizing fuel acc n offset with
  | nil =>
    obtain ⟨fuel, rfl⟩ := Nat.exists_eq_succ_of_ne_zero (Nat.ne_of_gt hfuel)
    refine ⟨[], rfl, ?_⟩
    simp only [Parser.foldMatches, List.flatMap_nil, List.nil_append, hend offset]
    rfl
  | cons x xs ih =>
    obtain ⟨fuel, rfl⟩ := Nat.exists_eq_succ_of_ne_zero (Nat.ne_of_gt (Nat.zero_lt_of_lt hfuel))
    have hothers : ReadsEach p view F want text xs := (List.forall_mem_cons.mp h).2
    obtain ⟨hne, -, hread⟩ := (List.forall_mem_cons.mp h).1
    obtain ⟨a, ha, hview⟩ := hread _ (hothers.follows hF) offset
    obtain ⟨as, has, hfold⟩ := ih hothers (Nat.lt_of_succ_lt_succ hfuel) (fold acc a) (n + 1)
      (offset + byteLength (text x))
    refine ⟨a :: as, by rw [List.map_cons, List.map_cons, hview, has], ?_⟩
    have hmoved : offset + byteLength (text x) ≠ offset := by
      have hpos := byteLength_pos hne
      omega
    rw [List.flatMap_cons, List.append_assoc, Parser.foldMatches]
    simp only [ha, hmoved, if_false, hfold, byteLength_append, List.foldl_cons, List.length_cons,
      Nat.add_assoc, Nat.add_comm 1]

theorem repeated (fold : β → α → β) (h : ReadsEach p view F want text xs) (hF : F rest)
    (hend : Fails p rest) (init : β) (offset : Nat) :
    ∃ as : List α, as.map view = xs.map want ∧
      repeated p init fold ⟨offset, xs.flatMap text ++ rest⟩ =
        (as.foldl fold init, xs.length, ⟨offset + byteLength (xs.flatMap text), rest⟩) := by
  -- there are no more matches than characters
  have hfuel : xs.length < (xs.flatMap text ++ rest).length + 1 := by
    have hlength := h.length_le
    rw [List.length_append]
    omega
  obtain ⟨as, has, hfold⟩ := h.foldMatches fold hF hend hfuel init 0 offset
  refine ⟨as, has, ?_⟩
  rw [Parser.repeated, hfold, Nat.zero_add]

theorem many (fold : β → α → β) (h : ReadsEach p view F want text xs) (hF : F rest)
    (hend : Fails p rest) (init : β) :
    Reads (Parser.many p init fold)
      (fun b => ∃ as : List α, as.map view = xs.map want ∧ b = as.foldl fold init)
      (xs.flatMap text) rest := by
  intro offset
  obtain ⟨as, has, hall⟩ := h.repeated fold hF hend init offset
  exact ⟨_, by simp only [Parser.many, hall], as, has, rfl⟩

theorem many1 (fold : β → α → β) (h : ReadsEach p view F want text xs) (hF : F rest)
    (hend : Fails p rest) (hne : xs ≠ []) (init : β) :
    Reads (Parser.many1 p init fold)
      (fun b => ∃ as : List α, as.map view = xs.map want ∧ b = as.foldl fold init)
      (xs.flatMap text) rest := by
  intro offset
  obtain ⟨as, has, hall⟩ := h.repeated fold hF hend init offset
  refine ⟨_, ?_, as, has, rfl⟩
  simp only [Parser.many1, hall, List.length_eq_zero_iff, hne, if_false]

theorem list (h : ReadsEach p view F want text xs) (hF : F rest) (hend : Fails p rest) :
    Reads (Parser.list p) (fun as => as.map view = xs.map want) (xs.flatMap text) rest := by
  refine (h.many _ hF hend []).map ?_
  intro reversed ⟨as, has, heq⟩
  rw [heq, List.foldl_flip_cons_eq_append', List.append_nil, List.reverse_reverse]
  exact has

theorem list1 (h : ReadsEach p view F want text xs) (hF : F rest) (hend : Fails p rest)
    (hne : xs ≠ []) :
    Reads (Parser.list1 p) (fun as => as.map view = xs.map want) (xs.flatMap text) rest := by
  refine (h.many1 _ hF hend hne []).map ?_
  intro reversed ⟨as, has, heq⟩
  rw [heq, List.foldl_flip_cons_eq_append', List.append_nil, List.reverse_reverse]
  exact has

end ReadsEach

end Parser

end PCode
