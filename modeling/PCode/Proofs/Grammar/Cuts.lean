import Mathlib.Order.UpperLower.Principal
import PCode.Proofs.Grammar.Descent

namespace PCode

namespace Cursor

variable {a b c : Cursor} {tail : List Char}

/-- The same place in a text that goes on behind its end. -/
def extend (cursor : Cursor) (tail : List Char) : Cursor :=
  ⟨cursor.offset, cursor.rest ++ tail⟩

theorem between_extend_iff {text : List Char} :
    (a.extend tail).Between (b.extend tail) text ↔ a.Between b text := by
  unfold Between extend
  rw [← List.append_assoc, List.append_cancel_right_eq]

theorem extend_le_extend_iff : a.extend tail ≤ b.extend tail ↔ a ≤ b :=
  exists_congr fun _ => between_extend_iff

theorem extend_lt_extend_iff : a.extend tail < b.extend tail ↔ a < b := by
  rw [lt_iff_le_not_ge, lt_iff_le_not_ge, extend_le_extend_iff, extend_le_extend_iff]

theorem extend_inj : a.extend tail = b.extend tail ↔ a = b := by
  rw [le_antisymm_iff, le_antisymm_iff, extend_le_extend_iff, extend_le_extend_iff]

theorem length_lt_extend (c : Cursor) (tail : List Char) :
    c.rest.length < (c.extend tail).rest.length + 1 := by
  rw [extend, List.length_append]
  omega

theorem exists_extend_of_le (h : c ≤ b.extend tail) : ∃ a, c = a.extend tail ∧ a ≤ b := by
  obtain ⟨text, hrest, hoffset⟩ := h
  refine ⟨⟨c.offset, text ++ b.rest⟩, ?_, text, rfl, hoffset⟩
  cases c
  simp_all [extend]

end Cursor

namespace Parser

variable {tail : List Char} {c : Cursor}

/-- The text does not start with spacing. -/
def Solid (text : List Char) : Prop :=
  ∀ c, text.head? = some c → Text.isSpacing c = false

section Spacing

theorem Solid.takeWhile_append (h : Solid tail) (text : List Char) :
    (text ++ tail).takeWhile Text.isSpacing = text.takeWhile Text.isSpacing := by
  induction text with
  | nil =>
    cases tail with
    | nil => rfl
    | cons d tail => simp [h d rfl]
  | cons d text ih =>
    rw [List.cons_append, List.takeWhile_cons, List.takeWhile_cons, ih]

theorem Solid.dropWhile_append (h : Solid tail) (text : List Char) :
    (text ++ tail).dropWhile Text.isSpacing = text.dropWhile Text.isSpacing ++ tail := by
  induction text with
  | nil =>
    cases tail with
    | nil => rfl
    | cons d tail => simp [h d rfl]
  | cons d text ih =>
    rw [List.cons_append, List.dropWhile_cons, List.dropWhile_cons, ih]
    split <;> rfl

theorem Solid.skipSpacing (h : Solid tail) (c : Cursor) :
    (c.extend tail).skipSpacing = c.skipSpacing.extend tail := by
  simp only [Cursor.skipSpacing, Cursor.extend, h.takeWhile_append, h.dropWhile_append]

theorem Solid.newlineAhead (h : Solid tail) (c : Cursor) :
    (c.extend tail).newlineAhead = c.newlineAhead := by
  simp only [Cursor.newlineAhead, Cursor.extend, h.takeWhile_append]

theorem Solid.ahead (h : Solid tail) {ch : Char} (hc : ahead c.rest = some ch) :
    ahead (c.extend tail).rest = some ch := by
  unfold Parser.ahead Cursor.extend at *
  rw [h.dropWhile_append, List.head?_append, hc]
  rfl

end Spacing

variable {α β : Type}

theorem bind_eq_none {p : Parser α} (h : p c = none) (f : α → Parser β) : (p >>= f) c = none := by
  show StateT.bind p f c = none
  simp only [StateT.bind, h]
  rfl

theorem bind_eq_of_some {p : Parser α} {f : α → Parser β} {a : α} {d : Cursor}
    (h : p c = some (a, d)) : (p >>= f) c = f a d := by
  show StateT.bind p f c = _
  simp only [StateT.bind, h]
  rfl

theorem map_eq_none_iff {p : Parser α} {f : α → β} : map p f c = none ↔ p c = none := by
  unfold map
  cases p c <;> simp

theorem alt_eq_none_iff {p q : Parser α} : alt p q c = none ↔ p c = none ∧ q c = none := by
  unfold alt
  cases p c <;> simp

theorem alt_apply_of_some {p q : Parser α} {r : α × Cursor} (h : p c = some r) :
    alt p q c = some r := by
  unfold alt
  rw [h]

theorem alt_apply_of_none {p q : Parser α} (h : p c = none) : alt p q c = q c := by
  unfold alt
  rw [h]

theorem choice_singleton (p : Parser α) : choice [p] = p := by
  funext c
  show alt p reject c = p c
  unfold alt
  cases p c <;> rfl

/-- A character of this kind stands ahead. -/
def Ahead (S : Char → Bool) (c : Cursor) : Prop :=
  ∃ ch, ahead c.rest = some ch ∧ S ch = true

/-- A parser that takes a token first, and the token starts with a character of this kind. -/
structure Starts (p : Parser α) (S : Char → Bool) : Prop where
  skips : Skips p
  advances : Advances p
  begins : Begins p S

namespace Starts

variable {p q : Parser α} {S T : Char → Bool}

theorem bind {f : α → Parser β} (h : Starts p S) (hf : ∀ a, Follows (f a)) : Starts (p >>= f) S :=
  ⟨h.skips.bind f, h.advances.bind hf, h.begins.bind f⟩

theorem map (h : Starts p S) (f : α → β) : Starts (Parser.map p f) S :=
  ⟨h.skips.map f, h.advances.map f, h.begins.map f⟩

theorem alt (h : Starts p S) (h' : Starts q S) : Starts (Parser.alt p q) S :=
  ⟨h.skips.alt h'.skips, h.advances.alt h'.advances, h.begins.alt h'.begins⟩

theorem mono (h : Starts p S) (hST : ∀ ch, S ch = true → T ch = true) : Starts p T :=
  ⟨h.skips, h.advances, h.begins.mono hST⟩

theorem reject : Starts (Parser.reject : Parser α) S :=
  ⟨fun _ => rfl, .reject, .reject⟩

theorem choice {ps : List (Parser α)} (h : ∀ p ∈ ps, Starts p S) : Starts (Parser.choice ps) S := by
  induction ps with
  | nil => exact reject
  | cons p ps ih =>
    rw [List.forall_mem_cons] at h
    exact h.1.alt (ih h.2)

theorem first {f : α → Parser β} (h : Starts p S) (hf : Advances (p >>= f)) :
    Starts (p >>= f) S :=
  ⟨h.skips.bind f, hf, h.begins.bind f⟩

theorem maybe_bind {f : Option α → Parser β} (hp : Starts p S)
    (hsome : ∀ a, Follows (f (some a))) (hnone : Starts (f none) S) :
    Starts (maybe p >>= f) S := by
  refine ⟨?_, ?_, ?_⟩
  · intro cursor
    cases hc : p cursor with
    | some reply =>
      obtain ⟨a, mid⟩ := reply
      have hmaybe : maybe p cursor = some (some a, mid) := by
        rw [maybe_apply_eq_some_iff]
        exact .inl ⟨a, rfl, hc⟩
      have hmaybe' : maybe p cursor.skipSpacing = some (some a, mid) := by
        rw [maybe_apply_eq_some_iff, hp.skips]
        exact .inl ⟨a, rfl, hc⟩
      rw [bind_eq_of_some hmaybe, bind_eq_of_some hmaybe']
    | none =>
      have hmaybe : maybe p cursor = some (none, cursor) :=
        maybe_apply_eq_some_iff.mpr (.inr ⟨rfl, hc, rfl⟩)
      have hmaybe' : maybe p cursor.skipSpacing = some (none, cursor.skipSpacing) :=
        maybe_apply_eq_some_iff.mpr (.inr ⟨rfl, by rwa [hp.skips], rfl⟩)
      rw [bind_eq_of_some hmaybe, bind_eq_of_some hmaybe', hnone.skips]
  · intro cursor b rest heq
    obtain ⟨o, mid, ho, hb⟩ := bind_apply_eq_some_iff.mp heq
    rcases maybe_apply_eq_some_iff.mp ho with ⟨a, rfl, ha⟩ | ⟨rfl, -, rfl⟩
    · exact lt_of_lt_of_le (hp.advances ha) (hsome a hb)
    · exact hnone.advances hb
  · intro cursor b rest heq
    obtain ⟨o, mid, ho, hb⟩ := bind_apply_eq_some_iff.mp heq
    rcases maybe_apply_eq_some_iff.mp ho with ⟨a, rfl, ha⟩ | ⟨rfl, -, rfl⟩
    · exact hp.begins ha
    · exact hnone.begins hb

theorem ahead (hs : Solid tail) (h : Starts p S) {a : α} {d : Cursor}
    (heq : p (c.extend tail) = some (a, d.extend tail)) : Ahead S c := by
  have hskip := heq
  rw [← h.skips, hs.skipSpacing] at hskip
  have hlength := Cursor.length_lt_of_lt (Cursor.extend_lt_extend_iff.mp (h.advances hskip))
  obtain ⟨ch, rest, hrest⟩ := List.exists_cons_of_length_pos (Nat.zero_lt_of_lt hlength)
  have hahead : Parser.ahead c.rest = some ch := by
    show c.skipSpacing.rest.head? = some ch
    rw [hrest, List.head?_cons]
  obtain ⟨ch', hahead', hch'⟩ := h.begins heq
  rw [hs.ahead hahead] at hahead'
  cases hahead'
  exact ⟨ch, hahead, hch'⟩

end Starts

theorem Begins.none_of_ahead {p : Parser α} {S : Char → Bool} {ch : Char} (h : Begins p S)
    (hc : ahead c.rest = some ch) (hS : S ch = false) : p c = none := by
  cases heq : p c with
  | none => rfl
  | some reply =>
    obtain ⟨ch', hahead, hch'⟩ := h heq
    rw [hc] at hahead
    cases hahead
    rw [hS] at hch'
    cases hch'

theorem Begins.none_of_blank {p : Parser α} {S : Char → Bool} (h : Begins p S)
    (hc : ahead c.rest = none) : p c = none := by
  cases heq : p c with
  | none => rfl
  | some reply =>
    obtain ⟨ch, hahead, -⟩ := h heq
    rw [hc] at hahead
    cases hahead

theorem Opens.none_of_ahead {p : Parser α} {S : Char → Bool} {ch : Char} (h : Opens p S)
    (hS : ∀ ch, S ch = true → Text.isSpacing ch = false) (hc : ahead c.rest = some ch)
    (hch : S ch = false) : p c = none := by
  cases hp : p c with
  | none => rfl
  | some reply =>
    obtain ⟨ch', hhead, hch'⟩ := h hp
    obtain ⟨rest, hrest⟩ := List.head?_eq_some_iff.mp hhead
    rw [hrest, ahead_cons rest (hS ch' hch')] at hc
    cases hc
    rw [hch] at hch'
    cases hch'

theorem Begins.eq_none {p : Parser α} {S T : Char → Bool} (h : Begins p S) (hc : Ahead T c)
    (hST : ∀ ch, S ch = true → T ch = false) : p c = none := by
  obtain ⟨ch, hahead, hch⟩ := hc
  refine h.none_of_ahead hahead ?_
  cases hS : S ch with
  | false => rfl
  | true =>
    rw [hST ch hS] at hch
    cases hch

section Matches

variable {p : Parser α} {fold : β → α → β} {as bs : List α} {d e : Cursor}

/-- Matches in a row, up to a place without one. -/
inductive Matches (p : Parser α) : Cursor → List α → Cursor → Prop
  | nil {cursor : Cursor} (none : p cursor = none) : Matches p cursor [] cursor
  | cons {cursor mid rest : Cursor} {a : α} {as : List α} (first : p cursor = some (a, mid))
      (others : Matches p mid as rest) : Matches p cursor (a :: as) rest

theorem Matches.stop (h : Matches p c as e) : p e = none := by
  induction h with
  | nil hnone => exact hnone
  | cons _ _ ih => exact ih

theorem Matches.le (h : Matches p c as e) (hp : Follows p) : c ≤ e := by
  induction h with
  | nil => exact le_refl _
  | cons hfirst _ ih => exact le_trans (hp hfirst) ih

theorem Matches.unique (h : Matches p c as d) (h' : Matches p c bs e) : as = bs ∧ d = e := by
  induction h generalizing bs with
  | nil hnone =>
    cases h' with
    | nil => exact ⟨rfl, rfl⟩
    | cons hfirst =>
      rw [hnone] at hfirst
      cases hfirst
  | cons hfirst _ ih =>
    cases h' with
    | nil hnone =>
      rw [hnone] at hfirst
      cases hfirst
    | cons hfirst' hothers =>
      rw [hfirst] at hfirst'
      cases hfirst'
      obtain ⟨rfl, rfl⟩ := ih hothers
      exact ⟨rfl, rfl⟩

theorem exists_matches (hp : Advances p) (c : Cursor) : ∃ as e, Matches p c as e := by
  -- a match leaves less to read
  induction hn : c.rest.length using Nat.strong_induction_on generalizing c with
  | _ n ih =>
    cases hc : p c with
    | none => exact ⟨[], c, .nil hc⟩
    | some reply =>
      obtain ⟨a, mid⟩ := reply
      obtain ⟨as, e, hothers⟩ := ih _ (hn ▸ Cursor.length_lt_of_lt (hp hc)) mid rfl
      exact ⟨a :: as, e, .cons hc hothers⟩

theorem foldMatches_of_matches (hp : Advances p) (h : Matches p c as e) {fuel : Nat}
    (hfuel : c.rest.length < fuel) (acc : β) (n : Nat) :
    foldMatches p fold fuel acc n c = (as.foldl fold acc, n + as.length, e) := by
  induction h generalizing fuel acc n with
  | nil hnone =>
    cases fuel with
    | zero => cases hfuel
    | succ fuel =>
      rw [foldMatches, hnone]
      rfl
  | cons hfirst _ ih =>
    cases fuel with
    | zero => cases hfuel
    | succ fuel =>
      have hlt := hp hfirst
      have hlength := Cursor.length_lt_of_lt hlt
      rw [foldMatches, hfirst]
      dsimp only
      rw [if_neg (Nat.ne_of_gt (Cursor.offset_lt_of_lt hlt)), ih (by omega), List.foldl_cons,
        List.length_cons, Nat.add_assoc, Nat.add_comm 1]

theorem many_apply_eq_some_iff (hp : Advances p) {init b : β} :
    many p init fold c = some (b, e) ↔ ∃ as, Matches p c as e ∧ b = as.foldl fold init := by
  obtain ⟨as, rest, hall⟩ := exists_matches hp c
  simp only [many, repeated, foldMatches_of_matches hp hall (Nat.lt_succ_self _), Option.some.injEq,
    Prod.mk.injEq]
  constructor
  · rintro ⟨rfl, rfl⟩
    exact ⟨as, hall, rfl⟩
  · rintro ⟨bs, hbs, rfl⟩
    obtain ⟨rfl, rfl⟩ := hall.unique hbs
    exact ⟨rfl, rfl⟩

theorem many1_apply_eq_some_iff (hp : Advances p) {init b : β} :
    many1 p init fold c = some (b, e) ↔
      ∃ as, Matches p c as e ∧ as ≠ [] ∧ b = as.foldl fold init := by
  obtain ⟨as, rest, hall⟩ := exists_matches hp c
  simp only [many1, repeated, foldMatches_of_matches hp hall (Nat.lt_succ_self _), Nat.zero_add,
    List.length_eq_zero_iff]
  constructor
  · intro h
    split at h
    · cases h
    · rename_i hne
      cases h
      exact ⟨as, hall, hne, rfl⟩
  · rintro ⟨bs, hbs, hne, rfl⟩
    obtain ⟨rfl, rfl⟩ := hall.unique hbs
    rw [if_neg hne]

theorem many1_eq_none_iff (hp : Advances p) {init : β} :
    many1 p init fold c = none ↔ p c = none := by
  obtain ⟨as, rest, hall⟩ := exists_matches hp c
  simp only [many1, repeated, foldMatches_of_matches hp hall (Nat.lt_succ_self _), Nat.zero_add,
    List.length_eq_zero_iff]
  cases hall with
  | nil hnone => simp [hnone]
  | cons hfirst => simp [hfirst]

theorem foldl_flip_cons (as bs : List α) :
    as.foldl (fun items item => item :: items) bs = as.reverse ++ bs := by
  induction as generalizing bs with
  | nil => rfl
  | cons a as ih => rw [List.foldl_cons, ih, List.reverse_cons, List.append_assoc]; rfl

theorem list_apply_eq_some_iff (hp : Advances p) : list p c = some (as, e) ↔ Matches p c as e := by
  unfold list
  rw [map_eq_bind, bind_apply_eq_some_iff]
  simp only [many_apply_eq_some_iff hp, pure_apply_eq_some_iff, foldl_flip_cons, List.append_nil]
  constructor
  · rintro ⟨_, mid, ⟨bs, hbs, rfl⟩, rfl, rfl⟩
    rwa [List.reverse_reverse]
  · intro h
    exact ⟨as.reverse, e, ⟨as, h, rfl⟩, List.reverse_reverse as, rfl⟩

end Matches

/-- Run at a place of a region, a parser that ends before the cut at a place of a kind does the same
on the text before the cut. -/
structure Cuts (tail : List Char) (region : UpperSet Cursor) (p : Parser α) (F : Cursor → Prop) :
    Prop where
  follows : Follows p
  same : ∀ ⦃c a d⦄, c ∈ region → p (c.extend tail) = some (a, d.extend tail) → F d →
    p c = some (a, d)

/-- Any place. -/
def Anywhere (_ : Cursor) : Prop :=
  True

namespace Cuts

variable {region region' : UpperSet Cursor} {p q : Parser α} {F G : Cursor → Prop} {start : Cursor}

theorem mono (h : Cuts tail region p G) (hFG : ∀ d, F d → G d) : Cuts tail region p F :=
  ⟨h.follows, fun _ _ _ hc heq hd => h.same hc heq (hFG _ hd)⟩

theorem always (h : Cuts tail region p Anywhere) : Cuts tail region p F :=
  h.mono fun _ _ => trivial

theorem shrink (h : Cuts tail region p F) (hle : region ≤ region') : Cuts tail region' p F :=
  ⟨h.follows, fun _ _ _ hc heq hd => h.same (hle hc) heq hd⟩

theorem pure (a : α) : Cuts tail region (Pure.pure a) F := by
  refine ⟨.pure a, ?_⟩
  intro c b d _ heq _
  obtain ⟨rfl, hplace⟩ := pure_apply_eq_some_iff.mp heq
  rw [Cursor.extend_inj.mp hplace]
  rfl

theorem reject : Cuts tail region (Parser.reject : Parser α) F :=
  ⟨.reject, nofun⟩

theorem bind {f : α → Parser β} (h : Cuts tail region p G) (h' : ∀ a, Cuts tail region (f a) F)
    (hG : ∀ d a b e, d ∈ region → f a (d.extend tail) = some (b, e.extend tail) → F e → G d) :
    Cuts tail region (p >>= f) F := by
  refine ⟨h.follows.bind fun a => (h' a).follows, ?_⟩
  intro c b e hc heq he
  obtain ⟨a, mid, ha, hb⟩ := bind_apply_eq_some_iff.mp heq
  obtain ⟨d, rfl, -⟩ := Cursor.exists_extend_of_le ((h' a).follows hb)
  have hd : d ∈ region := region.upper (Cursor.extend_le_extend_iff.mp (h.follows ha)) hc
  exact bind_apply_eq_some_iff.mpr ⟨a, d, h.same hc ha (hG d a b e hd hb he), (h' a).same hd hb he⟩

theorem after {f : α → Parser β} (h : Cuts tail region p Anywhere)
    (h' : ∀ a, Cuts tail region (f a) F) : Cuts tail region (p >>= f) F :=
  h.bind h' fun _ _ _ _ _ _ _ => trivial

theorem before {γ : Type} {t : Parser β} {g : α → β → Parser γ} {T : Char → Bool} (hs : Solid tail)
    (h : Cuts tail region p G) (ht : Starts t T) (ht' : Cuts tail region t Anywhere)
    (hG : ∀ d, Ahead T d → G d) (h' : ∀ a b, Cuts tail region (g a b) F) :
    Cuts tail region (p >>= fun a => t >>= g a) F := by
  refine h.bind (fun a => ht'.after (h' a)) ?_
  intro d a b e _ heq _
  obtain ⟨value, mid, hvalue, hb⟩ := bind_apply_eq_some_iff.mp heq
  obtain ⟨m, rfl, -⟩ := Cursor.exists_extend_of_le ((h' a value).follows hb)
  exact hG d (ht.ahead hs hvalue)

theorem guard {f : α → Parser β} (h : Cuts tail (.Ici start) p Anywhere) (hp : Advances p)
    (h' : ∀ a, Cuts tail (.Ioi start) (f a) F) : Cuts tail (.Ici start) (p >>= f) F := by
  refine ⟨h.follows.bind fun a => (h' a).follows, ?_⟩
  intro c b e hc heq he
  obtain ⟨a, mid, ha, hb⟩ := bind_apply_eq_some_iff.mp heq
  obtain ⟨d, rfl, -⟩ := Cursor.exists_extend_of_le ((h' a).follows hb)
  have hd : start < d := lt_of_le_of_lt hc (Cursor.extend_lt_extend_iff.mp (hp ha))
  exact bind_apply_eq_some_iff.mpr ⟨a, d, h.same hc ha trivial, (h' a).same hd hb he⟩

theorem last {f : α → β} (h : Cuts tail region p F) :
    Cuts tail region (p >>= fun a => Pure.pure (f a)) F := by
  refine ⟨h.follows.bind fun a => .pure _, ?_⟩
  intro c b e hc heq he
  obtain ⟨a, mid, ha, hb⟩ := bind_apply_eq_some_iff.mp heq
  obtain ⟨rfl, rfl⟩ := pure_apply_eq_some_iff.mp hb
  exact bind_apply_eq_some_iff.mpr ⟨a, e, h.same hc ha he, rfl⟩

theorem map (h : Cuts tail region p F) (f : α → β) : Cuts tail region (Parser.map p f) F := by
  rw [map_eq_bind]
  exact h.last

theorem alt (h : Cuts tail region p F) (h' : Cuts tail region q F)
    (hfail : ∀ c a d, c ∈ region → p (c.extend tail) = none →
      q (c.extend tail) = some (a, d.extend tail) → F d → p c = none) :
    Cuts tail region (Parser.alt p q) F := by
  refine ⟨h.follows.alt h'.follows, ?_⟩
  intro c a d hc heq hd
  unfold Parser.alt at heq ⊢
  cases hp : p (c.extend tail) with
  | some reply =>
    rw [hp] at heq
    rw [h.same hc (hp.trans heq) hd]
  | none =>
    rw [hp] at heq
    rw [hfail c a d hc hp heq hd]
    exact h'.same hc heq hd

theorem alt_of_starts {S T : Char → Bool} (hs : Solid tail) (h : Cuts tail region p F)
    (h' : Cuts tail region q F) (hp : Begins p S) (hq : Starts q T)
    (hST : ∀ ch, S ch = true → T ch = false) : Cuts tail region (Parser.alt p q) F :=
  h.alt h' fun _ _ _ _ _ heq _ => hp.eq_none (hq.ahead hs heq) hST

theorem verify (h : Cuts tail region p F) (test : α → Bool) :
    Cuts tail region (Parser.verify p test) F := by
  refine ⟨fun _ _ _ heq => h.follows (verify_apply_eq_some_iff.mp heq).1, ?_⟩
  intro c a d hc heq hd
  rw [verify_apply_eq_some_iff] at heq ⊢
  exact ⟨h.same hc heq.1 hd, heq.2⟩

theorem token (hs : Solid tail) (h : Cuts tail region p F) :
    Cuts tail region (Parser.token p) F := by
  refine ⟨h.follows.token, ?_⟩
  intro c a d hc heq hd
  unfold Parser.token at heq ⊢
  rw [hs.skipSpacing] at heq
  exact h.same (region.upper c.le_skipSpacing hc) heq hd

theorem spanned (h : Cuts tail region p F) : Cuts tail region (Parser.spanned p) F := by
  refine ⟨h.follows.spanned, ?_⟩
  intro c a d hc heq hd
  rw [spanned_apply_eq_some_iff] at heq ⊢
  exact ⟨h.same hc heq.1 hd, heq.2⟩

theorem maybe_bind {f : Option α → Parser β} (h : Cuts tail region p G)
    (h' : ∀ o, Cuts tail region (f o) F)
    (hG : ∀ d a b e, d ∈ region → f (some a) (d.extend tail) = some (b, e.extend tail) → F e → G d)
    (hfail : ∀ c b e, c ∈ region → p (c.extend tail) = none →
      f none (c.extend tail) = some (b, e.extend tail) → F e → p c = none) :
    Cuts tail region (maybe p >>= f) F := by
  refine ⟨h.follows.maybe.bind fun o => (h' o).follows, ?_⟩
  intro c b e hc heq he
  obtain ⟨o, mid, ho, hb⟩ := bind_apply_eq_some_iff.mp heq
  obtain ⟨d, rfl, -⟩ := Cursor.exists_extend_of_le ((h' o).follows hb)
  refine bind_apply_eq_some_iff.mpr ⟨o, d, maybe_apply_eq_some_iff.mpr ?_, ?_⟩
  · rcases maybe_apply_eq_some_iff.mp ho with ⟨a, rfl, ha⟩ | ⟨rfl, hnone, heq⟩
    · have hd : d ∈ region := region.upper (Cursor.extend_le_extend_iff.mp (h.follows ha)) hc
      exact .inl ⟨a, rfl, h.same hc ha (hG d a b e hd hb he)⟩
    · rw [Cursor.extend_inj] at heq
      subst heq
      exact .inr ⟨rfl, hfail d b e hc hnone hb he, rfl⟩
  · exact (h' o).same (region.upper (Cursor.extend_le_extend_iff.mp (h.follows.maybe ho)) hc) hb he

section Rows

variable {fold : β → α → β} {init : β}

/-- What holds behind a match holds before it, and at the end of the row. -/
structure Row (tail : List Char) (region : UpperSet Cursor) (p : Parser α) (G F : Cursor → Prop) :
    Prop where
  advances : Advances p
  cuts : Cuts tail region p G
  next : ∀ c a d, c ∈ region → p (c.extend tail) = some (a, d.extend tail) → G d → G c
  last : ∀ d, d ∈ region → F d → G d
  stop : ∀ d, d ∈ region → p (d.extend tail) = none → F d → p d = none

theorem Row.cut (h : Row tail region p G F) {c e : Cursor} {as : List α}
    (hall : Matches p (c.extend tail) as (e.extend tail)) (hc : c ∈ region) (he : F e) :
    Matches p c as e ∧ G c := by
  generalize hx : c.extend tail = x at hall
  generalize hy : e.extend tail = y at hall
  induction hall generalizing c with
  | nil hnone =>
    subst hx
    rw [Cursor.extend_inj] at hy
    subst hy
    exact ⟨.nil (h.stop e hc hnone he), h.last e hc he⟩
  | cons hfirst hothers ih =>
    subst hx hy
    obtain ⟨d, rfl, -⟩ := Cursor.exists_extend_of_le (hothers.le h.advances.follows)
    have hd : d ∈ region :=
      region.upper (Cursor.extend_le_extend_iff.mp (h.advances.follows hfirst)) hc
    obtain ⟨hmatches, hG⟩ := ih hd rfl rfl
    exact ⟨.cons (h.cuts.same hc hfirst hG) hmatches, h.next c _ d hc hfirst hG⟩

theorem Row.before {S T : Char → Bool} (hp : Advances p) (h : Cuts tail region p G)
    (hb : Begins p S) (hST : ∀ ch, S ch = true → T ch = false)
    (hnext : ∀ c a d, c ∈ region → p (c.extend tail) = some (a, d.extend tail) → G d → G c)
    (hlast : ∀ d, Ahead T d → G d) : Row tail region p G (Ahead T) where
  advances := hp
  cuts := h
  next := hnext
  last d _ hd := hlast d hd
  stop _ _ _ hd := hb.eq_none hd hST

variable (h : Row tail region p G F)
include h

theorem Row.many : Cuts tail region (Parser.many p init fold) F := by
  refine ⟨h.advances.follows.many _ _, ?_⟩
  intro c b e hc heq he
  rw [many_apply_eq_some_iff h.advances] at heq ⊢
  obtain ⟨as, hall, rfl⟩ := heq
  exact ⟨as, (h.cut hall hc he).1, rfl⟩

theorem Row.chain {first : Parser β} (hfirst : Cuts tail region first G) :
    Cuts tail region (first >>= fun b => Parser.many p b fold) F := by
  refine hfirst.bind (fun _ => h.many) ?_
  intro d b b' e hd heq he
  obtain ⟨as, hall, -⟩ := (many_apply_eq_some_iff h.advances).mp heq
  exact (h.cut hall hd he).2

theorem Row.many1 : Cuts tail region (Parser.many1 p init fold) F := by
  refine ⟨(h.advances.many1 _ _).follows, ?_⟩
  intro c b e hc heq he
  rw [many1_apply_eq_some_iff h.advances] at heq ⊢
  obtain ⟨as, hall, hne, rfl⟩ := heq
  exact ⟨as, (h.cut hall hc he).1, hne, rfl⟩

theorem Row.list : Cuts tail region (Parser.list p) F :=
  h.many.map _

theorem Row.list1 : Cuts tail region (Parser.list1 p) F :=
  h.many1.map _

end Rows

end Cuts

/-- A match on the text before the cut that does not come to its end is one on the whole text. -/
structure Keeps (tail : List Char) (p : Parser α) : Prop where
  follows : Follows p
  same : ∀ ⦃c a d⦄, p c = some (a, d) → d.rest ≠ [] → p (c.extend tail) = some (a, d.extend tail)

theorem rest_ne_nil_of_le {c d : Cursor} (hle : c ≤ d) (hd : d.rest ≠ []) : c.rest ≠ [] := by
  have hlength := Cursor.length_le_of_le hle
  rw [← List.length_pos_iff] at hd ⊢
  omega

namespace Keeps

variable {p q : Parser α}

theorem pure (a : α) : Keeps tail (Pure.pure a : Parser α) := by
  refine ⟨.pure a, ?_⟩
  intro c b d heq _
  obtain ⟨rfl, rfl⟩ := pure_apply_eq_some_iff.mp heq
  rfl

theorem bind {f : α → Parser β} (h : Keeps tail p) (h' : ∀ a, Keeps tail (f a)) :
    Keeps tail (p >>= f) := by
  refine ⟨h.follows.bind fun a => (h' a).follows, ?_⟩
  intro c b e heq he
  obtain ⟨a, d, ha, hb⟩ := bind_apply_eq_some_iff.mp heq
  exact bind_apply_eq_some_iff.mpr
    ⟨a, _, h.same ha (rest_ne_nil_of_le ((h' a).follows hb) he), (h' a).same hb he⟩

theorem map (h : Keeps tail p) (f : α → β) : Keeps tail (Parser.map p f) := by
  rw [map_eq_bind]
  exact h.bind fun a => pure (f a)

theorem alt {S T : Char → Bool} (hs : Solid tail) (h : Keeps tail p) (h' : Keeps tail q)
    (hp : Begins p S) (hq : Begins q T) (hST : ∀ ch, S ch = true → T ch = false) :
    Keeps tail (Parser.alt p q) := by
  refine ⟨h.follows.alt h'.follows, ?_⟩
  intro c a d heq hd
  unfold Parser.alt at heq ⊢
  cases hc : p c with
  | some reply =>
    rw [hc] at heq
    rw [h.same (hc.trans heq) hd]
  | none =>
    rw [hc] at heq
    have hnone : p (c.extend tail) = none := by
      obtain ⟨ch, hahead, hch⟩ := hq heq
      cases hwhole : p (c.extend tail) with
      | none => rfl
      | some reply =>
        obtain ⟨ch', hahead', hch'⟩ := hp hwhole
        rw [hs.ahead hahead] at hahead'
        cases hahead'
        rw [hST ch hch'] at hch
        cases hch
    rw [hnone]
    exact h'.same heq hd

theorem verify (h : Keeps tail p) (test : α → Bool) : Keeps tail (Parser.verify p test) := by
  refine ⟨fun _ _ _ heq => h.follows (verify_apply_eq_some_iff.mp heq).1, ?_⟩
  intro c a d heq hd
  rw [verify_apply_eq_some_iff] at heq ⊢
  exact ⟨h.same heq.1 hd, heq.2⟩

theorem token (hs : Solid tail) (h : Keeps tail p) : Keeps tail (Parser.token p) := by
  refine ⟨h.follows.token, ?_⟩
  intro c a d heq hd
  unfold Parser.token at heq ⊢
  rw [hs.skipSpacing]
  exact h.same heq hd

theorem row (h : Keeps tail p) {c e : Cursor} {as : List α} (hall : Matches p c as e)
    (he : e.rest ≠ []) (hstop : p (e.extend tail) = none) :
    Matches p (c.extend tail) as (e.extend tail) := by
  induction hall with
  | nil => exact .nil hstop
  | cons hfirst hothers ih =>
    exact .cons (h.same hfirst (rest_ne_nil_of_le (hothers.le h.follows) he)) (ih he hstop)

theorem list_before {γ : Type} {t : Parser β} {g : List α → β → Parser γ} {S T : Char → Bool}
    (hs : Solid tail) (h : Keeps tail p) (hp : Advances p) (hb : Begins p S) (ht : Keeps tail t)
    (ht' : Begins t T) (hST : ∀ ch, S ch = true → T ch = false)
    (h' : ∀ as b, Keeps tail (g as b)) : Keeps tail (Parser.list p >>= fun as => t >>= g as) := by
  refine ⟨h.follows.list.bind fun as => ht.follows.bind fun b => (h' as b).follows, ?_⟩
  intro c a e heq he
  obtain ⟨as, d, hall, heq⟩ := bind_apply_eq_some_iff.mp heq
  have hrest := (ht.bind (h' as)).same heq he
  have hd := rest_ne_nil_of_le ((ht.bind (h' as)).follows heq) he
  obtain ⟨b, mid, hb', -⟩ := bind_apply_eq_some_iff.mp heq
  obtain ⟨ch, hahead, hch⟩ := ht' hb'
  have hstop : p (d.extend tail) = none := hb.eq_none ⟨ch, hs.ahead hahead, hch⟩ hST
  rw [list_apply_eq_some_iff hp] at hall
  exact bind_apply_eq_some_iff.mpr
    ⟨as, _, (list_apply_eq_some_iff hp).mpr (h.row hall hd hstop), hrest⟩

end Keeps

section Characters

variable {region : UpperSet Cursor} {F : Cursor → Prop} {symbol : String} {test : Char → Bool}
  {d : Cursor}

theorem literal_apply_eq_some_iff {value : String} :
    literal symbol c = some (value, d) ↔ value = symbol ∧ c.Between d symbol.toList := by
  constructor
  · intro h
    refine ⟨?_, literal_text h⟩
    unfold literal at h
    split at h
    · cases h
      rfl
    · cases h
  · rintro ⟨rfl, hrest, hoffset⟩
    cases d
    unfold literal
    rw [if_pos (by rw [hrest]; exact List.isPrefixOf_iff_prefix.mpr (List.prefix_append _ _))]
    simp_all

theorem satisfy_apply_eq_some_iff {value : Char} :
    satisfy test c = some (value, d) ↔ test value = true ∧ c.Between d [value] := by
  constructor
  · intro h
    exact ⟨Yields.satisfy h, satisfy_text h⟩
  · rintro ⟨htest, hrest, hoffset⟩
    cases d
    unfold satisfy
    rw [hrest, List.singleton_append]
    dsimp only
    rw [if_pos htest]
    simp_all [byteLength]

theorem literal_extend_iff {value : String} :
    literal symbol (c.extend tail) = some (value, d.extend tail) ↔
      literal symbol c = some (value, d) := by
  rw [literal_apply_eq_some_iff, literal_apply_eq_some_iff, Cursor.between_extend_iff]

theorem satisfy_extend_iff {value : Char} :
    satisfy test (c.extend tail) = some (value, d.extend tail) ↔
      satisfy test c = some (value, d) := by
  rw [satisfy_apply_eq_some_iff, satisfy_apply_eq_some_iff, Cursor.between_extend_iff]

theorem eq_none_of_extend {α : Type} {p : Parser α}
    (h : ∀ a d, p c = some (a, d) → p (c.extend tail) = some (a, d.extend tail))
    (hnone : p (c.extend tail) = none) : p c = none := by
  cases hc : p c with
  | none => rfl
  | some reply =>
    rw [h _ _ hc] at hnone
    cases hnone

theorem literal_follows (symbol : String) : Follows (literal symbol) :=
  fun _ _ _ heq => ⟨_, literal_text heq⟩

theorem literal_cuts (symbol : String) : Cuts tail region (literal symbol) F :=
  ⟨literal_follows symbol, fun _ _ _ _ heq _ => literal_extend_iff.mp heq⟩

theorem literal_keeps (symbol : String) : Keeps tail (literal symbol) :=
  ⟨literal_follows symbol, fun _ _ _ heq _ => literal_extend_iff.mpr heq⟩

theorem satisfy_cuts (test : Char → Bool) : Cuts tail region (satisfy test) F :=
  ⟨(Advances.satisfy test).follows, fun _ _ _ _ heq _ => satisfy_extend_iff.mp heq⟩

theorem satisfy_row (test : Char → Bool) :
    Cuts.Row tail region (satisfy test) Anywhere Anywhere where
  advances := .satisfy test
  cuts := satisfy_cuts test
  next _ _ _ _ _ _ := trivial
  last _ _ _ := trivial
  stop _ _ hnone _ := eq_none_of_extend (fun _ _ heq => satisfy_extend_iff.mpr heq) hnone

theorem chars_cuts (test : Char → Bool) : Cuts tail region (chars (satisfy test)) F :=
  (satisfy_row test).many1.always

theorem chars_keeps (test : Char → Bool) : Keeps tail (chars (satisfy test)) := by
  refine ⟨(Advances.satisfy test).chars.follows, ?_⟩
  intro c text d heq hd
  unfold chars at heq ⊢
  rw [many1_apply_eq_some_iff (.satisfy test)] at heq ⊢
  obtain ⟨as, hall, hne, rfl⟩ := heq
  have hsatisfy : Keeps tail (satisfy test) :=
    ⟨(Advances.satisfy test).follows, fun _ _ _ heq _ => satisfy_extend_iff.mpr heq⟩
  refine ⟨as, hsatisfy.row hall hd ?_, hne, rfl⟩
  -- the character behind the run is there before the cut
  obtain ⟨ch, rest, hrest⟩ := List.exists_cons_of_ne_nil hd
  have hstop := hall.stop
  unfold satisfy Cursor.extend at *
  rw [hrest] at hstop ⊢
  simpa using hstop

end Characters

end Parser

end PCode
