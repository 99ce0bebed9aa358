import Mathlib.Data.PFun
import PCode.Proofs.Grammar.Places

namespace PCode

/-- The stretch goes from a place here or ahead to a place that does not come before it. -/
def Cursor.Ahead (cursor : Cursor) (span : Span) : Prop :=
  ∃ first last, cursor ≤ first ∧ first ≤ last ∧ span = first.spanTo last

theorem Cursor.Ahead.mono {a b : Cursor} {span : Span} (h : b.Ahead span) (hle : a ≤ b) :
    a.Ahead span := by
  obtain ⟨first, last, hfirst, hlast, hspan⟩ := h
  exact ⟨first, last, le_trans hle hfirst, hlast, hspan⟩

namespace Parser

/-- Parsers built from the combinators, with any functions on values. -/
inductive Term : Type → Type 1 where
  | unit {α : Type} (value : α) : Term α
  | literal (symbol : String) : Term String
  | satisfy (test : Char → Bool) : Term Char
  | chars (p : Term Char) : Term String
  | map {α β : Type} (p : Term α) (f : α → β) : Term β
  | bind {α β : Type} (p : Term α) (f : α → Term β) : Term β
  | alt {α : Type} (p q : Term α) : Term α
  | many {α β : Type} (p : Term α) (init : β) (fold : β → α → β) : Term β
  | many1 {α β : Type} (p : Term α) (init : β) (fold : β → α → β) : Term β
  | list {α : Type} (p : Term α) : Term (List α)
  | maybe {α : Type} (p : Term α) : Term (Option α)
  | pair {α β : Type} (p : Term α) (q : Term β) : Term (α × β)
  | left {α β : Type} (p : Term α) (q : Term β) : Term α
  | right {α β : Type} (p : Term α) (q : Term β) : Term β
  | verify {α : Type} (p : Term α) (test : α → Bool) : Term α
  | token {α : Type} (p : Term α) : Term α
  | spanned {α : Type} (p : Term α) : Term (α × Span)
  | chainLeft {α β : Type} (operand : Term α) (operator : Term β) (fold : α → β × α → α) : Term α

/-- The parser that a term stands for. -/
def Term.parser : {α : Type} → Term α → Parser α
  | _, .unit value => Parser.unit value
  | _, .literal symbol => Parser.literal symbol
  | _, .satisfy test => Parser.satisfy test
  | _, .chars p => Parser.chars p.parser
  | _, .map p f => Parser.map p.parser f
  | _, .bind p f => andThen p.parser fun a => (f a).parser
  | _, .alt p q => Parser.alt p.parser q.parser
  | _, .many p init fold => Parser.many p.parser init fold
  | _, .many1 p init fold => Parser.many1 p.parser init fold
  | _, .list p => Parser.list p.parser
  | _, .maybe p => Parser.maybe p.parser
  | _, .pair p q => Parser.pair p.parser q.parser
  | _, .left p q => Parser.left p.parser q.parser
  | _, .right p q => Parser.right p.parser q.parser
  | _, .verify p test => Parser.verify p.parser test
  | _, .token p => Parser.token p.parser
  | _, .spanned p => Parser.spanned p.parser
  | _, .chainLeft operand operator fold => Parser.chainLeft operand.parser operator.parser fold

/-- What a run comes to: a value with the offset behind the match, or no match, and all stretches
that were made on the way. -/
abbrev Attempt (α : Type) :=
  Option (α × Nat) × List Span

/-- A run from an offset, which may fail to have a result. -/
abbrev Run (α : Type) :=
  Nat →. Attempt α

namespace Run

variable {α β : Type}

/-- The text from an offset on. There is none past the end or inside a character. -/
def ahead (text : String) (offset : Nat) : Part (List Char) :=
  Part.ofOption ((Cursor.at? text offset).map Cursor.rest)

/-- Goes on with a reply, and keeps the stretches that were made before. -/
def after (attempt : Part (Attempt α)) (next : Option (α × Nat) → Part (Attempt β)) :
    Part (Attempt β) :=
  attempt.bind fun (reply, spans) =>
    (next reply).map fun (reply', spans') => (reply', spans ++ spans')

/-- A reply that makes no stretch. -/
def reply (reply : Option (α × Nat)) : Part (Attempt α) :=
  Part.some (reply, [])

def unit (value : α) : Run α := fun offset =>
  reply (some (value, offset))

def literal (text symbol : String) : Run String := fun offset =>
  (ahead text offset).bind fun rest =>
    reply (if symbol.toList.isPrefixOf rest then some (symbol, offset + byteLength symbol.toList)
      else none)

def satisfy (text : String) (test : Char → Bool) : Run Char := fun offset =>
  (ahead text offset).bind fun rest =>
    match rest with
    | [] => reply none
    | c :: _ => reply (if test c then some (c, offset + c.utf8Size) else none)

def bind (run : Run α) (f : α → Run β) : Run β := fun offset =>
  after (run offset) fun
    | some (a, stop) => f a stop
    | none => reply none

def map (run : Run α) (f : α → β) : Run β :=
  bind run fun a => unit (f a)

def pair (run : Run α) (run' : Run β) : Run (α × β) :=
  bind run fun a => map run' fun b => (a, b)

def alt (run run' : Run α) : Run α := fun offset =>
  after (run offset) fun
    | some found => reply (some found)
    | none => run' offset

def maybe (run : Run α) : Run (Option α) := fun offset =>
  after (run offset) fun
    | some (a, stop) => reply (some (some a, stop))
    | none => reply (some (none, offset))

def verify (run : Run α) (test : α → Bool) : Run α := fun offset =>
  after (run offset) fun
    | some (a, stop) => reply (if test a then some (a, stop) else none)
    | none => reply none

def token (text : String) (run : Run α) : Run α := fun offset =>
  (ahead text offset).bind fun rest => run (offset + byteLength (rest.takeWhile Text.isSpacing))

/-- The length of a stretch is a difference of offsets, and there is none below zero. -/
def spanned (run : Run α) : Run (α × Span) := fun offset =>
  after (run offset) fun
    | some (a, stop) =>
      Part.assert (offset ≤ stop) fun _ =>
        Part.some (some ((a, ⟨offset, stop - offset⟩), stop), [⟨offset, stop - offset⟩])
    | none => reply none

/-- Where a repetition stands. -/
structure Loop (β : Type) where
  acc : β
  count : Nat
  offset : Nat
  spans : List Span

/-- One turn of a repetition: it ends where there is no match, and behind a match that consumes
nothing. -/
def turn (run : Run α) (fold : β → α → β) : Loop β →. Loop β ⊕ Loop β := fun loop =>
  (run loop.offset).map fun
    | (none, spans) => .inl { loop with spans := loop.spans ++ spans }
    | (some (a, stop), spans) =>
      let next : Loop β := ⟨fold loop.acc a, loop.count + 1, stop, loop.spans ++ spans⟩
      if stop = loop.offset then .inl next else .inr next

/-- Turns until the repetition ends, if it does. -/
def repeated (run : Run α) (init : β) (fold : β → α → β) (offset : Nat) : Part (Loop β) :=
  (turn run fold).fix ⟨init, 0, offset, []⟩

def many (run : Run α) (init : β) (fold : β → α → β) : Run β := fun offset =>
  (repeated run init fold offset).map fun loop => (some (loop.acc, loop.offset), loop.spans)

def many1 (run : Run α) (init : β) (fold : β → α → β) : Run β := fun offset =>
  (repeated run init fold offset).map fun loop =>
    (if loop.count = 0 then none else some (loop.acc, loop.offset), loop.spans)

def list (run : Run α) : Run (List α) :=
  many run [] fun items item => items ++ [item]

end Run

/-- The run of a term over a text. -/
def Term.run (text : String) : {α : Type} → Term α → Run α
  | _, .unit value => Run.unit value
  | _, .literal symbol => Run.literal text symbol
  | _, .satisfy test => Run.satisfy text test
  | _, .chars p => Run.many1 (p.run text) "" String.push
  | _, .map p f => Run.map (p.run text) f
  | _, .bind p f => Run.bind (p.run text) fun a => (f a).run text
  | _, .alt p q => Run.alt (p.run text) (q.run text)
  | _, .many p init fold => Run.many (p.run text) init fold
  | _, .many1 p init fold => Run.many1 (p.run text) init fold
  | _, .list p => Run.list (p.run text)
  | _, .maybe p => Run.maybe (p.run text)
  | _, .pair p q => Run.pair (p.run text) (q.run text)
  | _, .left p q => Run.map (Run.pair (p.run text) (q.run text)) Prod.fst
  | _, .right p q => Run.map (Run.pair (p.run text) (q.run text)) Prod.snd
  | _, .verify p test => Run.verify (p.run text) test
  | _, .token p => Run.token text (p.run text)
  | _, .spanned p => Run.spanned (p.run text)
  | _, .chainLeft operand operator fold =>
    Run.bind (operand.run text) fun first =>
      Run.many (Run.pair (operator.run text) (operand.run text)) first fold

section Realizing

variable {α β : Type} {text : String} {p q : Parser α} {run run' : Run α}

/-- A reply with the offset in place of the place. -/
def offsets (reply : Option (α × Cursor)) : Option (α × Nat) :=
  reply.map fun (a, rest) => (a, rest.offset)

/-- From every place of a text, the run has the reply of the parser, and makes its stretches
ahead. -/
def Realizes (text : String) (run : Run α) (p : Parser α) : Prop :=
  ∀ place, Cursor.ofText text ≤ place →
    ∃ spans, (offsets (p place), spans) ∈ run place.offset ∧ ∀ span ∈ spans, place.Ahead span

theorem Run.mem_after {attempt : Part (Attempt α)} {next : Option (α × Nat) → Part (Attempt β)}
    {reply : Option (α × Nat)} {reply' : Option (β × Nat)} {spans spans' : List Span}
    (h : (reply, spans) ∈ attempt) (h' : (reply', spans') ∈ next reply) :
    (reply', spans ++ spans') ∈ Run.after attempt next :=
  Part.mem_bind_iff.mpr ⟨_, h, Part.mem_map_iff _ |>.mpr ⟨_, h', rfl⟩⟩

theorem Run.mem_ahead {place : Cursor} (h : Cursor.ofText text ≤ place) :
    place.rest ∈ Run.ahead text place.offset := by
  unfold Run.ahead
  rw [Cursor.at?_eq_some_iff.mpr ⟨h, rfl⟩]
  exact Part.mem_some _

namespace Realizes

theorem of_reply (h : ∀ place, Cursor.ofText text ≤ place →
    (offsets (p place), []) ∈ run place.offset) : Realizes text run p :=
  fun place hplace => ⟨[], h place hplace, nofun⟩

theorem of_after (h : Realizes text run p) {p' : Parser β}
    {next : Nat → Option (α × Nat) → Part (Attempt β)}
    (hnext : ∀ place, Cursor.ofText text ≤ place → ∃ spans,
      (offsets (p' place), spans) ∈ next place.offset (offsets (p place)) ∧
        ∀ span ∈ spans, place.Ahead span) :
    Realizes text (fun offset => Run.after (run offset) (next offset)) p' := by
  intro place hplace
  obtain ⟨spans, hrun, hspans⟩ := h place hplace
  obtain ⟨spans', hnext, hspans'⟩ := hnext place hplace
  refine ⟨spans ++ spans', Run.mem_after hrun hnext, fun span hspan => ?_⟩
  rcases List.mem_append.mp hspan with hspan | hspan
  · exact hspans span hspan
  · exact hspans' span hspan

theorem unit (value : α) : Realizes text (Run.unit value) (Parser.unit value) :=
  of_reply fun _ _ => Part.mem_some _

theorem literal (symbol : String) :
    Realizes text (Run.literal text symbol) (Parser.literal symbol) := by
  refine of_reply fun place hplace => Part.mem_bind_iff.mpr ⟨_, Run.mem_ahead hplace, ?_⟩
  unfold Parser.literal
  split
  · exact Part.mem_some _
  · exact Part.mem_some _

theorem satisfy (test : Char → Bool) :
    Realizes text (Run.satisfy text test) (Parser.satisfy test) := by
  refine of_reply fun place hplace => Part.mem_bind_iff.mpr ⟨_, Run.mem_ahead hplace, ?_⟩
  unfold Parser.satisfy
  cases place.rest with
  | nil => exact Part.mem_some _
  | cons c rest =>
    dsimp only
    split
    · exact Part.mem_some _
    · exact Part.mem_some _

variable (h : Realizes text run p)
include h

theorem bind {f : α → Parser β} {next : α → Run β} (hp : Follows p)
    (hf : ∀ a, Realizes text (next a) (f a)) : Realizes text (Run.bind run next) (andThen p f) := by
  refine h.of_after fun place hplace => ?_
  unfold andThen
  cases hreply : p place with
  | none => exact ⟨[], Part.mem_some _, nofun⟩
  | some reply =>
    -- the second run starts at a place of the text, at or behind the first
    have hle := hp hreply
    obtain ⟨spans, hrun, hspans⟩ := hf reply.1 reply.2 (le_trans hplace hle)
    exact ⟨spans, hrun, fun span hspan => (hspans span hspan).mono hle⟩

theorem map (hp : Follows p) (f : α → β) : Realizes text (Run.map run f) (Parser.map p f) :=
  h.bind hp fun a => unit (f a)

theorem pair {q : Parser β} {run' : Run β} (hp : Follows p) (h' : Realizes text run' q)
    (hq : Follows q) : Realizes text (Run.pair run run') (Parser.pair p q) :=
  h.bind hp fun _ => h'.map hq _

theorem alt (h' : Realizes text run' q) : Realizes text (Run.alt run run') (Parser.alt p q) := by
  refine h.of_after fun place hplace => ?_
  unfold Parser.alt
  cases p place with
  | none => exact h' place hplace
  | some reply => exact ⟨[], Part.mem_some _, nofun⟩

theorem maybe : Realizes text (Run.maybe run) (Parser.maybe p) := by
  refine h.of_after fun place _ => ⟨[], ?_, nofun⟩
  unfold Parser.maybe
  cases p place with
  | none => exact Part.mem_some _
  | some reply => exact Part.mem_some _

theorem verify (test : α → Bool) : Realizes text (Run.verify run test) (Parser.verify p test) := by
  refine h.of_after fun place _ => ⟨[], ?_, nofun⟩
  unfold Parser.verify
  cases p place with
  | none => exact Part.mem_some _
  | some reply =>
    dsimp only [offsets, Option.map_some]
    split
    · exact Part.mem_some _
    · exact Part.mem_some _

theorem token : Realizes text (Run.token text run) (Parser.token p) := by
  intro place hplace
  obtain ⟨spans, hrun, hspans⟩ := h place.skipSpacing (le_trans hplace place.le_skipSpacing)
  exact ⟨spans, Part.mem_bind_iff.mpr ⟨_, Run.mem_ahead hplace, hrun⟩,
    fun span hspan => (hspans span hspan).mono place.le_skipSpacing⟩

theorem spanned (hp : Follows p) : Realizes text (Run.spanned run) (Parser.spanned p) := by
  refine h.of_after fun place _ => ?_
  unfold Parser.spanned
  cases hreply : p place with
  | none => exact ⟨[], Part.mem_some _, nofun⟩
  | some reply =>
    have hle := hp hreply
    refine ⟨[place.spanTo reply.2], ?_, ?_⟩
    · exact Part.mem_assert (Cursor.offset_le_of_le hle) (Part.mem_some _)
    · intro span hspan
      exact ⟨place, reply.2, le_refl _, hle, List.mem_singleton.mp hspan⟩

/-- A repetition ends by itself: every turn but the last leaves fewer characters ahead. -/
theorem fix (hp : Follows p) (fold : β → α → β) {fuel : Nat} {place : Cursor}
    (hplace : Cursor.ofText text ≤ place) (hfuel : place.rest.length < fuel) (acc : β)
    (count : Nat) (before : List Span) :
    ∃ spans, (∀ span ∈ spans, place.Ahead span) ∧
      ⟨(foldMatches p fold fuel acc count place).1, (foldMatches p fold fuel acc count place).2.1,
        (foldMatches p fold fuel acc count place).2.2.offset, before ++ spans⟩ ∈
        (Run.turn run fold).fix ⟨acc, count, place.offset, before⟩ := by
  induction fuel generalizing place acc count before with
  | zero => exact absurd hfuel (Nat.not_lt_zero _)
  | succ fuel ih =>
    obtain ⟨spans, hrun, hspans⟩ := h place hplace
    rw [foldMatches]
    cases hreply : p place with
    | none =>
      rw [hreply] at hrun
      exact ⟨spans, hspans, PFun.fix_stop (Part.mem_map_iff _ |>.mpr ⟨_, hrun, rfl⟩)⟩
    | some reply =>
      obtain ⟨a, rest⟩ := reply
      have hle := hp hreply
      rw [hreply] at hrun
      dsimp only
      split
      · rename_i hstalled
        refine ⟨spans, hspans, PFun.fix_stop (Part.mem_map_iff _ |>.mpr ⟨_, hrun, ?_⟩)⟩
        exact if_pos hstalled
      · rename_i hmoved
        have hlt : place < rest := lt_of_le_of_ne hle fun heq => hmoved (heq ▸ rfl)
        have hlength := Cursor.length_lt_of_lt hlt
        obtain ⟨spans', hspans', hfix⟩ := ih (le_trans hplace hle) (by omega) (fold acc a)
          (count + 1) (before ++ spans)
        refine ⟨spans ++ spans', fun span hspan => ?_, ?_⟩
        · rcases List.mem_append.mp hspan with hspan | hspan
          · exact hspans span hspan
          · exact (hspans' span hspan).mono hle
        · rw [← List.append_assoc]
          refine PFun.mem_fix_iff.mpr (.inr ⟨_, Part.mem_map_iff _ |>.mpr ⟨_, hrun, ?_⟩, hfix⟩)
          exact if_neg hmoved

theorem many (hp : Follows p) (init : β) (fold : β → α → β) :
    Realizes text (Run.many run init fold) (Parser.many p init fold) := by
  intro place hplace
  obtain ⟨spans, hspans, hfix⟩ := h.fix hp fold hplace (Nat.lt_succ_self _) init 0 []
  exact ⟨spans, Part.mem_map_iff _ |>.mpr ⟨_, hfix, rfl⟩, hspans⟩

theorem many1 (hp : Follows p) (init : β) (fold : β → α → β) :
    Realizes text (Run.many1 run init fold) (Parser.many1 p init fold) := by
  intro place hplace
  obtain ⟨spans, hspans, hfix⟩ := h.fix hp fold hplace (Nat.lt_succ_self _) init 0 []
  refine ⟨spans, Part.mem_map_iff _ |>.mpr ⟨_, hfix, ?_⟩, hspans⟩
  unfold Parser.many1 Parser.repeated
  dsimp only
  split
  · rfl
  · rfl

end Realizes

end Realizing

theorem foldMatches_map {α β γ : Type} (p : Parser α) {f : β → γ} {g : β → α → β} {k : γ → α → γ}
    (h : ∀ acc a, f (g acc a) = k (f acc) a) (fuel : Nat) (acc : β) (count : Nat)
    (cursor : Cursor) : foldMatches p k fuel (f acc) count cursor =
      (f (foldMatches p g fuel acc count cursor).1, (foldMatches p g fuel acc count cursor).2) := by
  induction fuel generalizing acc count cursor with
  | zero => rfl
  | succ fuel ih =>
    rw [foldMatches, foldMatches]
    split
    · rfl
    · rename_i a rest _
      rw [← h]
      split
      · rfl
      · exact ih _ _ _

theorem list_eq_many {α : Type} (p : Parser α) :
    list p = many p [] fun items item => items ++ [item] := by
  funext cursor
  have hmap := foldMatches_map p (k := fun items item => items ++ [item])
    (fun (acc : List α) a => List.reverse_cons) (cursor.rest.length + 1) [] 0 cursor
  unfold many repeated
  rw [List.reverse_nil] at hmap
  rw [hmap]
  rfl

namespace Term

variable {α : Type}

theorem parser_follows (t : Term α) : Follows t.parser := by
  induction t with
  | unit value => exact .pure value
  | literal symbol => exact .literal symbol
  | satisfy test => exact (Advances.satisfy test).follows
  | chars p hp => exact hp.many1 _ _
  | map p f hp => exact hp.map f
  | bind p f hp hf =>
    unfold parser
    rw [andThen_eq_bind]
    exact hp.bind hf
  | alt p q hp hq => exact hp.alt hq
  | many p init fold hp => exact hp.many init fold
  | many1 p init fold hp => exact hp.many1 init fold
  | list p hp => exact hp.list
  | maybe p hp => exact hp.maybe
  | pair p q hp hq => exact hp.pair hq
  | left p q hp hq => exact (hp.pair hq).map _
  | right p q hp hq => exact (hp.pair hq).map _
  | verify p test hp => exact hp.verify test
  | token p hp => exact hp.token
  | spanned p hp => exact hp.spanned
  | chainLeft operand operator fold hoperand hoperator =>
    unfold parser Parser.chainLeft
    rw [andThen_eq_bind]
    exact hoperand.bind fun _ => (hoperator.pair hoperand).many _ _

theorem run_realizes (text : String) (t : Term α) : Realizes text (t.run text) t.parser := by
  induction t with
  | unit value => exact .unit value
  | literal symbol => exact .literal symbol
  | satisfy test => exact .satisfy test
  | chars p hp => exact hp.many1 p.parser_follows _ _
  | map p f hp => exact hp.map p.parser_follows f
  | bind p f hp hf => exact hp.bind p.parser_follows hf
  | alt p q hp hq => exact hp.alt hq
  | many p init fold hp => exact hp.many p.parser_follows init fold
  | many1 p init fold hp => exact hp.many1 p.parser_follows init fold
  | list p hp =>
    unfold parser
    rw [list_eq_many]
    exact hp.many p.parser_follows _ _
  | maybe p hp => exact hp.maybe
  | pair p q hp hq => exact hp.pair p.parser_follows hq q.parser_follows
  | left p q hp hq =>
    exact (hp.pair p.parser_follows hq q.parser_follows).map (pair p q).parser_follows _
  | right p q hp hq =>
    exact (hp.pair p.parser_follows hq q.parser_follows).map (pair p q).parser_follows _
  | verify p test hp => exact hp.verify test
  | token p hp => exact hp.token
  | spanned p hp => exact hp.spanned p.parser_follows
  | chainLeft operand operator fold hoperand hoperator =>
    have hpair := hoperator.pair operator.parser_follows hoperand operand.parser_follows
    exact hoperand.bind operand.parser_follows fun first =>
      hpair.many (pair operator operand).parser_follows first fold

/-- An offset between two others where the text can be cut. -/
structure Within (text : String) (start offset : Nat) : Prop where
  behind : start ≤ offset
  inside : offset ≤ byteLength text.toList
  boundary : ∃ place, Cursor.at? text offset = some place

theorem within_of_le {text : String} {place rest : Cursor} (hplace : Cursor.ofText text ≤ place)
    (hle : place ≤ rest) : Within text place.offset rest.offset where
  behind := Cursor.offset_le_of_le hle
  inside := Cursor.offset_le_byteLength (le_trans hplace hle)
  boundary := ⟨rest, Cursor.at?_eq_some_iff.mpr ⟨le_trans hplace hle, rfl⟩⟩

/-- Every term has a run from every place of a text. It ends with the reply of the parser, without a
match or behind it at a place of the text that is not before the start, and the stretches that are
made on the way go from such a place to such a place in order. -/
theorem run_within (t : Term α) (text : String) (start : Nat) (place : Cursor)
    (hplace : Cursor.at? text start = some place) :
    ∃ spans, t.run text start = Part.some (offsets (t.parser place), spans) ∧
      (t.parser place = none ∨ ∃ value rest, t.parser place = some (value, rest) ∧
        Within text start rest.offset ∧ Cursor.at? text rest.offset = some rest) ∧
      ∀ span ∈ spans, span.start ≤ span.stop ∧
        Within text start span.start ∧ Within text start span.stop := by
  rw [Cursor.at?_eq_some_iff] at hplace
  obtain ⟨hplace, rfl⟩ := hplace
  obtain ⟨spans, hrun, hspans⟩ := t.run_realizes text place hplace
  refine ⟨spans, Part.eq_some_iff.mpr hrun, ?_, fun span hspan => ?_⟩
  · cases hreply : t.parser place with
    | none => exact .inl rfl
    | some reply =>
      have hle := t.parser_follows hreply
      exact .inr ⟨reply.1, reply.2, rfl, within_of_le hplace hle,
        Cursor.at?_eq_some_iff.mpr ⟨le_trans hplace hle, rfl⟩⟩
  · obtain ⟨first, last, hfirst, hlast, rfl⟩ := hspans span hspan
    have hstop : (first.spanTo last).stop = last.offset :=
      Nat.add_sub_cancel' (Cursor.offset_le_of_le hlast)
    rw [hstop]
    exact ⟨Cursor.offset_le_of_le hlast, within_of_le hplace hfirst,
      within_of_le hplace (le_trans hfirst hlast)⟩

/-- Matches that may consume nothing, again and again. -/
def marks : Term (List (Option (String × Span))) :=
  .list (.maybe (.spanned (.token (.literal "é"))))

theorem run_within_marks : ∃ spans,
    marks.run "x éé" 1 =
      Part.some (some ([some ("é", ⟨1, 3⟩), some ("é", ⟨4, 2⟩), none], 6), spans) ∧
    ∀ span ∈ spans, span.start ≤ span.stop ∧
      Within "x éé" 1 span.start ∧ Within "x éé" 1 span.stop := by
  obtain ⟨spans, hrun, -, hspans⟩ :=
    run_within marks "x éé" 1 ⟨1, [' ', 'é', 'é']⟩ (by decide +kernel)
  have hreply : offsets (marks.parser ⟨1, [' ', 'é', 'é']⟩) =
      some ([some ("é", ⟨1, 3⟩), some ("é", ⟨4, 2⟩), none], 6) := by
    decide +kernel
  rw [hreply] at hrun
  exact ⟨spans, hrun, hspans⟩

end Term

end Parser

end PCode
