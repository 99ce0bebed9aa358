import PCode.Proofs.Grammar.Descent

namespace PCode.Grammar

open PCode.Parser

/-- The kinds of phrases that the rules of the grammar are about. -/
inductive Phrase where
  | type
  | atom
  | postfixed
  | unary
  | expression
  | branch
  | block
  | statement

namespace Phrase

/-- What phrases of a kind are read as. -/
abbrev Value : Phrase → Type
  | .type => Ty
  | .atom | .postfixed | .unary | .expression => Expr
  | .branch => Note → Stmt
  | .block => List Stmt
  | .statement => Stmt

/-- Only phrases of a lower rank are tried where a phrase starts. -/
def rank : Phrase → Nat
  | .type | .atom | .branch | .block => 0
  | .postfixed => 1
  | .unary => 2
  | .expression => 3
  | .statement => 4

theorem rank_le (phrase : Phrase) : phrase.rank ≤ 4 := by
  cases phrase <;> decide

end Phrase

/-- A parser for each kind of phrase. -/
abbrev Reader :=
  (phrase : Phrase) → Parser phrase.Value

/-- The rules: the parser of each phrase from those of the phrases in it. -/
def rule (read : Reader) : Reader
  | .type => typeForm (read .type)
  | .atom => atom (read .expression)
  | .postfixed => andThen (read .atom) fun first =>
      many (suffix (read .expression)) first applySuffix
  | .unary => alt (read .postfixed) (prefixed (read .unary))
  | .expression => alt (assignment (read .expression)) (binary (read .unary) levels)
  | .branch => branchForm (read .expression) (read .block) (read .branch)
  | .block => block (read .statement)
  | .statement => stmtNode (stmtForm (read .type) (read .expression) (read .block) (read .branch))

/-- The parsers of the grammar, each with as much fuel as there are characters ahead. -/
def reader : Reader
  | .type => readType
  | .atom => atom readExpr
  | .postfixed => postfixed readExpr
  | .unary => readOperand
  | .expression => readExpr
  | .branch => readBranch
  | .block => block readStmt
  | .statement => readStmt

theorem reader_advances (phrase : Phrase) : Advances (reader phrase) := by
  have hi := readExpr_advances.follows
  cases phrase with
  | type => exact readType_advances
  | atom => exact atom_advances hi
  | postfixed => exact postfixed_advances hi
  | unary => exact readOperand_advances
  | expression => exact readExpr_advances
  | branch => exact readBranch_advances
  | block => exact block_advances readStmt_advances.follows
  | statement => exact readStmt_advances

theorem rule_reader : rule reader = reader := by
  funext phrase
  cases phrase with
  | type => exact readType_eq.symm
  | unary => exact readOperand_eq.symm
  | expression => exact readExpr_eq.symm
  | branch => exact readBranch_eq.symm
  | statement => exact readStmt_eq.symm
  | atom | postfixed | block => rfl

/-- A phrase to be read at a place. -/
structure Call where
  phrase : Phrase
  place : Cursor

namespace Call

/-- `inner` may be read on the way to `call`: it starts later, or at the same place with a lower
rank. -/
def Below (inner call : Call) : Prop :=
  call.place ≤ inner.place ∧
    (call.place < inner.place ∨ inner.phrase.rank < call.phrase.rank)

theorem Below.trans {a b c : Call} (h : Below a b) (h' : Below b c) : Below a c := by
  refine ⟨le_trans h'.1 h.1, ?_⟩
  rcases h'.2 with hlt | hrank
  · exact .inl (lt_of_lt_of_le hlt h.1)
  · rcases h.2 with hlt | hrank'
    · exact .inl (lt_of_le_of_lt h'.1 hlt)
    · exact .inr (Nat.lt_trans hrank' hrank)

/-- The characters ahead, and the rank, in one number. -/
def size (call : Call) : Nat :=
  5 * call.place.rest.length + call.phrase.rank

theorem Below.size_lt {inner call : Call} (h : Below inner call) : inner.size < call.size := by
  have hrank := inner.phrase.rank_le
  unfold size
  rcases h.2 with hlt | hlower
  · have hlength := Cursor.length_lt_of_lt hlt
    omega
  · have hlength := Cursor.length_le_of_le h.1
    omega

end Call

section Guarded

variable {read read' : Reader} {phrase : Phrase} {place : Cursor}

/-- Two readers agree on whatever is below a phrase at a place. -/
def AgreeBelow (read read' : Reader) (phrase : Phrase) (place : Cursor) : Prop :=
  ∀ inner : Call, inner.Below ⟨phrase, place⟩ →
    read inner.phrase inner.place = read' inner.phrase inner.place

theorem AgreeBelow.behind (h : AgreeBelow read read' phrase place) (inner : Phrase) :
    SameBehind place (read inner) (read' inner) :=
  fun later hlt => h ⟨inner, later⟩ ⟨le_of_lt hlt, .inl hlt⟩

theorem AgreeBelow.same (h : AgreeBelow read read' phrase place) (inner : Phrase)
    (hrank : inner.rank < phrase.rank) : Same place (read inner) (read' inner) :=
  fun later hle => h ⟨inner, later⟩ ⟨hle, .inr hrank⟩

/-- The rule of a phrase depends only on what is below the phrase. -/
theorem rule_eq_of_agreeBelow (hread : ∀ phrase, Follows (read phrase))
    (h : AgreeBelow read read' phrase place) :
    rule read phrase place = rule read' phrase place := by
  have hexpr := hread .expression
  have hplace := le_refl place
  cases phrase with
  | type => exact typeForm_same (hread .type) (h.behind .type) hplace
  | atom => exact atom_same hexpr (h.behind .expression) hplace
  | postfixed =>
    show andThen _ _ _ = andThen _ _ _
    rw [andThen_eq_bind, andThen_eq_bind]
    exact (h.same .atom (by decide)).bind (hread .atom) (fun _ =>
      (suffix_same hexpr (h.behind .expression)).many (suffix_advances hexpr).follows _ _) hplace
  | unary =>
    exact (h.same .postfixed (by decide)).alt
      (prefixed_same (hread .unary) (h.behind .unary)) hplace
  | expression =>
    exact (assignment_same hexpr (h.behind .expression)).alt
      (binary_same (hread .unary) (h.same .unary (by decide)) levels) hplace
  | branch =>
    exact branchForm_same hexpr (hread .block) (hread .branch) (h.behind .expression)
      (h.behind .block) (h.behind .branch) hplace
  | block => exact block_same (hread .statement) (h.behind .statement) hplace
  | statement =>
    exact stmtNode_same (stmtForm_same (hread .type) hexpr (hread .block) (h.behind .type)
      (h.same .expression (by decide)) (h.same .block (by decide))
      (h.same .branch (by decide))) hplace

/-- Parsers that obey the rules are those of the grammar. -/
theorem eq_reader_of_rule (h : rule read = read) : read = reader := by
  have hall : ∀ (n : Nat) (call : Call), call.size = n →
      reader call.phrase call.place = read call.phrase call.place := by
    intro n
    induction n using Nat.strongRecOn with
    | ind n ih =>
      intro call hn
      rw [← h, ← rule_reader]
      apply rule_eq_of_agreeBelow fun phrase => ?_
      · intro inner hinner
        exact ih inner.size (hn ▸ hinner.size_lt) inner rfl
      · exact (reader_advances phrase).follows
  funext phrase place
  exact (hall _ ⟨phrase, place⟩ rfl).symm

end Guarded

namespace Call

/-- What a phrase is read as depends on what another phrase is read as: with some parsers that do
not go back, the rule comes to something else if they are changed there alone. -/
def Needs (call inner : Call) : Prop :=
  ∃ read read' : Reader, (∀ phrase, Follows (read phrase)) ∧
    (∀ phrase place, Call.mk phrase place ≠ inner → read phrase place = read' phrase place) ∧
    rule read call.phrase call.place ≠ rule read' call.phrase call.place

theorem Needs.below {call inner : Call} (h : Needs call inner) : inner.Below call := by
  obtain ⟨read, read', hread, hsame, hne⟩ := h
  apply Classical.byContradiction
  intro hbelow
  apply hne
  apply rule_eq_of_agreeBelow hread
  intro other hother
  apply hsame
  rintro rfl
  exact hbelow hother

/-- No descent through the rules goes on for ever. -/
theorem needs_wellFounded : WellFounded fun inner call : Call => Needs call inner :=
  Subrelation.wf (fun h => (Needs.below h).size_lt) (measure Call.size).wf

theorem below_of_transGen {call inner : Call} (h : Relation.TransGen Needs call inner) :
    inner.Below call := by
  induction h with
  | single h => exact h.below
  | tail _ h ih => exact h.below.trans ih

end Call

/-- What the rules of the grammar repeat. -/
inductive Repeated (read : Reader) : {α : Type} → Parser α → Prop where
  | wordChar : Repeated read (satisfy isWordChar)
  | digit : Repeated read (satisfy Char.isDigit)
  | stringChar : Repeated read stringChar
  | commentChar : Repeated read (satisfy (· != '\n'))
  | type : Repeated read (read .type)
  | lambdaParam : Repeated read ident
  | argument : Repeated read (argument (read .expression))
  | item : Repeated read (read .expression)
  | suffix : Repeated read (suffix (read .expression))
  | operation {looser level tighter} : levels = looser ++ level :: tighter →
      Repeated read (pair (binaryOp level) (binary (read .unary) tighter))
  | member : Repeated read (recordMember (read .type))
  | binding : Repeated read (right (punct ",") (binding (read .expression)))
  | parameter : Repeated read parameter
  | statement : Repeated read (read .statement)

theorem Repeated.advances {α : Type} {p : Parser α} (h : Repeated reader p) : Advances p := by
  have hexpr := readExpr_advances.follows
  have htype := readType_advances.follows
  cases h with
  | wordChar | digit | commentChar => exact .satisfy _
  | stringChar => exact stringChar_advances
  | type => exact readType_advances
  | lambdaParam => exact ident_advances
  | argument => exact argument_advances readExpr_advances
  | item => exact readExpr_advances
  | suffix => exact suffix_advances hexpr
  | operation _ =>
    exact (binaryOp_advances _).pair (binary_follows readOperand_advances.follows _)
  | member => exact recordMember_advances htype
  | binding => exact localBinding_advances hexpr
  | parameter => exact parameter_advances
  | statement => exact readStmt_advances

end PCode.Grammar

namespace PCode

open PCode.Parser PCode.Grammar

/-- Reads a program with a parser of statements. -/
def Program.parseWith (statement : Parser Stmt) (text : String) : Except ParseError Program :=
  let (reversed, _, rest) :=
    Parser.repeated statement [] (fun items s => s :: items) (Cursor.ofText text)
  let rest := rest.skipSpacing
  if rest.isEmpty then .ok reversed.reverse else .error ⟨rest.offset⟩

theorem Program.repeated_statement (text : String) :
    Parser.repeated (statement ((Cursor.ofText text).rest.length + 1)) []
        (fun items s => s :: items) (Cursor.ofText text) =
      Parser.repeated readStmt [] (fun items s => s :: items) (Cursor.ofText text) := by
  have hsame : Same (Cursor.ofText text) (statement ((Cursor.ofText text).rest.length + 1))
      readStmt :=
    fun _ hle => statement_eq_readStmt (Nat.lt_succ_of_le (Cursor.length_le_of_le hle))
  exact hsame.foldMatches (statement_advances _).follows _ _ [] 0 (le_refl _)

theorem Program.parse_eq_parseWith (text : String) :
    Program.parse text = Program.parseWith readStmt text := by
  unfold Program.parse Program.parseWith
  dsimp only
  rw [Program.repeated_statement]

/-- Reading a program gives its statements, or an error at a place of the text. -/
theorem Program.parse_outcome (text : String) :
    (∃ program, Program.parse text = .ok program) ∨
      ∃ offset place, Cursor.at? text offset = some place ∧
        Program.parse text = .error ⟨offset⟩ := by
  have hle := readStmt_advances.follows.foldMatches (fun items s => s :: items)
    ((Cursor.ofText text).rest.length + 1) [] 0 (Cursor.ofText text)
  rw [Program.parse_eq_parseWith]
  unfold Program.parseWith Parser.repeated
  dsimp only
  split
  · exact .inl ⟨_, rfl⟩
  · exact .inr ⟨_, _, Cursor.at?_eq_some_iff.mpr ⟨le_trans hle (Cursor.le_skipSpacing _), rfl⟩, rfl⟩

namespace Grammar

/-- Reading comes to an end and makes progress. The rules of the grammar have one solution, with
which programs are read, and no descent through them goes on for ever. A phrase that is read at a
place of a text ends at a later place of it, so no repetition meets an empty match, and a descent
from a phrase to a phrase of the same kind has moved on. -/
theorem terminates_with_progress :
    (∀ read : Reader, rule read = read ↔ read = reader) ∧
    (∀ text : String, Program.parse text = Program.parseWith (reader .statement) text ∧
      ((∃ program, Program.parse text = .ok program) ∨
        ∃ offset place, Cursor.at? text offset = some place ∧
          Program.parse text = .error ⟨offset⟩)) ∧
    (∀ (fuel : Nat) (cursor : Cursor), cursor.rest.length < fuel →
      type fuel cursor = reader .type cursor ∧
      expression fuel cursor = reader .expression cursor ∧
      statement fuel cursor = reader .statement cursor) ∧
    (∀ (text : String) (offset : Nat) (place : Cursor), Cursor.at? text offset = some place →
      ∀ phrase : Phrase, reader phrase place = none ∨
        ∃ value rest, reader phrase place = some (value, rest) ∧ offset < rest.offset ∧
          rest.offset ≤ byteLength text.toList ∧ Cursor.at? text rest.offset = some rest) ∧
    (∀ (α : Type) (p : Parser α), Repeated reader p →
      ∀ place value rest, p place = some (value, rest) → rest.offset ≠ place.offset) ∧
    (WellFounded fun inner call : Call => call.Needs inner) ∧
    (∀ (phrase : Phrase) (place place' : Cursor),
      Relation.TransGen Call.Needs ⟨phrase, place⟩ ⟨phrase, place'⟩ →
        place.offset < place'.offset) := by
  refine ⟨fun read => ⟨eq_reader_of_rule, ?_⟩,
    fun text => ⟨Program.parse_eq_parseWith text, Program.parse_outcome text⟩, ?_, ?_, ?_,
    Call.needs_wellFounded, ?_⟩
  · rintro rfl
    exact rule_reader
  · intro fuel cursor h
    exact ⟨type_eq_readType h, expression_eq_readExpr h, statement_eq_readStmt h⟩
  · intro text offset place hplace phrase
    rw [Cursor.at?_eq_some_iff] at hplace
    obtain ⟨hplace, rfl⟩ := hplace
    cases hreply : reader phrase place with
    | none => exact .inl rfl
    | some reply =>
      obtain ⟨value, rest⟩ := reply
      have hlt := reader_advances phrase hreply
      have hrest := le_trans hplace (le_of_lt hlt)
      exact .inr ⟨value, rest, rfl, Cursor.offset_lt_of_lt hlt, Cursor.offset_le_byteLength hrest,
        Cursor.at?_eq_some_iff.mpr ⟨hrest, rfl⟩⟩
  · intro α p hp place value rest hreply
    exact Nat.ne_of_gt (Cursor.offset_lt_of_lt (hp.advances hreply))
  · intro phrase place place' h
    rcases (Call.below_of_transGen h).2 with hlt | hrank
    · exact Cursor.offset_lt_of_lt hlt
    · exact absurd hrank (Nat.lt_irrefl _)

section Samples

/-- An assignment of a text that takes two bytes. -/
def assignmentText : String :=
  "a:=\"é\""

/-- Where the value of the assignment starts. -/
def valuePlace : Cursor :=
  ⟨3, ['"', 'é', '"']⟩

/-- Parsers that match an expression at one place, if at all. -/
def valueReader (found : Bool) : Reader
  | .expression => fun cursor =>
    if found = true ∧ cursor = valuePlace then some (.text "é" ⟨.point 3, .unknown⟩, ⟨7, []⟩)
    else none
  | .type | .atom | .postfixed | .unary | .branch | .block | .statement => reject

theorem assignment_needs_value :
    Call.Needs ⟨.expression, Cursor.ofText assignmentText⟩ ⟨.expression, valuePlace⟩ := by
  refine ⟨valueReader false, valueReader true, ?_, ?_, ?_⟩
  · intro phrase cursor value rest heq
    cases phrase <;> cases heq
  · intro phrase place hne
    cases phrase <;> try rfl
    have hplace : place ≠ valuePlace := by
      rintro rfl
      exact hne rfl
    simp [valueReader, hplace]
  · intro heq
    have hnone : (rule (valueReader false) .expression (Cursor.ofText assignmentText)).isSome
        = false := by decide +kernel
    have hsome : (rule (valueReader true) .expression (Cursor.ofText assignmentText)).isSome
        = true := by decide +kernel
    rw [heq, hsome] at hnone
    cases hnone

theorem assignmentText_read : (match Cursor.at? assignmentText 0 with
    | some place => (reader .expression place).isSome && place == Cursor.ofText assignmentText
    | none => false) = true := by
  decide +kernel

theorem terminates_with_progress_assignment :
    ∃ place value rest, Cursor.at? assignmentText 0 = some place ∧
      reader .expression place = some (value, rest) ∧ 0 < rest.offset ∧
      rest.offset ≤ byteLength assignmentText.toList ∧
      Cursor.at? assignmentText rest.offset = some rest ∧ rest.offset ≠ place.offset ∧
      expression 7 place = reader .expression place ∧ place.offset < valuePlace.offset := by
  obtain ⟨-, -, hfuel, hplaces, hrepeated, -, hdescent⟩ := terminates_with_progress
  have h := assignmentText_read
  split at h
  · rename_i place hplace
    rw [Bool.and_eq_true, beq_iff_eq] at h
    obtain ⟨hread, rfl⟩ := h
    rcases hplaces _ _ _ hplace .expression with hnone | ⟨value, rest, hrest, hlt, hle, hend⟩
    · rw [hnone] at hread
      cases hread
    · exact ⟨_, value, rest, hplace, hrest, hlt, hle, hend,
        hrepeated _ _ .item _ _ _ hrest, (hfuel 7 _ (by decide)).2.1,
        hdescent _ _ _ (.single assignment_needs_value)⟩
  · cases h

end Samples

end Grammar

end PCode
