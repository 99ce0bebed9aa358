import PCode.Proofs.Syntax.Tokens

namespace PCode

def UnaryOp.ofSymbol? (x : String) : Option UnaryOp :=
  [.plus, .neg, .not].find? (UnaryOp.symbol · == x)

def BinaryOp.ofSymbol? (x : String) : Option BinaryOp :=
  [.or, .and, .eq, .ne, .lt, .gt, .add, .sub, .mul, .div, .mod].find? (BinaryOp.symbol · == x)

theorem UnaryOp.symbol_mem (op : UnaryOp) : op.symbol ∈ Token.symbols := by
  cases op <;> decide

theorem BinaryOp.symbol_mem (op : BinaryOp) : op.symbol ∈ Token.symbols := by
  cases op <;> decide

namespace Expr

open PCode.Grammar (isWord_of_isName isWord_of_mem_keywords)

mutual

/-- The names in an expression: of variables, functions, parameters and members. -/
def names : Expr → List String
  | .integer .. | .real .. | .text .. | .boolean .. => []
  | .name x _ => [x]
  | .unary _ e _ => e.names
  | .binary _ l r _ | .member l r _ _ | .assign l r _ | .index l r _ => l.names ++ r.names
  | .cond c t e _ => c.names ++ (t.names ++ e.names)
  | .lambda params body _ => params ++ body.names
  | .call f args _ => f :: namesList args
  | .array items _ => namesList items

def namesList : List Expr → List String
  | [] => []
  | e :: es => e.names ++ namesList es

end

mutual

/-- The same expression without notes and ordinals. -/
def stripped : Expr → Expr
  | .integer v _ => .integer v bare
  | .real v _ => .real v bare
  | .text v _ => .text v bare
  | .boolean v _ => .boolean v bare
  | .name x _ => .name x bare
  | .unary op e _ => .unary op e.stripped bare
  | .binary op l r _ => .binary op l.stripped r.stripped bare
  | .member t field _ _ => .member t.stripped field.stripped none bare
  | .assign t v _ => .assign t.stripped v.stripped bare
  | .cond c t e _ => .cond c.stripped t.stripped e.stripped bare
  | .lambda params body _ => .lambda params body.stripped bare
  | .call f args _ => .call f (strippedList args) bare
  | .array items _ => .array (strippedList items) bare
  | .index t p _ => .index t.stripped p.stripped bare

def strippedList : List Expr → List Expr
  | [] => []
  | e :: es => e.stripped :: strippedList es

end

/-- A row in parentheses, with the token that says what it is. -/
def operation (head : Token) (items : List Datum) : Datum :=
  .row false (.token head :: items)

/-- Words as items of a row. -/
def words (ws : List String) : List Datum :=
  ws.map fun w => .token (.word w)

mutual

/-- The tokens of a printed expression. -/
def datum : Expr → Datum
  | .integer v _ => .token (.integer v)
  | .real v _ => .token (.real v)
  | .text v _ => .token (.text v)
  | .boolean v _ => .token (.word (if v then "true" else "false"))
  | .name x _ => .token (.word x)
  | .unary op e _ => operation (.symbol op.symbol) [e.datum]
  | .binary op l r _ => operation (.symbol op.symbol) [l.datum, r.datum]
  | .member t field _ _ => operation (.symbol ".") [t.datum, field.datum]
  | .assign t v _ => operation (.symbol ":=") [t.datum, v.datum]
  | .cond c t e _ => operation (.word "if") [c.datum, t.datum, e.datum]
  | .lambda params body _ => operation (.symbol "\\") [.row false (words params), body.datum]
  | .call f args _ => operation (.word f) (datumList args)
  | .array items _ => .row true (datumList items)
  | .index t p _ => operation (.symbol "@") [t.datum, p.datum]

def datumList : List Expr → List Datum
  | [] => []
  | e :: es => e.datum :: datumList es

end

theorem texts_words (ws : List String) : Datum.texts (words ws) = ws.map String.toList := by
  induction ws with
  | nil => rfl
  | cons w ws ih => exact congrArg (w.toList :: ·) ih

theorem text_operation (t : Token) (items : List Datum) :
    (operation t items).text =
      '(' :: (t.chars ++ ((Datum.texts items).flatMap (' ' :: ·) ++ [')'])) := by
  simp [operation, Datum.text, Datum.texts, Datum.opening, Datum.closing, spacedChars]

mutual

theorem toList_render : ∀ e : Expr, e.render.toList = e.datum.text
  | .integer v n => rfl
  | .real v n => rfl
  | .text v n => rfl
  | .boolean v n => by cases v <;> rfl
  | .name x n => rfl
  | .unary op e n => by
    simp [render, datum, text_operation, Datum.texts, Token.chars, toList_render e]
  | .binary op l r n => by
    simp [render, datum, text_operation, Datum.texts, Token.chars, toList_render l,
      toList_render r]
  | .member t field o n => by
    simp [render, datum, text_operation, Datum.texts, Token.chars, toList_render t,
      toList_render field]
  | .assign t v n => by
    simp [render, datum, text_operation, Datum.texts, Token.chars, toList_render t,
      toList_render v]
  | .cond c t e n => by
    simp [render, datum, text_operation, Datum.texts, Token.chars, toList_render c,
      toList_render t, toList_render e]
  | .lambda params body n => by
    simp [render, datum, text_operation, Datum.texts, Datum.text, Datum.opening, Datum.closing,
      Token.chars, toList_spaced, texts_words, toList_render body]
  | .call f args n => by
    simp [render, datum, text_operation, Token.chars, toList_renderAfter args]
  | .array items n => by
    simp [render, datum, Datum.text, Datum.opening, Datum.closing, toList_spaced,
      toList_renderList items]
  | .index t p n => by
    simp [render, datum, text_operation, Datum.texts, Token.chars, toList_render t,
      toList_render p]

theorem toList_renderList : ∀ es : List Expr,
    (renderList es).map String.toList = Datum.texts (datumList es)
  | [] => rfl
  | e :: es => by
    rw [renderList, datumList, Datum.texts, List.map_cons, toList_render e, toList_renderList es]

theorem toList_renderAfter : ∀ es : List Expr,
    (renderAfter es).toList = (Datum.texts (datumList es)).flatMap (' ' :: ·)
  | [] => rfl
  | e :: es => by
    simp [renderAfter, datumList, Datum.texts, toList_render e, toList_renderAfter es]

end

theorem allLegible_words {ws : List String} (h : ∀ w ∈ ws, IsName w) :
    Datum.AllLegible (words ws) := by
  induction ws with
  | nil => trivial
  | cons w ws ih =>
    rw [List.forall_mem_cons] at h
    exact ⟨isWord_of_isName h.1, ih h.2⟩

mutual

theorem legible_datum : ∀ {e : Expr}, e.realFree = true → (∀ x ∈ e.names, IsName x) →
    e.datum.Legible
  | .integer .., _, _ | .text .., _, _ => trivial
  | .real .., hreal, _ => nomatch hreal
  | .boolean v _, _, _ => isWord_of_mem_keywords (by cases v <;> decide)
  | .name x _, _, hnames => isWord_of_isName (hnames x List.mem_cons_self)
  | .unary op e _, hreal, hnames => ⟨UnaryOp.symbol_mem op, legible_datum hreal hnames, trivial⟩
  | .binary op l r _, hreal, hnames => by
    rw [realFree, Bool.and_eq_true] at hreal
    rw [names, List.forall_mem_append] at hnames
    exact ⟨BinaryOp.symbol_mem op, legible_datum hreal.1 hnames.1,
      legible_datum hreal.2 hnames.2, trivial⟩
  | .index t p _, hreal, hnames => by
    rw [realFree, Bool.and_eq_true] at hreal
    rw [names, List.forall_mem_append] at hnames
    exact ⟨(by decide : "@" ∈ Token.symbols), legible_datum hreal.1 hnames.1,
      legible_datum hreal.2 hnames.2, trivial⟩
  | .member t field _ _, hreal, hnames => by
    rw [realFree, Bool.and_eq_true] at hreal
    rw [names, List.forall_mem_append] at hnames
    exact ⟨(by decide : "." ∈ Token.symbols), legible_datum hreal.1 hnames.1,
      legible_datum hreal.2 hnames.2, trivial⟩
  | .assign t v _, hreal, hnames => by
    rw [realFree, Bool.and_eq_true] at hreal
    rw [names, List.forall_mem_append] at hnames
    exact ⟨(by decide : ":=" ∈ Token.symbols), legible_datum hreal.1 hnames.1,
      legible_datum hreal.2 hnames.2, trivial⟩
  | .cond c t e _, hreal, hnames => by
    simp only [realFree, Bool.and_eq_true] at hreal
    simp only [names, List.forall_mem_append] at hnames
    exact ⟨isWord_of_mem_keywords (by decide), legible_datum hreal.1.1 hnames.1,
      legible_datum hreal.1.2 hnames.2.1, legible_datum hreal.2 hnames.2.2, trivial⟩
  | .lambda params body _, hreal, hnames => by
    rw [names, List.forall_mem_append] at hnames
    exact ⟨(by decide : "\\" ∈ Token.symbols), allLegible_words hnames.1,
      legible_datum hreal hnames.2, trivial⟩
  | .call f args _, hreal, hnames => by
    rw [names, List.forall_mem_cons] at hnames
    exact ⟨isWord_of_isName hnames.1, allLegible_datumList hreal hnames.2⟩
  | .array items _, hreal, hnames => allLegible_datumList hreal hnames

theorem allLegible_datumList : ∀ {es : List Expr}, realFreeList es = true →
    (∀ x ∈ namesList es, IsName x) → Datum.AllLegible (datumList es)
  | [], _, _ => trivial
  | e :: es, hreal, hnames => by
    rw [realFreeList, Bool.and_eq_true] at hreal
    rw [namesList, List.forall_mem_append] at hnames
    exact ⟨legible_datum hreal.1 hnames.1, allLegible_datumList hreal.2 hnames.2⟩

end

end Expr

/-- The expression that a token is by itself. -/
def Token.expr? : Token → Option Expr
  | .integer value => some (.integer value bare)
  | .real bits => some (.real bits bare)
  | .text value => some (.text value bare)
  | .word "true" => some (.boolean true bare)
  | .word "false" => some (.boolean false bare)
  | .word w => some (.name w bare)
  | .symbol _ => none

namespace Datum

def word? : Datum → Option String
  | .token (.word w) => some w
  | _ => none

def words? : Datum → List String
  | .row _ items => items.filterMap word?
  | .token _ => []

/-- The operation of a symbol on two items, when it is known which expressions they are. -/
def infixed? (x : String) (left : Datum) (l r : Option Expr) : Option Expr :=
  match x with
  | "." => return .member (← l) (← r) none bare
  | ":=" => return .assign (← l) (← r) bare
  | "\\" => return .lambda left.words? (← r) bare
  | "@" => return .index (← l) (← r) bare
  | x => return .binary (← BinaryOp.ofSymbol? x) (← l) (← r) bare

/-- The operation that a token with items behind it is. -/
def operation? : Token → List Datum → List (Option Expr) → Option Expr
  -- A sign in front of one item is unary, in front of two it is binary.
  | .symbol x, _, [e] => return .unary (← UnaryOp.ofSymbol? x) (← e) bare
  | .symbol x, [left, _], [l, r] => infixed? x left l r
  | .word "if", _, [c, t, e] => return .cond (← c) (← t) (← e) bare
  | .word f, _, args => some (.call f (args.filterMap id) bare)
  | _, _, _ => none

mutual

/-- The expression that a row of tokens is. -/
def expr? : Datum → Option Expr
  | .token t => t.expr?
  | .row true items => some (.array ((exprs? items).filterMap id) bare)
  | .row false (.token head :: items) => operation? head items (exprs? items)
  | .row false _ => none

def exprs? : List Datum → List (Option Expr)
  | [] => []
  | d :: ds => d.expr? :: exprs? ds

end

end Datum

namespace Expr

theorem expr?_operation (head : Token) (items : List Datum) :
    (operation head items).expr? = Datum.operation? head items (Datum.exprs? items) :=
  rfl

theorem ne_keyword {x k : String} (h : IsName x) (hk : k ∈ Grammar.keywords) : x ≠ k := by
  rintro rfl
  exact h.keyword hk

theorem expr?_word {x : String} (h : IsName x) : (Token.word x).expr? = some (.name x bare) := by
  rw [Token.expr?]
  · exact ne_keyword h (by decide)
  · exact ne_keyword h (by decide)

theorem operation?_word {f : String} (h : IsName f) (items : List Datum)
    (args : List (Option Expr)) :
    Datum.operation? (.word f) items args = some (.call f (args.filterMap id) bare) := by
  rw [Datum.operation?]
  intro c t e _
  exact ne_keyword h (by decide)

-- The parameters of a function are no expressions; they are read as words.
theorem words?_words (square : Bool) (ws : List String) :
    (Datum.row square (words ws)).words? = ws := by
  rw [Datum.words?, words, List.filterMap_map]
  exact List.filterMap_some

mutual

theorem expr?_datum : ∀ {e : Expr}, (∀ x ∈ e.names, IsName x) → e.datum.expr? = some e.stripped
  | .integer .., _ | .real .., _ | .text .., _ => rfl
  | .boolean v _, _ => by cases v <;> rfl
  | .name x _, hnames => expr?_word (hnames x List.mem_cons_self)
  | .unary op e _, hnames => by
    have he : e.datum.expr? = some e.stripped := expr?_datum hnames
    rw [datum, expr?_operation, Datum.exprs?, he]
    cases op <;> rfl
  | .binary op l r _, hnames => by
    rw [names, List.forall_mem_append] at hnames
    rw [datum, expr?_operation, Datum.exprs?, Datum.exprs?, expr?_datum hnames.1,
      expr?_datum hnames.2]
    cases op <;> rfl
  | .member l r _ _, hnames | .assign l r _, hnames => by
    rw [names, List.forall_mem_append] at hnames
    rw [datum, expr?_operation, Datum.exprs?, Datum.exprs?, expr?_datum hnames.1,
      expr?_datum hnames.2]
    rfl
  | .cond c t e _, hnames => by
    simp only [names, List.forall_mem_append] at hnames
    rw [datum, expr?_operation, Datum.exprs?, Datum.exprs?, Datum.exprs?, expr?_datum hnames.1,
      expr?_datum hnames.2.1, expr?_datum hnames.2.2]
    rfl
  | .lambda params body _, hnames => by
    rw [names, List.forall_mem_append] at hnames
    rw [datum, expr?_operation, Datum.exprs?, Datum.exprs?, expr?_datum hnames.2, stripped]
    exact congrArg (fun ws => some (Expr.lambda ws body.stripped bare)) (words?_words false params)
  | .call f args _, hnames => by
    rw [names, List.forall_mem_cons] at hnames
    rw [datum, expr?_operation, operation?_word hnames.1, exprs?_datumList hnames.2, stripped]
  | .array items _, hnames => by
    rw [datum, Datum.expr?, exprs?_datumList hnames, stripped]
  | .index t p _, hnames => by
    rw [names, List.forall_mem_append] at hnames
    rw [datum, expr?_operation, Datum.exprs?, Datum.exprs?, expr?_datum hnames.1,
      expr?_datum hnames.2]
    rfl

theorem exprs?_datumList : ∀ {es : List Expr}, (∀ x ∈ namesList es, IsName x) →
    (Datum.exprs? (datumList es)).filterMap id = strippedList es
  | [], _ => rfl
  | e :: es, hnames => by
    rw [namesList, List.forall_mem_append] at hnames
    rw [datumList, Datum.exprs?, expr?_datum hnames.1, strippedList, ← exprs?_datumList hnames.2]
    rfl

end

mutual

theorem render_stripped : ∀ e : Expr, e.stripped.render = e.render
  | .integer .. | .real .. | .text .. | .boolean .. | .name .. => rfl
  | .unary op e _ => by rw [stripped, render, render, render_stripped e]
  | .binary op l r _ => by rw [stripped, render, render, render_stripped l, render_stripped r]
  | .member t field _ _ => by
    rw [stripped, render, render, render_stripped t, render_stripped field]
  | .assign t v _ => by rw [stripped, render, render, render_stripped t, render_stripped v]
  | .cond c t e _ => by
    rw [stripped, render, render, render_stripped c, render_stripped t, render_stripped e]
  | .lambda _ body _ => by rw [stripped, render, render, render_stripped body]
  | .call _ args _ => by rw [stripped, render, render, renderAfter_strippedList args]
  | .array items _ => by rw [stripped, render, render, renderList_strippedList items]
  | .index t p _ => by rw [stripped, render, render, render_stripped t, render_stripped p]

theorem renderList_strippedList : ∀ es : List Expr, renderList (strippedList es) = renderList es
  | [] => rfl
  | e :: es => by
    rw [strippedList, renderList, renderList, render_stripped e, renderList_strippedList es]

theorem renderAfter_strippedList : ∀ es : List Expr,
    renderAfter (strippedList es) = renderAfter es
  | [] => rfl
  | e :: es => by
    rw [strippedList, renderAfter, renderAfter, render_stripped e, renderAfter_strippedList es]

end

/-- Two expressions without real literals, with names that are no keywords, print the same exactly
if they are the same up to places, types and the ordinals of members. -/
theorem render_eq_iff_stripped {a b : Expr} (ha : a.realFree = true) (hb : b.realFree = true)
    (hnames : ∀ x ∈ a.names, IsName x) (hnames' : ∀ x ∈ b.names, IsName x) :
    a.render = b.render ↔ a.stripped = b.stripped := by
  constructor
  · intro h
    have htext : a.datum.text ++ [] = b.datum.text ++ [] := by
      rw [← toList_render, ← toList_render, h]
    have hends : Token.Ends [] := nofun
    obtain ⟨hdatum, -⟩ := Datum.text_append_inj (legible_datum ha hnames) (legible_datum hb hnames')
      hends hends htext
    -- Reading the tokens again gives an expression without notes, and the tokens are the same.
    have hread : some a.stripped = some b.stripped := by
      rw [← expr?_datum hnames, ← expr?_datum hnames', hdatum]
    exact Option.some.inj hread
  · intro h
    rw [← render_stripped a, ← render_stripped b, h]

/-- The value `p := (f "a) \"(b" -5).x`, with any notes and ordinal. -/
def quotedCall (note : Note) (ordinal : Option Nat) : Expr :=
  .assign (.name "p" note) (.member (.call "f" [.text "a) \"(b" note, .integer (-5) note] note)
    (.name "x" note) ordinal note) note

theorem render_eq_iff_stripped_quotedCall :
    (quotedCall bare none).realFree = true ∧ (∀ x ∈ (quotedCall bare none).names, IsName x) ∧
      (quotedCall bare none).stripped = (quotedCall ⟨.point 3, .i64⟩ (some 1)).stripped :=
  have hnames : ∀ x ∈ (quotedCall bare none).names, IsName x := by decide +kernel
  ⟨rfl, hnames, (render_eq_iff_stripped rfl rfl hnames hnames).mp rfl⟩

end Expr

end PCode
