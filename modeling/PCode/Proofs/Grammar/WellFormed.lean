import PCode.Grammar.Lexeme
import PCode.Syntax

namespace PCode

/-- A nonempty run of letters, numbers and underscores that does not start with an ASCII digit and
is no keyword. -/
structure IsName (name : String) : Prop where
  nonempty : name.toList ≠ []
  chars : ∀ c ∈ name.toList, Text.isAlphanumeric c = true ∨ c = '_'
  start : ∀ c, name.toList.head? = some c → c.isDigit = false
  keyword : name ∉ Grammar.keywords

instance (name : String) : Decidable (IsName name) :=
  decidable_of_iff (name.toList ≠ [] ∧ name.toList.all Grammar.isWordChar = true ∧
      name.toList.head?.all (!·.isDigit) = true ∧ name ∉ Grammar.keywords)
    ⟨fun ⟨hne, hchars, hstart, hkeyword⟩ =>
        ⟨hne, by simpa [Grammar.isWordChar] using hchars,
          by simpa [Option.all_eq_true] using hstart, hkeyword⟩,
      fun h => ⟨h.nonempty, by simpa [Grammar.isWordChar] using h.chars,
        by simpa [Option.all_eq_true] using h.start, h.keyword⟩⟩

/-- A text without blanks at its two ends. -/
def Text.Trimmed (text : List Char) : Prop :=
  (∀ c, text.head? = some c → isBlank c = false) ∧ ∀ c, text.getLast? = some c → isBlank c = false

/-- Types of the forms in which they can be written. -/
inductive Ty.WellFormed : Ty → Prop where
  | i64 : WellFormed .i64
  | real : WellFormed .real
  | string : WellFormed .string
  | bool : WellFormed .bool
  | vararg : WellFormed .vararg
  | array {element} : WellFormed element → WellFormed (.array element)
  | function {params ret} : (∀ param ∈ params, WellFormed param) → WellFormed ret →
      WellFormed (.function params false ret)
  | named {name} : IsName name → name ∉ ["i64", "real", "string", "bool"] →
      WellFormed (.record name [])

/-- Expressions that are not checked yet. Only a name is a member or assigned to. -/
inductive Expr.WellFormed : Expr → Prop where
  | integer {v n} : n.ty = .unknown → WellFormed (.integer v n)
  | real {v n} : n.ty = .unknown → WellFormed (.real v n)
  | text {v n} : n.ty = .unknown → WellFormed (.text v n)
  | boolean {v n} : n.ty = .unknown → WellFormed (.boolean v n)
  | name {x n} : IsName x → n.ty = .unknown → WellFormed (.name x n)
  | unary {op e n} : WellFormed e → n.ty = .unknown → WellFormed (.unary op e n)
  | binary {op l r n} : WellFormed l → WellFormed r → n.ty = .unknown →
      WellFormed (.binary op l r n)
  | member {t field fn n} : WellFormed t → IsName field → fn.ty = .unknown → n.ty = .unknown →
      WellFormed (.member t (.name field fn) none n)
  | assign {x xn v n} : IsName x → xn.ty = .unknown → WellFormed v → n.ty = .unknown →
      WellFormed (.assign (.name x xn) v n)
  | cond {c t e n} : WellFormed c → WellFormed t → WellFormed e → n.ty = .unknown →
      WellFormed (.cond c t e n)
  | lambda {params body n} : params ≠ [] → (∀ param ∈ params, IsName param) → WellFormed body →
      n.ty = .unknown → WellFormed (.lambda params body n)
  | call {f args n} : IsName f → (∀ arg ∈ args, WellFormed arg) → n.ty = .unknown →
      WellFormed (.call f args n)
  | array {items n} : (∀ item ∈ items, WellFormed item) → n.ty = .unknown →
      WellFormed (.array items n)
  | index {t p n} : WellFormed t → WellFormed p → n.ty = .unknown → WellFormed (.index t p n)

/-- Statements that are not checked yet. No local bindings stand before a block. -/
inductive Stmt.WellFormed : Stmt → Prop where
  | expr {e n} : e.WellFormed → n.ty = .unknown → WellFormed (.expr e n)
  | declare {name params variadic ret n} : IsName name →
      (Ty.function params variadic ret).WellFormed → n.ty = .unknown →
      WellFormed (.declare name (.function params variadic ret) n)
  | record {name members n} : IsName name → members ≠ [] →
      (∀ m ∈ members, IsName m.1 ∧ m.2.WellFormed) → n.ty = .unknown →
      WellFormed (.record name members n)
  | comment {text n} : Text.Trimmed text.toList → '\n' ∉ text.toList → n.ty = .unknown →
      WellFormed (.comment text n)
  | ret {e n} : e.WellFormed → n.ty = .unknown → WellFormed (.ret e n)
  | define {name params locals e n} : IsName name → (∀ param ∈ params, IsName param) →
      (∀ l ∈ locals, IsName l.1 ∧ l.2.WellFormed) → e.WellFormed → n.ty = .unknown →
      WellFormed (.define name params locals e n)
  | defineBlock {name params body n} : IsName name → (∀ param ∈ params, IsName param) →
      (∀ s ∈ body, WellFormed s) → n.ty = .unknown →
      WellFormed (.defineBlock name params [] body n)
  | loop {c body n} : c.WellFormed → (∀ s ∈ body, WellFormed s) → n.ty = .unknown →
      WellFormed (.loop c body n)
  | branch {c t e n} : c.WellFormed → (∀ s ∈ t, WellFormed s) → (∀ s ∈ e, WellFormed s) →
      n.ty = .unknown → WellFormed (.branch c t e n)
  | bind {x e n} : IsName x → e.WellFormed → n.ty = .unknown → WellFormed (.bind x e n)
  | block {body n} : (∀ s ∈ body, WellFormed s) → n.ty = .unknown → WellFormed (.block body n)

/-- Programs that are not checked yet. -/
def Program.WellFormed (program : Program) : Prop :=
  ∀ s ∈ program, s.WellFormed

namespace Expr

mutual

/-- There is no real literal in an expression. -/
def realFree : Expr → Bool
  | .real .. => false
  | .integer .. | .text .. | .boolean .. | .name .. => true
  | .unary _ e _ | .lambda _ e _ => e.realFree
  | .binary _ l r _ | .member l r _ _ | .assign l r _ | .index l r _ => l.realFree && r.realFree
  | .cond c t e _ => c.realFree && t.realFree && e.realFree
  | .call _ es _ | .array es _ => realFreeList es

def realFreeList : List Expr → Bool
  | [] => true
  | e :: es => e.realFree && realFreeList es

end

theorem realFreeList_iff {es : List Expr} :
    realFreeList es = true ↔ ∀ e ∈ es, e.realFree = true := by
  induction es with
  | nil => simp [realFreeList]
  | cons e es ih => simp [realFreeList, ih]

end Expr

namespace Stmt

mutual

/-- There is no real literal in a statement. -/
def realFree : Stmt → Bool
  | .expr e _ | .ret e _ | .bind _ e _ => e.realFree
  | .declare .. | .record .. | .comment .. => true
  | .define _ _ locals e _ => locals.all (·.2.realFree) && e.realFree
  | .defineBlock _ _ locals body _ => locals.all (·.2.realFree) && realFreeList body
  | .block body _ => realFreeList body
  | .loop c body _ => c.realFree && realFreeList body
  | .branch c t e _ => c.realFree && realFreeList t && realFreeList e

def realFreeList : List Stmt → Bool
  | [] => true
  | s :: ss => s.realFree && realFreeList ss

end

theorem realFreeList_iff {ss : List Stmt} :
    realFreeList ss = true ↔ ∀ s ∈ ss, s.realFree = true := by
  induction ss with
  | nil => simp [realFreeList]
  | cons s ss ih => simp [realFreeList, ih]

end Stmt

/-- A note that does not say where its node stands. -/
def Note.unplaced (note : Note) : Note :=
  { note with span := .point 0 }

namespace Expr

mutual

/-- The same expression without its places. -/
def unplaced : Expr → Expr
  | .integer v n => .integer v n.unplaced
  | .real v n => .real v n.unplaced
  | .text v n => .text v n.unplaced
  | .boolean v n => .boolean v n.unplaced
  | .name x n => .name x n.unplaced
  | .unary op e n => .unary op e.unplaced n.unplaced
  | .binary op l r n => .binary op l.unplaced r.unplaced n.unplaced
  | .member t field ordinal n => .member t.unplaced field.unplaced ordinal n.unplaced
  | .assign t v n => .assign t.unplaced v.unplaced n.unplaced
  | .cond c t e n => .cond c.unplaced t.unplaced e.unplaced n.unplaced
  | .lambda params body n => .lambda params body.unplaced n.unplaced
  | .call f args n => .call f (unplacedList args) n.unplaced
  | .array items n => .array (unplacedList items) n.unplaced
  | .index t p n => .index t.unplaced p.unplaced n.unplaced

def unplacedList : List Expr → List Expr
  | [] => []
  | e :: es => e.unplaced :: unplacedList es

end

theorem unplacedList_eq_map (es : List Expr) : unplacedList es = es.map unplaced := by
  induction es with
  | nil => rfl
  | cons e es ih => rw [unplacedList, ih, List.map_cons]

end Expr

namespace Stmt

mutual

/-- The same statement without its places. -/
def unplaced : Stmt → Stmt
  | .expr e n => .expr e.unplaced n.unplaced
  | .declare name ty n => .declare name ty n.unplaced
  | .record name members n => .record name members n.unplaced
  | .comment text n => .comment text n.unplaced
  | .ret e n => .ret e.unplaced n.unplaced
  | .define name params locals e n =>
    .define name params (locals.map fun l => (l.1, l.2.unplaced)) e.unplaced n.unplaced
  | .defineBlock name params locals body n =>
    .defineBlock name params (locals.map fun l => (l.1, l.2.unplaced)) (unplacedList body)
      n.unplaced
  | .loop c body n => .loop c.unplaced (unplacedList body) n.unplaced
  | .branch c t e n => .branch c.unplaced (unplacedList t) (unplacedList e) n.unplaced
  | .bind x e n => .bind x e.unplaced n.unplaced
  | .block body n => .block (unplacedList body) n.unplaced

def unplacedList : List Stmt → List Stmt
  | [] => []
  | s :: ss => s.unplaced :: unplacedList ss

end

theorem unplacedList_eq_map (ss : List Stmt) : unplacedList ss = ss.map unplaced := by
  induction ss with
  | nil => rfl
  | cons s ss ih => rw [unplacedList, ih, List.map_cons]

end Stmt

end PCode
