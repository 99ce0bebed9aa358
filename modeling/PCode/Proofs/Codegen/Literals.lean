import PCode.Diagnostic
import PCode.Proofs.Codegen.Origins
import PCode.Proofs.Machine.Memory

namespace PCode

namespace Literal

/-- The string of a string literal. -/
def text? : Literal → Option String
  | ⟨_, .text value⟩ => some value
  | _ => none

theorem value_of_text? {l : Literal} {s : String} (h : l.text? = some s) : l.value = .text s := by
  obtain ⟨span, value⟩ := l
  cases value with
  | text value => rw [Option.some.inj h]
  | integer | real | boolean => cases h

end Literal

namespace Program

/-- The strings of the definitions of a program, as often as they occur. -/
def texts (program : Program) : List String :=
  program.literals.filterMap Literal.text?

end Program

section Typed

theorem Stmt.Typed.isSome_definition? {s a : Stmt} {Δ Δ' : Context} {Γ Γ' : Locals}
    (h : Stmt.Typed Δ Γ s a Δ' Γ') : a.definition?.isSome = s.definition?.isSome := by
  cases h <;> rfl

theorem Stmt.TypedList.definitions_literals_eq {ss as : List Stmt} {Δ Δ' : Context}
    {Γ Γ' : Locals} (h : Stmt.TypedList Δ Γ ss as Δ' Γ') :
    Program.literals as = Program.literals ss := by
  induction ss generalizing as Δ Γ with
  | nil =>
    cases h
    rfl
  | cons s ss ih =>
    cases h with
    | cons h hs =>
      have hrest := ih hs
      unfold Program.literals at hrest ⊢
      rw [List.filter_cons, List.filter_cons, h.isSome_definition?]
      split
      · rw [Stmt.literalsList, Stmt.literalsList, h.stays.2, hrest]
      · exact hrest

theorem Program.Typed.literals_eq {Δ Δ' : Context} {program typed : Program}
    (h : program.Typed Δ typed Δ') : typed.literals = program.literals := by
  obtain ⟨Γ, h⟩ := h
  exact h.definitions_literals_eq

end Typed

section Order

open SpanTree

mutual

theorem Expr.literals_picks : ∀ e : Expr, Picks e.spanTree (e.literals.map Literal.span)
  | .integer .. | .real .. | .text .. | .boolean .. => .self
  | .name .. => picks_nothing _
  | .unary _ e _ | .lambda _ e _ => by
    rw [spanTree, literals]
    exact .inside (literals_picks e).single
  | .binary _ l r _ | .index l r _ => by
    rw [spanTree, literals, List.map_append]
    exact .inside (.cons (literals_picks l) (literals_picks r).single)
  | .member e _ _ _ => by
    rw [spanTree, literals, ← List.append_nil (List.map _ _)]
    exact .inside (.cons (literals_picks e) (picks_nothing _).single)
  | .assign _ e _ => by
    rw [spanTree, literals, ← List.nil_append (List.map _ _)]
    exact .inside (.cons (picks_nothing _) (literals_picks e).single)
  | .cond c t e _ => by
    rw [spanTree, literals, List.map_append, List.map_append]
    exact .inside
      (.cons (literals_picks c) (.cons (literals_picks t) (literals_picks e).single))
  | .call _ es _ | .array es _ => by
    rw [spanTree, literals]
    exact .inside (literalsList_picks es)

theorem Expr.literalsList_picks : ∀ es : List Expr,
    PicksList (Expr.spanTrees es) ((Expr.literalsList es).map Literal.span)
  | [] => .nil
  | e :: es => by
    rw [spanTrees, literalsList, List.map_append]
    exact .cons (literals_picks e) (literalsList_picks es)

end

theorem bindingLiterals_picks (bindings : List (String × Expr)) :
    PicksList (bindings.map (·.2.spanTree)) ((bindingLiterals bindings).map Literal.span) := by
  induction bindings with
  | nil => exact .nil
  | cons b bindings ih =>
    unfold bindingLiterals at ih ⊢
    rw [List.map_cons, List.flatMap_cons, List.map_append]
    exact .cons b.2.literals_picks ih

mutual

theorem Stmt.literals_picks : ∀ s : Stmt, Picks s.spanTree (s.literals.map Literal.span)
  | .declare .. | .record .. | .comment .. => picks_nothing _
  | .expr e _ | .ret e _ | .bind _ e _ => by
    rw [spanTree, literals]
    exact .inside e.literals_picks.single
  | .define _ _ bindings e _ => by
    rw [spanTree, literals, List.map_append]
    exact .inside ((bindingLiterals_picks bindings).append e.literals_picks.single)
  | .defineBlock _ _ bindings body _ => by
    rw [spanTree, literals, List.map_append]
    exact .inside ((bindingLiterals_picks bindings).append (literalsList_picks body))
  | .block body _ => by
    rw [spanTree, literals]
    exact .inside (literalsList_picks body)
  | .loop c body _ => by
    rw [spanTree, literals, List.map_append]
    exact .inside (.cons c.literals_picks (literalsList_picks body))
  | .branch c t e _ => by
    rw [spanTree, literals, List.map_append, List.map_append]
    exact .inside (.cons c.literals_picks ((literalsList_picks t).append (literalsList_picks e)))

theorem Stmt.literalsList_picks : ∀ ss : List Stmt,
    PicksList (Stmt.spanTrees ss) ((Stmt.literalsList ss).map Literal.span)
  | [] => .nil
  | s :: ss => by
    rw [spanTrees, literalsList, List.map_append]
    exact .cons (literals_picks s) (literalsList_picks ss)

end

theorem Program.literals_picks : ∀ program : Program,
    PicksList program.spanTrees (program.literals.map Literal.span)
  | [] => .nil
  | s :: ss => by
    have hrest := Program.literals_picks ss
    unfold Program.literals Program.spanTrees at hrest ⊢
    rw [List.filter_cons, Stmt.spanTrees]
    split
    · rw [Stmt.literalsList, List.map_append]
      exact .cons s.literals_picks hrest
    · rw [← List.nil_append (List.map _ _)]
      exact .cons (picks_nothing _) hrest

theorem Program.literals_ordered {text : String} {program : Program}
    (h : Program.parse text = .ok program) : Ordered (program.literals.map Literal.span) := by
  obtain ⟨-, hplaced, hincreasing⟩ := @Program.parse_placed ⟨Source.defaultPath, text⟩ _ h
  exact (ordered_of_placed hplaced hincreasing program.literals_picks).2

end Order

/-- A pool that holds the strings of a list, in the order in which they first occur in it. -/
structure Pool.Lists (pool : Pool) (texts : List String) : Prop where
  mem : ∀ s, s ∈ pool ↔ s ∈ texts
  order : pool.Pairwise fun s t => texts.idxOf s < texts.idxOf t

namespace Pool

variable {pool : Pool} {texts : List String}

theorem Lists.nil : Lists [] [] :=
  ⟨fun _ => Iff.rfl, List.Pairwise.nil⟩

theorem Lists.nodup (h : pool.Lists texts) : pool.Nodup :=
  h.order.imp fun hlt => by
    rintro rfl
    exact Nat.lt_irrefl _ hlt

theorem Lists.intern (h : pool.Lists texts) (s : String) :
    (pool.intern s).2.Lists (texts ++ [s]) := by
  have hkeep : pool.Pairwise fun s' t => (texts ++ [s]).idxOf s' < (texts ++ [s]).idxOf t := by
    refine h.order.imp_of_mem fun hs' ht hlt => ?_
    rwa [List.idxOf_append_of_mem ((h.mem _).mp hs'), List.idxOf_append_of_mem ((h.mem _).mp ht)]
  unfold Pool.intern
  split
  · rename_i index hfind
    obtain ⟨_, hget, -⟩ := List.findIdx?_eq_some_iff_getElem.mp hfind
    have hmem : s ∈ pool := by
      rw [← eq_of_beq hget]
      exact List.getElem_mem _
    refine ⟨fun t => ?_, hkeep⟩
    rw [List.mem_append, List.mem_singleton, h.mem]
    refine ⟨.inl, ?_⟩
    rintro (ht | rfl)
    · exact ht
    · exact (h.mem _).mp hmem
  · rename_i hfind
    have hnew : s ∉ pool := by
      intro hs
      have hne := List.findIdx?_eq_none_iff.mp hfind s hs
      simp at hne
    refine ⟨fun t => by rw [List.mem_append, List.mem_append, h.mem],
      List.pairwise_append.mpr ⟨hkeep, List.pairwise_singleton _ _, ?_⟩⟩
    intro t ht s' hs'
    cases List.mem_singleton.mp hs'
    have ht := (h.mem t).mp ht
    rw [List.idxOf_append_of_mem ht, List.idxOf_append_of_notMem (mt (h.mem s).mpr hnew)]
    exact Nat.lt_add_right _ (List.idxOf_lt_length_of_mem ht)

end Pool

/-- A cell that stands for a constant: that of a string is its index in the pool. -/
inductive Constant.Encoded (pool : Pool) : Constant → Cell → Prop
  | integer {value} : Encoded pool (.integer value) value
  | real {bits} : Encoded pool (.real bits) bits
  | boolean {value : Bool} : Encoded pool (.boolean value) (if value then 1 else 0)
  | text {value index} : pool[index]? = some value →
      Encoded pool (.text value) (Int64.ofInt (index : Nat))

namespace Encodes

variable {pool pool₁ pool' : Pool} {ls ls' : List Literal} {cells cells' : List Cell}

theorem grows (h : Encodes pool ls cells pool') : pool <+: pool' := by
  induction h with
  | nil => exact List.prefix_rfl
  | @cons pool _ l _ _ _ ih =>
    refine List.IsPrefix.trans ?_ ih
    cases l.value with
    | integer | real | boolean => exact List.prefix_rfl
    | text value => exact Codegen.intern_grows pool value

theorem lists {texts : List String} (h : Encodes pool ls cells pool') (hpool : pool.Lists texts) :
    pool'.Lists (texts ++ ls.filterMap Literal.text?) := by
  induction h generalizing texts with
  | nil => rwa [List.filterMap_nil, List.append_nil]
  | @cons _ _ l _ _ _ ih =>
    obtain ⟨span, value⟩ := l
    cases value with
    | integer | real | boolean => exact ih hpool
    | text value =>
      have hrest := ih (hpool.intern value)
      rwa [List.append_assoc] at hrest

theorem encoded (h : Encodes pool ls cells pool') :
    List.Forall₂ (fun l cell => l.value.Encoded pool' cell) ls cells := by
  induction h with
  | nil => exact .nil
  | @cons pool pool' l _ _ hrest ih =>
    refine .cons ?_ ih
    have hgrows := hrest.grows
    cases hvalue : l.value with
    | integer | real => constructor
    | boolean value => cases value <;> exact .boolean
    | text value =>
      rw [hvalue] at hgrows
      have hfind := Codegen.findIdx?_extend hgrows (Codegen.findIdx?_intern pool value)
      obtain ⟨hlt, hget, -⟩ := List.findIdx?_eq_some_iff_getElem.mp hfind
      refine .text (List.getElem?_eq_some_iff.mpr ⟨hlt, eq_of_beq hget⟩)

end Encodes

/-- The cells that the code of an image puts on the stack as they are, in the order of the code. -/
def Image.constants (image : Image) : List Cell :=
  image.code.toList.filterMap Instruction.constant?

namespace Codegen

theorem link_constants {functions : Table Nat} : ∀ {items : List Item} {lines : List Line},
    link functions items = .ok lines →
      lines.filterMap (·.instruction.constant?) = constants items
  | [], _, h => by
    cases h
    rfl
  | item :: items, _, h => by
    obtain ⟨l, rest, hl, hrest, rfl⟩ := link_cons.mp h
    have hconstant : l.instruction.constant? = item.constant? := by
      cases item with
      | line => cases hl; rfl
      | forward => obtain ⟨entry, -, rfl⟩ := Option.map_eq_some_iff.mp hl; rfl
    rw [constants, List.filterMap_cons, List.filterMap_cons, hconstant, link_constants hrest]
    rfl

end Codegen

open Codegen

theorem Program.listing_encodes {Δ : Context} {program : Program} {L : Listing}
    (h : program.listing Δ = .ok L) : Encodes [] program.literals L.image.constants L.strings := by
  unfold Program.listing at h
  simp only [bind_eq_ok_iff, Prod.exists] at h
  obtain ⟨items, frame, htop, main, -, lines, hlink, h⟩ := h
  cases h
  obtain ⟨cells, hcode, hcells, -⟩ := (topLevel_draws _ program _).made htop
  obtain rfl : constants items = cells := hcells
  have hconstants := link_constants hlink
  simp only [constants_append, constants_item, constants_nil, reduceCtorEq, if_false,
    List.nil_append, List.append_nil] at hconstants
  rw [← hconstants] at hcode
  simpa [Image.constants, Listing.image, List.filterMap_map] using hcode

theorem Constant.Encoded.eq_iff {pool : Pool} {s t : String} {c d : Cell} (hnodup : pool.Nodup)
    (hsize : pool.length ≤ 2 ^ 63) (hs : Constant.Encoded pool (.text s) c)
    (ht : Constant.Encoded pool (.text t) d) : c = d ↔ s = t := by
  cases hs with
  | @text _ i hi =>
    cases ht with
    | @text _ j hj =>
      have hilt := (List.getElem?_eq_some_iff.mp hi).1
      have hjlt := (List.getElem?_eq_some_iff.mp hj).1
      constructor
      · intro h
        have hint := congrArg Int64.toInt h
        rw [Cell.toInt_ofInt (by omega) (by omega), Cell.toInt_ofInt (by omega) (by omega),
          Int.natCast_inj] at hint
        subst hint
        exact Option.some.inj (hi.symm.trans hj)
      · rintro rfl
        rw [(List.getElem?_inj hilt hnodup).mp (hi.trans hj.symm)]

theorem getElem?_of_encoded {pool : Pool} {ls : List Literal} {cells : List Cell}
    (h : List.Forall₂ (fun l cell => l.value.Encoded pool cell) ls cells) {i : Nat} {l : Literal}
    {s : String} (hl : ls[i]? = some l) (hs : l.text? = some s) :
    ∃ cell, cells[i]? = some cell ∧ Constant.Encoded pool (.text s) cell := by
  obtain ⟨hlength, hget⟩ := List.forall₂_iff_get.mp h
  obtain ⟨hlt, rfl⟩ := List.getElem?_eq_some_iff.mp hl
  have hlt' : i < cells.length := hlength ▸ hlt
  have hcell := hget i hlt hlt'
  rw [List.get_eq_getElem, Literal.value_of_text? hs] at hcell
  exact ⟨_, List.getElem?_eq_getElem hlt', hcell⟩

/-- The literals of a program that compiles become the constants of its code, in the order in which
they stand in the source. The pool holds the strings of the definitions, each once and in the order
in which they first occur, and the constant of a string is its index in the pool; so two strings
have the same constant if and only if they are equal. -/
theorem compileText_strings {text : String} {image : Image} (h : compileText text = .ok image) :
    ∃ program, Program.parse text = .ok program ∧
      SpanTree.Ordered (program.literals.map Literal.span) ∧
      image.strings.Lists program.texts ∧ image.strings.Nodup ∧
      List.Forall₂ (fun l cell => l.value.Encoded image.strings cell) program.literals
        image.constants ∧
      (image.strings.length ≤ 2 ^ 63 → ∀ {i j : Nat} {l l' : Literal} {s t : String},
        program.literals[i]? = some l → l.text? = some s →
        program.literals[j]? = some l' → l'.text? = some t →
        (image.constants[i]? = image.constants[j]? ↔ s = t)) := by
  simp only [compileText, bind_eq_ok_iff, Prod.exists] at h
  obtain ⟨typed, Δ, hcheck, hcompile⟩ := h
  simp only [checkText, parseText, bind_eq_ok_iff, mapError_eq_ok_iff] at hcheck hcompile
  obtain ⟨program, hparse, hcheck⟩ := hcheck
  simp only [Program.compile, bind_eq_ok_iff] at hcompile
  obtain ⟨L, hlisting, himage⟩ := hcompile
  cases himage
  have hencodes := Program.listing_encodes hlisting
  rw [(Program.check_eq_ok_iff.mp hcheck).literals_eq] at hencodes
  have hlists := hencodes.lists .nil
  have hencoded := hencodes.encoded
  refine ⟨program, hparse, Program.literals_ordered hparse, hlists, hlists.nodup, hencoded, ?_⟩
  intro hsize i j l l' s t hl hs hl' ht
  obtain ⟨c, hc, hcs⟩ := getElem?_of_encoded hencoded hl hs
  obtain ⟨d, hd, hdt⟩ := getElem?_of_encoded hencoded hl' ht
  rw [hc, hd, Option.some.injEq]
  exact hcs.eq_iff hlists.nodup hsize hdt

/-- Strings in two functions, one of them in a comment, and some of them twice. -/
def choiceText : String :=
  "pick : bool string string -> string\n" ++
  "pick which a b = let c = \"no\" in if which then a else \"no\"\n" ++
  "main : -> string\n" ++
  "main = \x7b # \"none\"\n" ++
  "  let t = pick(true \"b\" \"a\")\n" ++
  "  return pick(false t \"b\") \x7d\n"

theorem choiceText_compiles : (match compileText choiceText with
    | .ok image => (image.strings, image.constants)
    | .error _ => ([], [])) = (["no", "b", "a"], [0, 0, 1, 1, 2, 0, 1]) := by
  decide +kernel

theorem compileText_strings_choice : ∃ image program, compileText choiceText = .ok image ∧
    Program.parse choiceText = .ok program ∧ image.strings = ["no", "b", "a"] ∧
    image.constants = [0, 0, 1, 1, 2, 0, 1] ∧
    SpanTree.Ordered (program.literals.map Literal.span) ∧
    image.strings.Lists program.texts ∧ image.strings.Nodup ∧
    List.Forall₂ (fun l cell => l.value.Encoded image.strings cell) program.literals
      image.constants ∧
    ∀ {i j : Nat} {l l' : Literal} {s t : String},
      program.literals[i]? = some l → l.text? = some s →
      program.literals[j]? = some l' → l'.text? = some t →
      (image.constants[i]? = image.constants[j]? ↔ s = t) := by
  have h := choiceText_compiles
  split at h
  · rename_i image hcompile
    obtain ⟨hstrings, hconstants⟩ := Prod.mk.inj h
    obtain ⟨program, hparse, hordered, hlists, hnodup, hencoded, hsame⟩ :=
      compileText_strings hcompile
    exact ⟨image, program, hcompile, hparse, hstrings, hconstants, hordered, hlists, hnodup,
      hencoded, hsame (by rw [hstrings]; decide)⟩
  · cases h

end PCode
