import PCode.Diagnostic
import PCode.Proofs.Codegen.Origins
import PCode.Proofs.Grammar.Spans
import PCode.Proofs.Grammar.Termination
import PCode.Proofs.Source.Excerpts
import PCode.Proofs.Typing.Entries

namespace PCode

namespace SpanTree

variable {source : Source}

mutual

theorem Placed.within : ∀ {tree : SpanTree}, tree.Placed source → ∀ span ∈ tree.spans,
    span.start < span.stop ∧ span.Within source
  | .node _ _ _, .node nonempty inside starts stops _ _ _ _ placed => by
    rw [spans]
    exact List.forall_mem_cons.mpr
      ⟨⟨nonempty, Nat.le_of_lt nonempty, inside, starts, stops⟩, within_of_placed placed⟩

theorem within_of_placed : ∀ {trees : List SpanTree}, (∀ tree ∈ trees, tree.Placed source) →
    ∀ span ∈ spansList trees, span.start < span.stop ∧ span.Within source
  | [], _ => nofun
  | _ :: _, h => by
    rw [spansList]
    obtain ⟨htree, htrees⟩ := List.forall_mem_cons.mp h
    exact List.forall_mem_append.mpr ⟨htree.within, within_of_placed htrees⟩

end

end SpanTree

theorem Program.within_of_parse {source : Source} {program : Program}
    (h : Program.parse source.text = .ok program) :
    ∀ span ∈ program.spans, span.start < span.stop ∧ span.Within source := by
  obtain ⟨rest, hrow⟩ := Program.parse_row h
  obtain ⟨hplaced, -, -⟩ := hrow.placed (le_refl _)
  have hspans : SpanTree.spansList program.spanTrees = program.spans := Stmt.spans_spanTrees program
  rw [← hspans]
  exact SpanTree.within_of_placed hplaced

theorem Program.within_of_parse_error {source : Source} {error : ParseError}
    (h : Program.parse source.text = .error error) : (Span.point error.offset).Within source := by
  rcases Program.parse_outcome source.text with
    ⟨program, hprogram⟩ | ⟨offset, place, hplace, herror⟩
  · cases hprogram.symm.trans h
  · cases herror.symm.trans h
    exact Span.within_point hplace

/-- A stage behind the parser fails at a node of the program that was read, or in what it says about
`main`. -/
theorem compileText_fault {text : String} {d : Diagnostic} (h : compileText text = .error d) :
    (∃ error, d = .parse error ∧ Program.parse text = .error error) ∨
    (d = .codegen ⟨.noMain, none⟩ ∨ d = .codegen ⟨.mainParameters, none⟩) ∨
    ∃ program, Program.parse text = .ok program ∧ ∃ span ∈ program.spans, d.span? = some span := by
  unfold compileText checkText parseText at h
  rcases bind_eq_error_iff.mp h with h | ⟨⟨typed, Δ⟩, hcheck, h⟩
  · rcases bind_eq_error_iff.mp h with h | ⟨program, hparse, h⟩
    · obtain ⟨error, herror, rfl⟩ := mapError_eq_error_iff.mp h
      exact .inl ⟨error, rfl, herror⟩
    · obtain ⟨stopped, hstopped, rfl⟩ := mapError_eq_error_iff.mp h
      exact .inr (.inr ⟨program, mapError_eq_ok_iff.mp hparse, _,
        Program.span_mem_of_check hstopped, rfl⟩)
  · obtain ⟨program, hparse, hcheck⟩ := bind_eq_ok_iff.mp hcheck
    have htyped := Program.check_eq_ok_iff.mp (mapError_eq_ok_iff.mp hcheck)
    obtain ⟨error, herror, rfl⟩ := mapError_eq_error_iff.mp h
    rcases Program.span_mem_of_compile herror with (rfl | rfl) | ⟨span, hmem, hspan⟩
    · exact .inr (.inl (.inl rfl))
    · exact .inr (.inl (.inr rfl))
    · rw [htyped.spans_eq] at hmem
      exact .inr (.inr ⟨program, mapError_eq_ok_iff.mp hparse, span, hmem, hspan⟩)

theorem compileText_within {source : Source} {d : Diagnostic}
    (h : compileText source.text = .error d) {span : Span} (hspan : d.span? = some span) :
    span.Within source := by
  rcases compileText_fault h with
    ⟨error, rfl, hparse⟩ | (rfl | rfl) | ⟨program, hparse, span', hmem, hspan'⟩
  · cases hspan
    exact Program.within_of_parse_error hparse
  · cases hspan
  · cases hspan
  · cases hspan.symm.trans hspan'
    exact (Program.within_of_parse hparse span hmem).2

theorem Diagnostic.message_of_within {source : Source} {d : Diagnostic} {span : Span}
    (hspan : d.span? = some span) (h : span.Within source) :
    ∃ e, source.excerpt? span = some e ∧ e.Shows source span ∧
      d.message? source = some (e.render ++ d.summary) := by
  obtain ⟨e, he, hshows⟩ := h.excerpt
  refine ⟨e, he, hshows, ?_⟩
  rw [Diagnostic.message?, hspan]
  simp only [he, Option.map_some]

/-- Errors of compilation point into the source and can be shown. The span of an error lies between
characters of the source; unless the error is one of the parser, it is not empty and the span of a
node. Its excerpt has every line that the span touches and room for their numbers. Only an error
about `main` has no span and no excerpt. -/
theorem compileText_error_shown {source : Source} {d : Diagnostic}
    (h : compileText source.text = .error d) :
    (∀ span, d.span? = some span → span.Within source ∧
      ∃ e, source.excerpt? span = some e ∧ e.Shows source span ∧
        d.message? source = some (e.render ++ d.summary)) ∧
    (∀ span, d.span? = some span → (∀ error, d ≠ .parse error) → span.start < span.stop ∧
      ∃ program, Program.parse source.text = .ok program ∧
        ∃ node ∈ program.outline, node.note.span = span) ∧
    (d.span? = none → (d = .codegen ⟨.noMain, none⟩ ∨ d = .codegen ⟨.mainParameters, none⟩) ∧
      d.message? source = some d.summary) := by
  refine ⟨fun span hspan => ⟨compileText_within h hspan,
    Diagnostic.message_of_within hspan (compileText_within h hspan)⟩, ?_, ?_⟩
  · intro span hspan hbehind
    rcases compileText_fault h with
      ⟨error, rfl, -⟩ | (rfl | rfl) | ⟨program, hparse, span', hmem, hspan'⟩
    · exact absurd rfl (hbehind error)
    · cases hspan
    · cases hspan
    · cases hspan.symm.trans hspan'
      exact ⟨(Program.within_of_parse hparse span hmem).1, program, hparse, List.mem_map.mp hmem⟩
  · intro hnone
    rcases compileText_fault h with ⟨error, rfl, -⟩ | hmain | ⟨program, -, span, -, hspan⟩
    · cases hnone
    · exact ⟨hmain, by rw [Diagnostic.message?, hnone]⟩
    · cases hnone.symm.trans hspan

/-- A sum of an integer and a string, over two lines with different ends. -/
def mismatchSource : Source where
  path := Source.defaultPath
  text := "f : i64 -> i64\nf x = x +\r\n  \"é\"\n"

/-- A call of a function that is declared and not defined. -/
def danglingSource : Source where
  path := Source.defaultPath
  text := "g : i64 -> i64\nmain : -> i64\nmain = 1 + g(2)\n"

theorem mismatchSource_fails : (match compileText mismatchSource.text with
    | .error (.type error) => error.span == ⟨21, 11⟩
    | _ => false) = true := by
  decide +kernel

theorem danglingSource_fails : (match compileText danglingSource.text with
    | .error (.codegen error) => error.span == some ⟨40, 4⟩
    | _ => false) = true := by
  decide +kernel

theorem compileText_error_shown_mismatch_dangling :
    (∃ (d : Diagnostic) (e : Excerpt), compileText mismatchSource.text = .error d ∧
      d.span? = some ⟨21, 11⟩ ∧
      e.Shows mismatchSource ⟨21, 11⟩ ∧
      d.message? mismatchSource = some (e.render ++ d.summary)) ∧
    ∃ d program, compileText danglingSource.text = .error d ∧
      Program.parse danglingSource.text = .ok program ∧
      ∃ node ∈ program.outline, node.note.span = ⟨40, 4⟩ := by
  constructor
  · have h := mismatchSource_fails
    split at h
    · rename_i error herror
      have hspan : (Diagnostic.type error).span? = some ⟨21, 11⟩ := congrArg some (eq_of_beq h)
      obtain ⟨-, e, -, hshows, hmessage⟩ := (compileText_error_shown herror).1 _ hspan
      exact ⟨_, e, herror, hspan, hshows, hmessage⟩
    · cases h
  · have h := danglingSource_fails
    split at h
    · rename_i error herror
      have hspan : (Diagnostic.codegen error).span? = some ⟨40, 4⟩ := eq_of_beq h
      obtain ⟨-, program, hparse, hnode⟩ := (compileText_error_shown herror).2.1 _ hspan nofun
      exact ⟨_, program, herror, hparse, hnode⟩
    · cases h

end PCode
