import PCode.Proofs.Source.Excerpts

namespace PCode

section Lines

variable {text above line before head : List Char}

/-- `line` is a line of the text, with `above` in front of it. -/
structure IsLine (text above line : List Char) : Prop where
  unbroken : '\n' ∉ line
  starts : ∀ c ∈ above.getLast?, c = '\n'
  stops : ∃ below, text = above ++ line ++ below ∧ ∀ c ∈ below.head?, c = '\n'

theorem isLine_of_getElem?_splitOn {number : Nat}
    (h : (text.splitOn '\n')[number]? = some line) :
    ∃ above, IsLine text above line ∧ above.count '\n' = number := by
  induction text generalizing number line with
  | nil =>
    obtain ⟨rfl, rfl⟩ : number = 0 ∧ line = [] := by
      cases number with
      | zero => exact ⟨rfl, (Option.some.inj h).symm⟩
      | succ number => cases h
    exact ⟨[], ⟨List.not_mem_nil, nofun, [], rfl, nofun⟩, rfl⟩
  | cons c text ih =>
    rw [List.splitOn_cons_eq_if_modifyHead] at h
    split at h
    · rename_i hc
      obtain rfl : c = '\n' := eq_of_beq hc
      cases number with
      | zero =>
        obtain rfl : line = [] := (Option.some.inj h).symm
        refine ⟨[], ⟨List.not_mem_nil, nofun, '\n' :: text, rfl, ?_⟩, rfl⟩
        exact fun d hd => (Option.some.inj hd).symm
      | succ number =>
        obtain ⟨above, hline, hcount⟩ := ih h
        obtain ⟨below, htext, hbelow⟩ := hline.stops
        refine ⟨'\n' :: above, ⟨hline.unbroken, ?_, below, by rw [htext]; rfl, hbelow⟩, ?_⟩
        · intro d hd
          cases habove : above.getLast? with
          | none =>
            rw [List.getLast?_eq_none_iff.mp habove] at hd
            exact (Option.some.inj hd).symm
          | some last =>
            rw [List.getLast?_cons, habove] at hd
            cases hd
            exact hline.starts last habove
        · rw [List.count_cons_self, hcount]
    · rename_i hc
      have hne : c ≠ '\n' := fun heq => hc (beq_iff_eq.mpr heq)
      rw [List.getElem?_modifyHead] at h
      cases number with
      | zero =>
        obtain ⟨rest, hrest, rfl⟩ := Option.map_eq_some_iff.mp h
        obtain ⟨above, hline, hcount⟩ := ih hrest
        -- nothing stands above the first line
        obtain rfl : above = [] := by
          cases habove : above.getLast? with
          | none => exact List.getLast?_eq_none_iff.mp habove
          | some last =>
            have hmem := List.mem_of_getLast? habove
            rw [hline.starts last habove] at hmem
            exact absurd hmem (List.count_eq_zero.mp hcount)
        obtain ⟨below, htext, hbelow⟩ := hline.stops
        refine ⟨[], ⟨?_, nofun, below, by rw [htext]; rfl, hbelow⟩, rfl⟩
        rw [List.mem_cons, not_or]
        exact ⟨hne.symm, hline.unbroken⟩
      | succ number =>
        obtain ⟨above, hline, hcount⟩ := ih (by simpa using h)
        obtain ⟨below, htext, hbelow⟩ := hline.stops
        have habove : above ≠ [] := by
          rintro rfl
          cases hcount
        refine ⟨c :: above, ⟨hline.unbroken, ?_, below, by rw [htext]; rfl, hbelow⟩, ?_⟩
        · rw [List.getLast?_cons_of_ne_nil habove]
          exact hline.starts
        · rw [List.count_cons_of_ne hne, hcount]

/-- A position stands on the line above which there are as many line breaks as before it. -/
theorem IsLine.position (h : IsLine text above line) (hbefore : before <+: text)
    (hcount : above.count '\n' = before.count '\n') :
    ∃ head, head <+: line ∧ before = above ++ head := by
  obtain ⟨below, htext, hbelow⟩ := h.stops
  have habove : above <+: text := ⟨line ++ below, by rw [htext, List.append_assoc]⟩
  rcases List.prefix_or_prefix_of_prefix habove hbefore with ⟨head, rfl⟩ | ⟨more, rfl⟩
  · refine ⟨head, ?_, rfl⟩
    have hhead : '\n' ∉ head := by
      rw [List.count_append] at hcount
      exact List.count_eq_zero.mp (by omega)
    rw [htext, List.append_assoc, List.prefix_append_right_inj] at hbefore
    rcases List.prefix_or_prefix_of_prefix hbefore (List.prefix_append line below) with
      hbegins | ⟨more, rfl⟩
    · exact hbegins
    · -- behind the line there is a line break, or nothing
      rw [List.prefix_append_right_inj] at hbefore
      cases more with
      | nil => exact ⟨[], by simp only [List.append_nil]⟩
      | cons c more =>
        obtain ⟨rest, rfl⟩ := hbefore
        have hc := hbelow c rfl
        subst hc
        exact absurd (List.mem_append_right line List.mem_cons_self) hhead
  · cases hmore : more.getLast? with
    | none =>
      rw [List.getLast?_eq_none_iff.mp hmore, List.append_nil]
      exact ⟨[], List.nil_prefix, (List.append_nil before).symm⟩
    | some last =>
      -- a longer text above the line would end in a further line break
      have hlast : last = '\n' := by
        apply h.starts last
        rw [List.getLast?_append, hmore]
        rfl
      have hmem := List.mem_of_getLast? hmore
      rw [hlast, ← List.count_pos_iff] at hmem
      rw [List.count_append] at hcount
      omega

theorem IsLine.column (h : IsLine text above line) (hhead : head <+: line) :
    ((above ++ head).reverse.takeWhile (· != '\n')).length = head.length := by
  have hall : ∀ c ∈ head.reverse, (c != '\n') = true := by
    intro c hc
    rw [bne_iff_ne]
    rintro rfl
    exact h.unbroken (hhead.subset (List.mem_reverse.mp hc))
  have habove : above.reverse.takeWhile (· != '\n') = [] := by
    cases hlast : above.getLast? with
    | none =>
      rw [List.getLast?_eq_none_iff.mp hlast]
      rfl
    | some last =>
      obtain ⟨rest, rfl⟩ := List.getLast?_eq_some_iff.mp hlast
      rw [h.starts last hlast, List.reverse_append]
      rfl
  rw [List.reverse_append, List.takeWhile_append_of_pos hall, habove, List.append_nil,
    List.length_reverse]

end Lines

section Trims

/-- A line and what is shown of it: all but the carriage returns at its end. -/
def Trims (line shown : List Char) : Prop :=
  ∃ count, line = shown ++ List.replicate count '\r' ∧ ∀ c ∈ shown.getLast?, c ≠ '\r'

theorem trims_dropReturns (line : List Char) :
    Trims line (dropReturns (String.ofList line)).toList := by
  rw [dropReturns, String.toList_ofList, String.toList_ofList]
  have hreturns : (line.reverse.takeWhile (· == '\r')).reverse =
      List.replicate (line.reverse.takeWhile (· == '\r')).length '\r' := by
    rw [List.eq_replicate_iff, List.length_reverse]
    refine ⟨rfl, ?_⟩
    intro c hc
    exact eq_of_beq (List.all_eq_true.mp List.all_takeWhile c (List.mem_reverse.mp hc))
  refine ⟨(line.reverse.takeWhile (· == '\r')).length, ?_, ?_⟩
  · rw [← hreturns, ← List.reverse_append, List.takeWhile_append_dropWhile, List.reverse_reverse]
  · rw [List.getLast?_reverse]
    intro c hc
    have hstop := List.head?_dropWhile_not (· == '\r') line.reverse
    rw [hc] at hstop
    exact ne_of_beq_false hstop

end Trims

/-- The line of this number in a source, which starts at an offset. -/
def Source.LineAt (source : Source) (number offset : Nat) (line : List Char) : Prop :=
  ∃ above, IsLine source.text.toList above line ∧ above.count '\n' = number ∧
    byteLength above = offset

section Positions

variable {source : Source} {span : Span} {number offset : Nat} {line before : List Char}

theorem Source.lineAt_of_getElem? {line : String} (h : source.lines[number]? = some line) :
    ∃ offset, source.LineAt number offset line.toList := by
  rw [Source.lines, List.getElem?_map] at h
  obtain ⟨chars, hchars, rfl⟩ := Option.map_eq_some_iff.mp h
  obtain ⟨above, hline, hcount⟩ := isLine_of_getElem?_splitOn hchars
  rw [String.toList_ofList]
  exact ⟨byteLength above, above, hline, hcount, rfl⟩

theorem Source.LineAt.holds (h : source.LineAt number offset line)
    (hbefore : before <+: source.text.toList) (hcount : before.count '\n' = number) :
    offset ≤ byteLength before ∧ byteLength before ≤ offset + byteLength line := by
  obtain ⟨above, hline, rfl, rfl⟩ := h
  obtain ⟨head, ⟨tail, rfl⟩, rfl⟩ := hline.position hbefore hcount.symm
  rw [byteLength_append, byteLength_append]
  omega

theorem Span.Within.parts (h : span.Within source) : ∃ before slice after,
    source.text.toList = before ++ slice ++ after ∧ source.slice? span = some slice ∧
    source.before? span.start = some before ∧ source.before? span.stop = some (before ++ slice) ∧
    byteLength before = span.start ∧ byteLength (before ++ slice) = span.stop := by
  obtain ⟨before, hbefore, hbegins, hlength⟩ := Source.before?_eq_some h.starts
  obtain ⟨behind, hbehind, hbegins', hlength'⟩ := Source.before?_eq_some h.stops
  obtain ⟨slice, rfl⟩ : before <+: behind := by
    apply prefix_of_byteLength_le hbegins hbegins'
    rw [hlength, hlength']
    exact h.ordered
  obtain ⟨after, htext⟩ := hbegins'
  refine ⟨before, slice, after, htext.symm, ?_, hbefore, hbehind, hlength, hlength'⟩
  have hstart : splitAt? source.text.toList span.start = some (before, slice ++ after) :=
    splitAt?_eq_some_iff.mpr ⟨by rw [← htext, List.append_assoc], hlength⟩
  have hslice : splitAt? (slice ++ after) span.length = some (slice, after) := by
    refine splitAt?_eq_some_iff.mpr ⟨rfl, ?_⟩
    rw [byteLength_append, hlength, Span.stop] at hlength'
    omega
  simp [Source.slice?, hstart, hslice]

end Positions

/-- A row of an excerpt below its heading: what stands in the column of the numbers, and what stands
behind it. -/
structure Excerpt.Row where
  number : String
  rest : String

namespace Excerpt

def Row.render (row : Row) : String :=
  row.number ++ " " ++ row.rest ++ "\n"

/-- The place of the excerpt. -/
def heading (e : Excerpt) : String :=
  "In " ++ e.path ++ ":" ++ toString (e.firstLine + 1) ++ ":"
    ++ toString (e.startColumn + 1) ++ "\n"

/-- A line behind its number and a mark. -/
def row (e : Excerpt) (mark : String) (index : Nat) (line : String) : Row :=
  let number := toString (e.firstLine + index + 1)
  ⟨number ++ spaces (e.gutter - number.length), mark ++ " " ++ line⟩

/-- The rows between the two bars. -/
def middle (e : Excerpt) : List Row :=
  match e.carets? with
  | some count => [e.row "|" 0 (e.lines.headD ""),
      ⟨spaces e.gutter, "| " ++ spaces e.startColumn ++ String.ofList (List.replicate count '^')⟩]
  | none => e.lines.mapIdx (e.row ">")

def rows (e : Excerpt) : List Row :=
  ⟨spaces e.gutter, "|"⟩ :: e.middle ++ [⟨spaces e.gutter, "|"⟩]

theorem numbered_eq_render (e : Excerpt) (mark : String) (index : Nat) (line : String) :
    e.numbered mark index line = (e.row mark index line).render := by
  simp only [numbered, row, Row.render, String.append_assoc]

theorem mapIdx_numbered (e : Excerpt) (mark : String) (lines : List String) :
    lines.mapIdx (e.numbered mark) = (lines.mapIdx (e.row mark)).map Row.render := by
  have hrow : e.numbered mark = fun index line => (e.row mark index line).render := by
    funext index line
    exact e.numbered_eq_render mark index line
  rw [hrow]
  apply List.ext_getElem?
  intro index
  simp only [List.getElem?_mapIdx, List.getElem?_map, Option.map_map]
  rfl

theorem body_eq_join (e : Excerpt) : e.body = String.join (e.middle.map Row.render) := by
  cases hcarets : e.carets? with
  | some count =>
    simp only [body, middle, hcarets, List.map_cons, List.map_nil, String.join_cons,
      String.join_nil, numbered_eq_render, Row.render, String.append_assoc, String.append_empty]
    rfl
  | none => simp only [body, middle, hcarets, mapIdx_numbered]

theorem render_eq_rows (e : Excerpt) :
    e.render = e.heading ++ String.join (e.rows.map Row.render) := by
  unfold render heading rows
  simp only [body_eq_join, List.cons_append, List.map_cons, List.map_append, List.map_nil,
    String.join_cons, String.join_append, String.join_nil, Row.render, String.append_assoc,
    String.append_empty]
  rfl

@[simp] theorem length_spaces (count : Nat) : (spaces count).length = count := by
  rw [spaces, String.length_ofList, List.length_replicate]

variable {source : Source} {span : Span} {e : Excerpt}

theorem carets?_of_single (h : e.lines.length = 1) :
    e.carets? = some (max (e.stopColumn - e.startColumn) 1) := by
  simp [carets?, isMultiline, h]

theorem carets?_of_several (h : e.lines.length ≠ 1) : e.carets? = none := by
  simp [carets?, isMultiline, h]

theorem Shows.length_row (h : e.Shows source span) (mark line : String) {index : Nat}
    (hindex : index < e.lines.length) : (e.row mark index line).number.length = e.gutter := by
  have hfits := h.numbers index hindex
  simp only [row, String.length_append, length_spaces]
  omega

theorem Shows.aligned (h : e.Shows source span) : ∀ row ∈ e.rows, row.number.length = e.gutter := by
  have hmiddle : ∀ row ∈ e.middle, row.number.length = e.gutter := by
    unfold middle
    by_cases hlines : e.lines.length = 1
    · rw [carets?_of_single hlines]
      exact List.forall_mem_cons.mpr
        ⟨h.length_row _ _ (by omega), List.forall_mem_singleton.mpr (length_spaces _)⟩
    · rw [carets?_of_several hlines]
      intro row hrow
      obtain ⟨index, hindex, rfl⟩ := List.mem_mapIdx.mp hrow
      exact h.length_row _ _ hindex
  rw [rows, List.cons_append, List.forall_mem_cons, List.forall_mem_append,
    List.forall_mem_singleton]
  exact ⟨length_spaces _, hmiddle, length_spaces _⟩

/-- The line of a span without line breaks: what is shown of it is underlined where the text of the
span stands. -/
structure Underlines (e : Excerpt) (source : Source) (span : Span) (slice : List Char) : Prop where
  line : ∃ offset line shown, source.LineAt e.firstLine offset line ∧ offset ≤ span.start ∧
    span.stop ≤ offset + byteLength line ∧ e.lines = [shown] ∧ Trims line shown.toList ∧
    e.startColumn ≤ e.stopColumn ∧ e.stopColumn ≤ line.length ∧
    (line.drop e.startColumn).take (e.stopColumn - e.startColumn) = slice
  carets : e.carets? = some (if slice = [] then 1 else slice.length)

/-- The lines of a span with line breaks, from that of its start to that of its end. -/
structure Marks (e : Excerpt) (source : Source) (span : Span) (slice : List Char) : Prop where
  count : e.lines.length = slice.count '\n' + 1
  lines : ∀ index shown, e.lines[index]? = some shown → ∃ offset line,
    source.LineAt (e.firstLine + index) offset line ∧ Trims line shown.toList ∧
    (index = 0 → offset ≤ span.start ∧ span.start ≤ offset + byteLength line) ∧
    (index = slice.count '\n' → offset ≤ span.stop ∧ span.stop ≤ offset + byteLength line)
  carets : e.carets? = none

end Excerpt

section Exact

variable {source : Source} {span : Span} {e : Excerpt} {before slice : List Char}

variable (h : e.Shows source span)
include h

/-- What an excerpt says of a span between two parts of the text. -/
theorem Excerpt.Shows.numbers_eq (hbefore : source.before? span.start = some before)
    (hbehind : source.before? span.stop = some (before ++ slice)) :
    e.firstLine = before.count '\n' ∧ e.lines.length = slice.count '\n' + 1 ∧
      e.startColumn = (before.reverse.takeWhile (· != '\n')).length ∧
      e.stopColumn = ((before ++ slice).reverse.takeWhile (· != '\n')).length := by
  have hfirst := h.firstLine
  have hstart := h.startColumn
  have hstop := h.stopColumn
  obtain ⟨last, hlast, -, hlength⟩ := h.lastLine
  simp only [Source.line?, Source.column?, hbefore, hbehind, Option.map_some,
    Option.some.injEq] at hfirst hstart hstop hlast
  rw [← hfirst, ← hlast, List.count_append, Nat.add_sub_cancel_left] at hlength
  exact ⟨hfirst.symm, hlength, hstart.symm, hstop.symm⟩

theorem Excerpt.Shows.lineAt {index : Nat} {shown : String}
    (hshown : e.lines[index]? = some shown) : ∃ offset line,
    source.LineAt (e.firstLine + index) offset line ∧ Trims line shown.toList := by
  have hlt := (List.getElem?_eq_some_iff.mp hshown).1
  obtain ⟨line, hline, hdrop⟩ := h.lines index hlt
  obtain ⟨offset, hat⟩ := Source.lineAt_of_getElem? hline
  have htrims := trims_dropReturns line.toList
  rw [String.ofList_toList] at htrims
  cases hshown.symm.trans hdrop
  exact ⟨offset, line.toList, hat, htrims⟩

theorem Excerpt.Shows.underlines (hbefore : source.before? span.start = some before)
    (hbehind : source.before? span.stop = some (before ++ slice))
    (hbegins : before ++ slice <+: source.text.toList) (hstart : byteLength before = span.start)
    (hstop : byteLength (before ++ slice) = span.stop) (hslice : '\n' ∉ slice) :
    e.Underlines source span slice := by
  obtain ⟨hfirst, hlength, hcolumn, hcolumn'⟩ := h.numbers_eq hbefore hbehind
  have hcount : slice.count '\n' = 0 := List.count_eq_zero.mpr hslice
  rw [hcount] at hlength
  obtain ⟨shown, hshown⟩ := List.length_eq_one_iff.mp hlength
  have hzero : e.lines[0]? = some shown := by
    rw [hshown]
    rfl
  obtain ⟨offset, line, ⟨above, hline, hnumber, hoffset⟩, htrims⟩ := h.lineAt hzero
  -- both ends of the span lie on this line
  have hsame : above.count '\n' = before.count '\n' := hnumber.trans hfirst
  obtain ⟨head, -, rfl⟩ := hline.position ((List.prefix_append _ _).trans hbegins) hsame
  rw [List.append_assoc] at hbegins hstop hcolumn'
  obtain ⟨head', hhead, heq⟩ := hline.position hbegins (by
    rw [← List.append_assoc, List.count_append, hcount, hsame, Nat.add_zero])
  obtain rfl : head ++ slice = head' := List.append_cancel_left heq
  rw [hline.column ((List.prefix_append _ _).trans hhead)] at hcolumn
  rw [hline.column hhead, List.length_append] at hcolumn'
  obtain ⟨tail, rfl⟩ := hhead
  rw [byteLength_append, hoffset] at hstart hstop
  refine ⟨⟨offset, _, shown, ⟨above, hline, hnumber, hoffset⟩, ?_, ?_, hshown, htrims, ?_, ?_, ?_⟩,
    ?_⟩
  · omega
  · rw [byteLength_append]
    omega
  · omega
  · simp only [List.length_append]
    omega
  · rw [hcolumn, hcolumn', Nat.add_sub_cancel_left, List.append_assoc, List.drop_left,
      List.take_left]
  · rw [Excerpt.carets?_of_single hlength, hcolumn, hcolumn', Nat.add_sub_cancel_left]
    by_cases hnil : slice = []
    · rw [hnil, if_pos rfl]
      rfl
    · have hpos := List.length_pos_iff.mpr hnil
      rw [if_neg hnil, Nat.max_eq_left hpos]

theorem Excerpt.Shows.marks (hbefore : source.before? span.start = some before)
    (hbehind : source.before? span.stop = some (before ++ slice))
    (hbegins : before ++ slice <+: source.text.toList) (hstart : byteLength before = span.start)
    (hstop : byteLength (before ++ slice) = span.stop) (hslice : '\n' ∈ slice) :
    e.Marks source span slice := by
  obtain ⟨hfirst, hlength, -, -⟩ := h.numbers_eq hbefore hbehind
  have hcount : 0 < slice.count '\n' := List.count_pos_iff.mpr hslice
  refine ⟨hlength, ?_, Excerpt.carets?_of_several (by omega)⟩
  intro index shown hshown
  obtain ⟨offset, line, hat, htrims⟩ := h.lineAt hshown
  refine ⟨offset, line, hat, htrims, ?_, ?_⟩
  · rintro rfl
    rw [← hstart]
    exact hat.holds ((List.prefix_append _ _).trans hbegins) hfirst.symm
  · rintro rfl
    rw [← hstop]
    exact hat.holds hbegins (by rw [List.count_append, hfirst])

end Exact

/-- There is an excerpt for every span of a source. If the text of the span has no line break, the
excerpt is the line that holds it, underlined where the text stands. If it has, the excerpt has the
lines from that of its start to that of its end, one more than there are line breaks. The rows of
the excerpt start with a column of numbers of one width. -/
theorem Span.Within.excerpt_exact {source : Source} {span : Span} (h : span.Within source) :
    ∃ e slice, source.excerpt? span = some e ∧ source.slice? span = some slice ∧
      ('\n' ∉ slice → e.Underlines source span slice) ∧
      ('\n' ∈ slice → e.Marks source span slice) ∧
      e.render = e.heading ++ String.join (e.rows.map Excerpt.Row.render) ∧
      ∀ row ∈ e.rows, row.number.length = e.gutter := by
  obtain ⟨e, he, hshows⟩ := h.excerpt
  obtain ⟨before, slice, after, htext, hslice, hbefore, hbehind, hstart, hstop⟩ := h.parts
  have hbegins : before ++ slice <+: source.text.toList := ⟨after, htext.symm⟩
  exact ⟨e, slice, he, hslice, hshows.underlines hbefore hbehind hbegins hstart hstop,
    hshows.marks hbefore hbehind hbegins hstart hstop, e.render_eq_rows, hshows.aligned⟩

/-- A text whose ninth line ends in a carriage return. -/
def leaflet : Source :=
  ⟨"leaflet", "a\n\n\n\n\n\n\n\nné!\r\nb ö"⟩

/-- A span on the ninth line, and one that goes on to the tenth, whose number is longer. -/
theorem excerpt_exact_leaflet :
    (∃ e, leaflet.excerpt? ⟨10, 2⟩ = some e ∧ e.Underlines leaflet ⟨10, 2⟩ ['é'] ∧
      ∀ row ∈ e.rows, row.number.length = e.gutter) ∧
    ∃ e, leaflet.excerpt? ⟨10, 9⟩ = some e ∧
      e.Marks leaflet ⟨10, 9⟩ ['é', '!', '\r', '\n', 'b', ' ', 'ö'] ∧
      ∀ row ∈ e.rows, row.number.length = e.gutter := by
  have hshort : (⟨10, 2⟩ : Span).Within leaflet :=
    ⟨by decide +kernel, by decide +kernel, by decide +kernel, by decide +kernel⟩
  have hlong : (⟨10, 9⟩ : Span).Within leaflet :=
    ⟨by decide +kernel, by decide +kernel, by decide +kernel, by decide +kernel⟩
  have hslice : leaflet.slice? ⟨10, 2⟩ = some ['é'] := by decide +kernel
  have hslice' : leaflet.slice? ⟨10, 9⟩ = some ['é', '!', '\r', '\n', 'b', ' ', 'ö'] := by
    decide +kernel
  constructor
  · obtain ⟨e, slice, he, hs, hone, -, -, hrows⟩ := hshort.excerpt_exact
    cases hs.symm.trans hslice
    exact ⟨e, he, hone (by decide), hrows⟩
  · obtain ⟨e, slice, he, hs, -, hmany, -, hrows⟩ := hlong.excerpt_exact
    cases hs.symm.trans hslice'
    exact ⟨e, he, hmany (by decide), hrows⟩

end PCode
