import PCode.Proofs.Grammar.Places
import PCode.Source.Excerpt

namespace PCode

/-- A span from one place of a source to another. -/
structure Span.Within (span : Span) (source : Source) : Prop where
  ordered : span.start ≤ span.stop
  inside : span.stop ≤ byteLength source.text.toList
  starts : (Cursor.at? source.text span.start).isSome
  stops : (Cursor.at? source.text span.stop).isSome

theorem Span.within_point {source : Source} {offset : Nat} {place : Cursor}
    (h : Cursor.at? source.text offset = some place) : (Span.point offset).Within source := by
  obtain ⟨hplace, rfl⟩ := Cursor.at?_eq_some_iff.mp h
  exact ⟨Nat.le_refl _, Cursor.offset_le_byteLength hplace, Option.isSome_of_eq_some h,
    Option.isSome_of_eq_some h⟩

section Lines

theorem length_splitOn (c : Char) (text : List Char) :
    (text.splitOn c).length = text.count c + 1 := by
  induction text with
  | nil => rfl
  | cons d text ih =>
    rw [List.splitOn_cons_eq_if_modifyHead, List.count_cons]
    split
    · rw [List.length_cons, ih]
    · rw [List.length_modifyHead, ih, Nat.add_zero]

theorem Source.length_lines (source : Source) :
    source.lines.length = source.text.toList.count '\n' + 1 := by
  rw [Source.lines, List.length_map, length_splitOn]

theorem Source.before?_eq_some {source : Source} {offset : Nat}
    (h : (Cursor.at? source.text offset).isSome) :
    ∃ before, source.before? offset = some before ∧ before <+: source.text.toList ∧
      byteLength before = offset := by
  obtain ⟨cursor, hcursor⟩ := Option.isSome_iff_exists.mp h
  rw [Cursor.at?, Option.map_eq_some_iff] at hcursor
  obtain ⟨⟨before, after⟩, hsplit, -⟩ := hcursor
  obtain ⟨htext, hlength⟩ := splitAt?_eq_some_iff.mp hsplit
  exact ⟨before, by rw [Source.before?, hsplit]; rfl, ⟨after, htext.symm⟩, hlength⟩

theorem prefix_of_byteLength_le {before behind text : List Char} (h : before <+: text)
    (h' : behind <+: text) (hle : byteLength before ≤ byteLength behind) : before <+: behind := by
  rcases List.prefix_or_prefix_of_prefix h h' with hprefix | ⟨more, rfl⟩
  · exact hprefix
  · rw [byteLength_append] at hle
    by_cases hmore : more = []
    · simp [hmore]
    · have hpos := byteLength_pos hmore
      omega

end Lines

section Numbers

theorem length_toDigits_mono {n m : Nat} (h : n ≤ m) :
    (Nat.toDigits 10 n).length ≤ (Nat.toDigits 10 m).length := by
  have hpos : 0 < (Nat.toDigits 10 m).length := List.length_pos_iff.mpr Nat.toDigits_ne_nil
  apply (Nat.length_toDigits_le_iff (by decide) hpos).mpr
  exact Nat.lt_of_le_of_lt h ((Nat.length_toDigits_le_iff (by decide) hpos).mp (Nat.le_refl _))

theorem length_toString_mono {n m : Nat} (h : n ≤ m) :
    (toString n).length ≤ (toString m).length := by
  show (String.ofList (Nat.toDigits 10 n)).length ≤ (String.ofList (Nat.toDigits 10 m)).length
  rw [String.length_ofList, String.length_ofList]
  exact length_toDigits_mono h

end Numbers

namespace Excerpt

/-- What an excerpt shows of a source: every line that the span touches, and for each of them there
is room in the gutter. -/
structure Shows (source : Source) (span : Span) (e : Excerpt) : Prop where
  firstLine : source.line? span.start = some e.firstLine
  startColumn : source.column? span.start = some e.startColumn
  stopColumn : source.column? span.stop = some e.stopColumn
  lastLine : ∃ last, source.line? span.stop = some last ∧ e.firstLine ≤ last ∧
    e.lines.length = last - e.firstLine + 1
  lines : ∀ index < e.lines.length, ∃ line, source.lines[e.firstLine + index]? = some line ∧
    e.lines[index]? = some (dropReturns line)
  numbers : ∀ index < e.lines.length, (toString (e.firstLine + index + 1)).length ≤ e.gutter

end Excerpt

/-- There is an excerpt for every span of a source. -/
theorem Span.Within.excerpt {source : Source} {span : Span} (h : span.Within source) :
    ∃ e, source.excerpt? span = some e ∧ e.Shows source span := by
  obtain ⟨before, hbefore, hprefix, hlength⟩ := Source.before?_eq_some h.starts
  obtain ⟨behind, hbehind, hprefix', hlength'⟩ := Source.before?_eq_some h.stops
  have hbegins : before <+: behind := by
    apply prefix_of_byteLength_le hprefix hprefix'
    rw [hlength, hlength']
    exact h.ordered
  -- a line break that stands before the start stands before the stop, and before the end
  have hfirst : before.count '\n' ≤ behind.count '\n' := hbegins.sublist.count_le '\n'
  have hlast : behind.count '\n' < source.lines.length := by
    rw [source.length_lines, Nat.lt_succ_iff]
    exact hprefix'.sublist.count_le '\n'
  refine ⟨⟨source.path, before.count '\n',
    ((source.lines.drop (before.count '\n')).take
      (behind.count '\n' - before.count '\n' + 1)).map dropReturns,
    (before.reverse.takeWhile (· != '\n')).length, (behind.reverse.takeWhile (· != '\n')).length⟩,
    ?_, ?_⟩
  · simp only [Source.excerpt?, Source.line?, Source.column?, hbefore, hbehind, Option.map_some]
    rfl
  have hcount : (((source.lines.drop (before.count '\n')).take
      (behind.count '\n' - before.count '\n' + 1)).map dropReturns).length =
      behind.count '\n' - before.count '\n' + 1 := by
    rw [List.length_map, List.length_take, List.length_drop]
    omega
  refine ⟨by simp only [Source.line?, hbefore, Option.map_some],
    by simp only [Source.column?, hbefore, Option.map_some],
    by simp only [Source.column?, hbehind, Option.map_some],
    ⟨_, by simp only [Source.line?, hbehind, Option.map_some], hfirst, hcount⟩, ?_, ?_⟩
  · intro index hindex
    rw [hcount] at hindex
    have hline : before.count '\n' + index < source.lines.length := by omega
    refine ⟨source.lines[before.count '\n' + index], List.getElem?_eq_getElem hline, ?_⟩
    rw [List.getElem?_map, List.getElem?_take_of_lt hindex, List.getElem?_drop,
      List.getElem?_eq_getElem hline, Option.map_some]
  · intro index hindex
    exact length_toString_mono (Nat.add_le_add_left (Nat.succ_le_of_lt hindex) _)

end PCode
