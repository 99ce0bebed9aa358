import Mathlib.Data.Prod.Lex
import PCode.Proofs.Grammar.Literals

namespace PCode

/-- The line and the column behind a text, which are compared in this order. -/
def positionBehind (text : List Char) : ℕ ×ₗ ℕ :=
  toLex (text.count '\n', (text.reverse.takeWhile (· != '\n')).length)

section Texts

variable (text : List Char)

theorem positionBehind_newline :
    positionBehind (text ++ ['\n']) = toLex (text.count '\n' + 1, 0) := by
  simp [positionBehind]

theorem positionBehind_of_ne {c : Char} (h : c ≠ '\n') : positionBehind (text ++ [c]) =
    toLex (text.count '\n', (text.reverse.takeWhile (· != '\n')).length + 1) := by
  simp [positionBehind, h]

theorem positionBehind_lt_concat (c : Char) :
    positionBehind text < positionBehind (text ++ [c]) := by
  by_cases h : c = '\n'
  · rw [h, positionBehind_newline, positionBehind, Prod.Lex.toLex_lt_toLex]
    exact .inl (Nat.lt_succ_self _)
  · rw [positionBehind_of_ne text h, positionBehind, Prod.Lex.toLex_lt_toLex]
    exact .inr ⟨rfl, Nat.lt_succ_self _⟩

theorem positionBehind_le_append (more : List Char) :
    positionBehind text ≤ positionBehind (text ++ more) := by
  induction more generalizing text with
  | nil => rw [List.append_nil]
  | cons c more ih =>
    calc positionBehind text
        ≤ positionBehind (text ++ [c]) := (positionBehind_lt_concat text c).le
      _ ≤ positionBehind (text ++ [c] ++ more) := ih (text ++ [c])
      _ = positionBehind (text ++ c :: more) := by rw [List.append_assoc, List.singleton_append]

theorem positionBehind_lt_append {more : List Char} (h : more ≠ []) :
    positionBehind text < positionBehind (text ++ more) := by
  obtain ⟨c, more, rfl⟩ := List.exists_cons_of_ne_nil h
  rw [← List.singleton_append, ← List.append_assoc]
  exact (positionBehind_lt_concat text c).trans_le (positionBehind_le_append _ more)

end Texts

namespace Source

variable {source : Source} {i j : source.text.Pos}

/-- The text before a place. -/
def textBefore (source : Source) (i : source.text.Pos) : List Char :=
  (source.text.sliceTo i).copy.toList

theorem before?_eq_textBefore (i : source.text.Pos) :
    source.before? i.offset.byteIdx = some (source.textBefore i) := by
  have hsplits := i.splits
  have hcut : splitAt? source.text.toList i.offset.byteIdx =
      some (source.textBefore i, (source.text.sliceFrom i).copy.toList) := by
    refine splitAt?_eq_some_iff.mpr ⟨?_, ?_⟩
    · rw [textBefore, ← String.toList_append, ← hsplits.eq_append]
    · rw [textBefore, byteLength_toList, hsplits.offset_eq_rawEndPos, String.byteIdx_rawEndPos]
  rw [before?, hcut, Option.map_some]

theorem line?_eq_count (i : source.text.Pos) :
    source.line? i.offset.byteIdx = some ((source.textBefore i).count '\n') := by
  rw [line?, before?_eq_textBefore, Option.map_some]

theorem column?_eq_length (i : source.text.Pos) : source.column? i.offset.byteIdx =
    some ((source.textBefore i).reverse.takeWhile (· != '\n')).length := by
  rw [column?, before?_eq_textBefore, Option.map_some]

theorem textBefore_eq_append (h : i ≤ j) :
    source.textBefore j = source.textBefore i ++ (source.text.extract i j).toList := by
  obtain ⟨before, after, hi, hj⟩ :=
    String.copy_slice_eq_iff_splits.mp ⟨h, (String.extract_eq_copy_slice i j h).symm⟩
  rw [textBefore, textBefore, i.splits.eq_left hi, j.splits.eq_left hj, String.toList_append]

theorem positionBehind_textBefore_lt (h : i < j) :
    positionBehind (source.textBefore i) < positionBehind (source.textBefore j) := by
  obtain ⟨more, hmore, hbehind, -⟩ := (i.splits.lt_iff_exists_eq_append j.splits).mp h
  rw [textBefore, textBefore, hbehind, String.toList_append]
  exact positionBehind_lt_append _ (by simpa using hmore)

theorem positionBehind_textBefore_lt_iff :
    positionBehind (source.textBefore i) < positionBehind (source.textBefore j) ↔ i < j := by
  refine ⟨fun h => ?_, positionBehind_textBefore_lt⟩
  rcases Std.lt_trichotomy i j with hlt | rfl | hgt
  · exact hlt
  · exact absurd h (lt_irrefl _)
  · exact absurd h (positionBehind_textBefore_lt hgt).asymm

theorem positionBehind_textBefore_inj
    (h : positionBehind (source.textBefore i) = positionBehind (source.textBefore j)) : i = j := by
  rcases Std.lt_trichotomy i j with hlt | heq | hgt
  · exact absurd h (positionBehind_textBefore_lt hlt).ne
  · exact heq
  · exact absurd h (positionBehind_textBefore_lt hgt).ne'

end Source

/-- Every two places of a source, its end among them, have a line and a column each. An earlier
place has an earlier line, or the same line and an earlier column, and the other way around; the
same line and column are those of the same place; and the lines differ by the line breaks in
between. -/
theorem Source.positions_ordered (source : Source) (i j : source.text.Pos) :
    ∃ line column line' column',
      source.line? i.offset.byteIdx = some line ∧ source.column? i.offset.byteIdx = some column ∧
      source.line? j.offset.byteIdx = some line' ∧ source.column? j.offset.byteIdx = some column' ∧
      (i < j ↔ toLex (line, column) < toLex (line', column')) ∧
      (line = line' ∧ column = column' → i = j) ∧
      (i ≤ j → line' = line + (source.text.extract i j).toList.count '\n') := by
  refine ⟨_, _, _, _, line?_eq_count i, column?_eq_length i, line?_eq_count j, column?_eq_length j,
    positionBehind_textBefore_lt_iff.symm, ?_, ?_⟩
  · rintro ⟨hline, hcolumn⟩
    apply positionBehind_textBefore_inj
    rw [positionBehind, positionBehind, hline, hcolumn]
  · intro h
    rw [textBefore_eq_append h, List.count_append]

/-- Two lines, each with a character of two bytes. -/
def couplet : Source :=
  ⟨"couplet", "né\nö"⟩

/-- The end of the second line is further on than that of the first, though in a smaller column. -/
theorem Source.positions_ordered_couplet : ∃ i j : couplet.text.Pos,
    i.offset.byteIdx = 3 ∧ j.offset.byteIdx = 6 ∧ i < j ∧
      couplet.line? 3 = some 0 ∧ couplet.column? 3 = some 2 ∧
      couplet.line? 6 = some 1 ∧ couplet.column? 6 = some 1 ∧
      1 = 0 + (couplet.text.extract i j).toList.count '\n' := by
  let i : couplet.text.Pos := couplet.text.pos ⟨3⟩ (by decide +kernel)
  let j : couplet.text.Pos := couplet.text.pos ⟨6⟩ (by decide +kernel)
  have hvalues : couplet.line? 3 = some 0 ∧ couplet.column? 3 = some 2 ∧
      couplet.line? 6 = some 1 ∧ couplet.column? 6 = some 1 := by decide +kernel
  obtain ⟨hline, hcolumn, hline', hcolumn'⟩ := hvalues
  obtain ⟨l, c, l', c', hl, hc, hl', hc', horder, -, hbreaks⟩ := couplet.positions_ordered i j
  cases hl.symm.trans hline
  cases hc.symm.trans hcolumn
  cases hl'.symm.trans hline'
  cases hc'.symm.trans hcolumn'
  have hlt : i < j := horder.mpr (by decide)
  exact ⟨i, j, rfl, rfl, hlt, hl, hc, hl', hc', hbreaks (Std.le_of_lt hlt)⟩

end PCode
