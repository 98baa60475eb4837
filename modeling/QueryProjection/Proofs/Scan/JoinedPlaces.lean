import Mathlib.Data.List.Induction
import QueryProjection.Proofs.Scan.JoinedBlocks

/-!
# Places in joined lines

The blank in front of every line but the first moves what stands on these lines one column to the
right.  So a place in a text is one column further to the right in the joined lines, on the same
line, unless it is on the first line (`joinedPlace`).  A break at the end of the text starts no line,
and the place behind it stays too.

Places are given by what is left of a text from there on.  The characters in front of it are those of
the text with a blank behind every break (`exists_passed`), and these lead to the place in the joined
lines (`place_left`).
-/

namespace QueryProjection

namespace Text.Position

theorem after_concat (cs : List Char) (c : Char) : after (cs ++ [c]) = (after cs).advance c := by
  rw [after, List.foldl_append]
  rfl

theorem line_after (cs : List Char) : (after cs).line = cs.count '\n' + 1 := by
  induction cs using List.reverseRecOn with
  | nil => rfl
  | append_singleton cs c ih =>
      rw [after_concat, List.count_append, advance]
      split
      · rename_i hc
        rw [hc, List.count_singleton_self, ← ih]
      · rename_i hc
        rw [List.count_singleton, if_neg (by simpa using hc)]
        exact ih

/-- The place one column to the right, on every line but the first. -/
def pushed (place : Position) : Position :=
  if 1 < place.line then { place with column := place.column + 1 } else place

theorem pushed_advance {c : Char} (hc : c ≠ '\n') (place : Position) :
    (place.advance c).pushed = place.pushed.advance c := by
  unfold pushed
  rw [advance, if_neg hc]
  split
  · rw [advance, if_neg hc]
  · rw [advance, if_neg hc]

/-- Behind a break it does not matter how far to the right the break was. -/
theorem pushed_advance_break (place : Position) : place.pushed.advance '\n' = place.advance '\n' := by
  unfold pushed
  split
  · rfl
  · rfl

theorem after_padBreaks (cs : List Char) : after (Scan.padBreaks cs) = (after cs).pushed := by
  induction cs using List.reverseRecOn with
  | nil => rfl
  | append_singleton cs c ih =>
      rw [Scan.padBreaks, List.flatMap_append, ← Scan.padBreaks, List.flatMap_singleton, after_concat]
      by_cases hc : c = '\n'
      · have hlater : 1 < (after cs).line + 1 := by
          rw [line_after]
          omega
        rw [if_pos hc, List.append_cons, after_concat, after_concat, ih, pushed_advance_break, hc]
        show _ = pushed { line := (after cs).line + 1, column := 1 }
        rw [pushed, if_pos hlater]
        rfl
      · rw [if_neg hc, after_concat, ih, pushed_advance hc]

end Text.Position

namespace Command

open Text (Position)

/-- How many lines a text has.  A break at the end starts no line. -/
def lineCount (text : List Char) : Nat := text.dropLast.count '\n' + 1

/-- The place in the joined lines of what is at a place of a text. -/
def joinedPlace (text : List Char) (place : Position) : Position :=
  if place.line ≤ lineCount text then place.pushed else place

/-- The line stays, and the column grows on all lines but the first.  Behind a break at the end it does
not, since there is no line. -/
theorem eq_joinedPlace {text : List Char} {place reported : Position} :
    reported = joinedPlace text place ↔
      reported.line = place.line ∧ reported.column = place.column +
        if 1 < place.line ∧ place.line ≤ lineCount text then 1 else 0 := by
  obtain ⟨line, column⟩ := place
  obtain ⟨line', column'⟩ := reported
  rw [joinedPlace, Position.pushed]
  by_cases hline : line ≤ lineCount text
  · by_cases hlater : 1 < line
    · rw [if_pos hline, if_pos hlater, if_pos ⟨hlater, hline⟩, Position.mk.injEq]
    · rw [if_pos hline, if_neg hlater, if_neg fun h => hlater h.1, Position.mk.injEq]
      rfl
  · rw [if_neg hline, if_neg fun h => hline h.2, Position.mk.injEq]
    rfl

theorem after_joinLines (text : List Char) :
    Position.after (joinLines text) = joinedPlace text (Position.after text) := by
  induction text using List.reverseRecOn with
  | nil => rfl
  | append_singleton cs c _ =>
      have hlast : joinLines [c] = [c] := rfl
      have hcount : lineCount (cs ++ [c]) = (Position.after cs).line := by
        rw [lineCount, List.dropLast_concat, Position.line_after]
      rw [Scan.joinLines_append_of_ne_nil cs (List.cons_ne_nil c []), hlast, Position.after_concat,
        Position.after_concat, Position.after_padBreaks, joinedPlace, hcount]
      by_cases hc : c = '\n'
      · have hbehind : ¬ ((Position.after cs).advance c).line ≤ (Position.after cs).line := by
          rw [hc]
          exact Nat.not_succ_le_self _
        rw [if_neg hbehind, hc, Position.pushed_advance_break]
      · have hline : ((Position.after cs).advance c).line = (Position.after cs).line := by
          rw [Position.advance, if_neg hc]
        rw [if_pos hline.le, Position.pushed_advance hc]

/-- In front of what is left stand the characters that were passed, at the place that they lead to. -/
theorem exists_passed (before left : List Char) :
    ∃ passed, joinLines (before ++ left) = passed ++ joinLines left ∧
      Position.after passed = joinedPlace (before ++ left) (Position.after before) := by
  by_cases hleft : left = []
  · subst hleft
    refine ⟨joinLines before, ?_, ?_⟩
    · rw [List.append_nil, joinLines_nil, List.append_nil]
    · rw [List.append_nil, after_joinLines]
  · have hline : (Position.after before).line ≤ lineCount (before ++ left) := by
      rw [Position.line_after, lineCount, List.dropLast_append_of_ne_nil hleft, List.count_append]
      omega
    refine ⟨Scan.padBreaks before, Scan.joinLines_append_of_ne_nil before hleft, ?_⟩
    rw [Position.after_padBreaks, joinedPlace, if_pos hline]

theorem not_mem_joinLines {text : List Char} (h : '\r' ∉ text) : '\r' ∉ joinLines text := by
  induction text with
  | nil => exact List.not_mem_nil
  | cons c rest ih =>
      rw [List.mem_cons, not_or] at h
      by_cases hc : c = '\n'
      · by_cases hrest : rest = []
        · rw [hc, hrest]
          decide
        · rw [hc, joinLines_break hrest, List.mem_cons, List.mem_cons, not_or, not_or]
          exact ⟨by decide, by decide, ih h.2⟩
      · rw [joinLines_cons hc, List.mem_cons, not_or]
        exact ⟨h.1, ih h.2⟩

/-- The place from which on so much is left. -/
theorem place_left {text left : List Char} (hreturn : '\r' ∉ text) (hleft : left <:+ text) :
    Position.after (Text.unifyBreaks
        ((joinLines text).take ((joinLines text).length - (joinLines left).length))) =
      joinedPlace text
        (Position.after (Text.unifyBreaks (text.take (text.length - left.length)))) := by
  obtain ⟨before, rfl⟩ := hleft
  obtain ⟨passed, hpassed, hplace⟩ := exists_passed before left
  have hreturn' := not_mem_joinLines hreturn
  rw [hpassed] at hreturn' ⊢
  rw [List.mem_append, not_or] at hreturn hreturn'
  rw [List.length_append, List.length_append, Nat.add_sub_cancel, Nat.add_sub_cancel,
    List.take_left, List.take_left, Scan.unifyBreaks_of_not_mem hreturn.1,
    Scan.unifyBreaks_of_not_mem hreturn'.1, hplace]

end Command

end QueryProjection
