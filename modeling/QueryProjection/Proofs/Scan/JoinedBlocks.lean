import Mathlib.Data.List.TakeWhile
import QueryProjection.Command.Run
import QueryProjection.Proofs.Scan.Leftover

/-!
# Block texts in joined lines

Joining lines puts a blank in front of every line but the first.  In a block text these are lines
of the text, and each of them is indented by one more blank.  The indentation that all lines but the
first have in common is removed from a block text, and it grows by one as well (`dedent_padded`).
Lines of blanks alone do not count for it; they may keep a blank more or less, but if no other lines
stand behind the first, they are at the end and left out.  So the value of a block text is the same
(`blockValue_padBreaks`).
-/

namespace QueryProjection

namespace Command

@[simp] theorem joinLines_nil : joinLines [] = [] := rfl

theorem joinLines_cons {c : Char} (hc : c ≠ '\n') (rest : List Char) :
    joinLines (c :: rest) = c :: joinLines rest := by
  cases rest with
  | nil => rfl
  | cons d rest => rw [joinLines, if_neg hc]

theorem joinLines_break {rest : List Char} (h : rest ≠ []) :
    joinLines ('\n' :: rest) = '\n' :: ' ' :: joinLines rest := by
  cases rest with
  | nil => exact absurd rfl h
  | cons d rest => rw [joinLines, if_pos rfl]

theorem exists_joinLines_cons (c : Char) (rest : List Char) :
    ∃ more, joinLines (c :: rest) = c :: more := by
  cases rest with
  | nil => exact ⟨[], rfl⟩
  | cons d rest =>
      rw [joinLines]
      split
      · rename_i hc
        exact ⟨_, by rw [hc]⟩
      · exact ⟨_, rfl⟩

theorem head?_joinLines (cs : List Char) : (joinLines cs).head? = cs.head? := by
  cases cs with
  | nil => rfl
  | cons c rest =>
      obtain ⟨more, hmore⟩ := exists_joinLines_cons c rest
      rw [hmore]
      rfl

theorem joinLines_append {first : List Char} (h : '\n' ∉ first) (rest : List Char) :
    joinLines (first ++ rest) = first ++ joinLines rest := by
  induction first with
  | nil => rfl
  | cons c first ih =>
      rw [List.mem_cons, not_or] at h
      rw [List.cons_append, joinLines_cons (Ne.symm h.1), ih h.2, List.cons_append]

/-- What stands at the front of joined lines stood there before. -/
theorem exists_of_joinLines_eq_cons {cs more : List Char} {c : Char} (hc : c ≠ '\n')
    (h : joinLines cs = c :: more) : ∃ rest, cs = c :: rest ∧ more = joinLines rest := by
  cases cs with
  | nil => cases h
  | cons d rest =>
      obtain ⟨found, hfound⟩ := exists_joinLines_cons d rest
      rw [hfound, List.cons.injEq] at h
      obtain ⟨rfl, rfl⟩ := h
      rw [joinLines_cons hc, List.cons.injEq] at hfound
      exact ⟨rest, rfl, hfound.2.symm⟩

theorem exists_of_joinLines_eq_append {first : List Char} (hfirst : '\n' ∉ first) :
    ∀ {cs more : List Char}, joinLines cs = first ++ more → ∃ rest, cs = first ++ rest := by
  induction first with
  | nil => exact fun _ => ⟨_, rfl⟩
  | cons c first ih =>
      intro cs more h
      rw [List.mem_cons, not_or] at hfirst
      obtain ⟨rest, rfl, hrest⟩ := exists_of_joinLines_eq_cons (Ne.symm hfirst.1) h
      obtain ⟨last, rfl⟩ := ih hfirst.2 hrest.symm
      exact ⟨last, rfl⟩

theorem takeWhile_joinLines {p : Char → Bool} (hp : p '\n' = false) (cs : List Char) :
    (joinLines cs).takeWhile p = cs.takeWhile p := by
  induction cs with
  | nil => rfl
  | cons c rest ih =>
      by_cases hc : c = '\n'
      · obtain ⟨more, hmore⟩ := exists_joinLines_cons c rest
        rw [hmore, hc, List.takeWhile_cons, List.takeWhile_cons, hp]
        rfl
      · rw [joinLines_cons hc, List.takeWhile_cons, List.takeWhile_cons, ih]

theorem dropWhile_joinLines {p : Char → Bool} (hp : p '\n' = false) (cs : List Char) :
    (joinLines cs).dropWhile p = joinLines (cs.dropWhile p) := by
  induction cs with
  | nil => rfl
  | cons c rest ih =>
      by_cases hc : c = '\n'
      · obtain ⟨more, hmore⟩ := exists_joinLines_cons c rest
        rw [List.dropWhile_cons_of_neg (by simp [hc, hp]), hmore,
          List.dropWhile_cons_of_neg (by simp [hc, hp])]
      · rw [joinLines_cons hc, List.dropWhile_cons, List.dropWhile_cons, ih]
        split
        · rfl
        · rw [joinLines_cons hc]

theorem mem_take_joinLines {cs : List Char} {n : Nat} (h : '\n' ∈ cs.take n) :
    '\n' ∈ (joinLines cs).take n := by
  induction cs generalizing n with
  | nil => simp at h
  | cons c rest ih =>
      cases n with
      | zero => simp at h
      | succ n =>
          by_cases hc : c = '\n'
          · obtain ⟨more, hmore⟩ := exists_joinLines_cons c rest
            rw [hmore, hc, List.take_succ_cons]
            exact List.mem_cons_self
          · rw [List.take_succ_cons, List.mem_cons, or_iff_right (Ne.symm hc)] at h
            rw [joinLines_cons hc, List.take_succ_cons]
            exact List.mem_cons_of_mem _ (ih h)

/-- The first characters of joined lines are made of as many characters of the lines. -/
theorem take_joinLines (cs : List Char) (n : Nat) :
    (joinLines cs).take n = (joinLines (cs.take n)).take n := by
  induction cs generalizing n with
  | nil => simp
  | cons c rest ih =>
      cases n with
      | zero => rfl
      | succ n =>
          by_cases hc : c = '\n'
          · subst hc
            cases rest with
            | nil => rw [List.take_succ_cons, List.take_nil]
            | cons d rest =>
                cases n with
                | zero => rfl
                | succ n =>
                    have hshorter := congrArg (List.take n) (ih (n + 1))
                    rw [List.take_take, List.take_take, Nat.min_eq_left (Nat.le_succ n)] at hshorter
                    rw [List.take_succ_cons, joinLines_break (List.cons_ne_nil d rest),
                      joinLines_break (by simp), List.take_succ_cons, List.take_succ_cons,
                      List.take_succ_cons, List.take_succ_cons, hshorter]
          · rw [List.take_succ_cons, joinLines_cons hc, joinLines_cons hc, List.take_succ_cons,
              List.take_succ_cons, ih]

/-- A break at the very end joins nothing. -/
theorem joinLines_of_not_mem_dropLast {cs : List Char} (h : '\n' ∉ cs.dropLast) :
    joinLines cs = cs := by
  induction cs with
  | nil => rfl
  | cons c rest ih =>
      cases rest with
      | nil => rfl
      | cons d rest =>
          rw [List.dropLast_cons_cons, List.mem_cons, not_or] at h
          rw [joinLines_cons (Ne.symm h.1), ih h.2]

theorem take_joinLines_of_not_mem {cs : List Char} {n : Nat} (h : '\n' ∉ (cs.take n).dropLast) :
    (joinLines cs).take n = cs.take n := by
  rw [take_joinLines, joinLines_of_not_mem_dropLast h, List.take_take, Nat.min_self]

theorem not_mem_unifyBreaks (cs : List Char) : '\r' ∉ Text.unifyBreaks cs := by
  induction cs using Text.unifyBreaks.induct with
  | case1 => exact List.not_mem_nil
  | case2 rest ih =>
      rw [Text.unifyBreaks, List.mem_cons, not_or]
      exact ⟨by decide, ih⟩
  | case3 rest hfeed ih =>
      rw [Text.unifyBreaks.eq_3 rest hfeed, List.mem_cons, not_or]
      exact ⟨by decide, ih⟩
  | case4 c rest hpair hreturn ih =>
      rw [Text.unifyBreaks.eq_4 c rest hpair hreturn, List.mem_cons, not_or]
      exact ⟨fun hc => hreturn hc.symm, ih⟩

end Command

namespace Scan

open Command

/-! ### Block texts -/

def padBreaks (cs : List Char) : List Char :=
  cs.flatMap fun c => if c = '\n' then ['\n', ' '] else [c]

theorem padBreaks_cons {c : Char} (hc : c ≠ '\n') (rest : List Char) :
    padBreaks (c :: rest) = c :: padBreaks rest := by
  simp [padBreaks, hc]

/-- A blank stands behind every break that something follows. -/
theorem joinLines_append_of_ne_nil (before : List Char) {left : List Char} (h : left ≠ []) :
    joinLines (before ++ left) = padBreaks before ++ joinLines left := by
  induction before with
  | nil => rfl
  | cons c before ih =>
      rw [List.cons_append]
      by_cases hc : c = '\n'
      · subst hc
        rw [joinLines_break (List.append_ne_nil_of_right_ne_nil before h), ih]
        rfl
      · rw [joinLines_cons hc, padBreaks_cons hc, ih, List.cons_append]

theorem block?_blank {c : Char} (hc : c = '\n' ∨ c = ' ') (rest : List Char) :
    block? (c :: rest) = (block? rest).map fun read => (c :: read.1, read.2) := by
  apply block?_cons
  · rintro last rfl
    simp at hc
  · rintro last rfl
    simp at hc

theorem block?_joinLines (cs : List Char) :
    block? (joinLines cs) = (block? cs).map fun read => (padBreaks read.1, joinLines read.2) := by
  induction cs using block?.induct with
  | case1 => rfl
  | case2 rest =>
      rw [joinLines_cons (by decide), joinLines_cons (by decide), joinLines_cons (by decide)]
      rfl
  | case3 rest ih =>
      rw [joinLines_cons (by decide), joinLines_cons (by decide), joinLines_cons (by decide),
        joinLines_cons (by decide), block?, block?, ih]
      cases block? rest with
      | none => rfl
      | some read => rfl
  | case4 c rest hquotes hescaped ih =>
      by_cases hc : c = '\n'
      · subst hc
        cases rest with
        | nil => rfl
        | cons d rest =>
            rw [joinLines_break (List.cons_ne_nil d rest), block?_blank (Or.inl rfl),
              block?_blank (Or.inr rfl), block?_blank (Or.inl rfl), ih]
            cases block? (d :: rest) with
            | none => rfl
            | some read => rfl
      · have hquotes' : ∀ last, c = '"' → joinLines rest ≠ '"' :: '"' :: last := by
          intro last hquote h
          have htwo : '\n' ∉ ['"', '"'] := by decide
          obtain ⟨more, hmore⟩ := exists_of_joinLines_eq_append htwo h
          exact hquotes more hquote hmore
        have hescaped' : ∀ last, c = '\\' → joinLines rest ≠ '"' :: '"' :: '"' :: last := by
          intro last hback h
          have hthree : '\n' ∉ ['"', '"', '"'] := by decide
          obtain ⟨more, hmore⟩ := exists_of_joinLines_eq_append hthree h
          exact hescaped more hback hmore
        rw [joinLines_cons hc, block?_cons hquotes' hescaped', block?_cons hquotes hescaped, ih]
        cases block? rest with
        | none => rfl
        | some read => simp [padBreaks_cons hc]

theorem unifyBreaks_of_not_mem {cs : List Char} (h : '\r' ∉ cs) : Text.unifyBreaks cs = cs := by
  induction cs using Text.unifyBreaks.induct with
  | case1 => rfl
  | case2 rest ih => simp at h
  | case3 rest hnot ih => simp at h
  | case4 c rest hpair hreturn ih =>
      rw [List.mem_cons, not_or] at h
      rw [Text.unifyBreaks, ih h.2]
      · exact hpair
      · exact hreturn

theorem splitLines_padBreaks (cs : List Char) :
    ∃ first rest, Text.splitLines cs = first :: rest ∧
      Text.splitLines (padBreaks cs) = first :: rest.map (' ' :: ·) := by
  induction cs with
  | nil => exact ⟨[], [], rfl, rfl⟩
  | cons c cs ih =>
      obtain ⟨first, rest, hlines, hpadded⟩ := ih
      by_cases hc : c = '\n'
      · subst hc
        refine ⟨[], first :: rest, ?_, ?_⟩
        · rw [Text.splitLines, if_pos rfl, hlines]
        · show Text.splitLines ('\n' :: ' ' :: padBreaks cs) = _
          rw [Text.splitLines, if_pos rfl, Text.splitLines, if_neg (by decide), hpadded]
          rfl
      · refine ⟨c :: first, rest, ?_, ?_⟩
        · rw [Text.splitLines, if_neg hc, hlines]
        · rw [padBreaks_cons hc, Text.splitLines, if_neg hc, hpadded]

theorem min?_map_succ (counts : List Nat) :
    (counts.map (· + 1)).min? = counts.min?.map (· + 1) := by
  cases counts with
  | nil => rfl
  | cons n rest =>
      rw [List.map_cons, List.min?_cons', List.min?_cons', List.foldl_map, Option.map_some]
      refine congrArg some (List.foldl_hom (· + 1) fun x y => ?_)
      show min (x + 1) (y + 1) = min x y + 1
      omega

/-- The common indentation of lines that are not all blank grows with each of them. -/
theorem commonIndent_padded {lines : List (List Char)}
    (h : ∃ line ∈ lines, isBlankLine line = false) :
    commonIndent (lines.map (' ' :: ·)) = commonIndent lines + 1 := by
  obtain ⟨line, hline, hfilled⟩ := h
  have hfilter : (lines.map (' ' :: ·)).filter (fun line => !isBlankLine line) =
      (lines.filter fun line => !isBlankLine line).map (' ' :: ·) := by
    rw [List.filter_map]
    rfl
  have hmem : line ∈ lines.filter fun line => !isBlankLine line := by
    rw [List.mem_filter, hfilled]
    exact ⟨hline, rfl⟩
  obtain ⟨some, others, hsome⟩ := List.exists_cons_of_ne_nil (List.ne_nil_of_mem hmem)
  have hcounts : ((lines.filter fun line => !isBlankLine line).map (' ' :: ·)).map
        (fun line => (line.takeWhile isIndent).length) =
      ((lines.filter fun line => !isBlankLine line).map
        fun line => (line.takeWhile isIndent).length).map (· + 1) := by
    rw [List.map_map, List.map_map]
    rfl
  rw [commonIndent, commonIndent, hfilter, hcounts, min?_map_succ, hsome, List.map_cons,
    List.min?_cons']
  rfl

/-- Blank lines behind the first are left out, however long they are. -/
theorem trimBlankLines_of_blank {first : List Char} {rest : List (List Char)}
    (h : ∀ line ∈ rest, isBlankLine line = true) :
    trimBlankLines (first :: rest) = if isBlankLine first then [] else [first] := by
  have hreversed : ∀ line ∈ rest.reverse, isBlankLine line = true := by
    intro line hline
    exact h line (List.mem_reverse.mp hline)
  unfold trimBlankLines
  split
  · rename_i hfirst
    rw [List.dropWhile_cons_of_pos hfirst, List.dropWhile_eq_nil_iff.mpr h]
    rfl
  · rename_i hfirst
    rw [List.dropWhile_cons_of_neg hfirst, List.reverse_cons,
      List.dropWhile_append_of_pos hreversed, List.dropWhile_cons_of_neg hfirst]
    rfl

theorem isBlankLine_drop {line : List Char} (h : isBlankLine line = true) (n : Nat) :
    isBlankLine (line.drop n) = true := by
  unfold isBlankLine at h ⊢
  rw [List.all_eq_true] at h ⊢
  intro c hc
  exact h c (List.mem_of_mem_drop hc)

theorem dedent_padded (first : List Char) (rest : List (List Char)) :
    dedent (first :: rest.map (' ' :: ·)) = dedent (first :: rest) := by
  rw [dedent, dedent]
  by_cases h : ∃ line ∈ rest, isBlankLine line = false
  · rw [commonIndent_padded h, List.map_map]
    rfl
  · have hblank : ∀ line ∈ rest, isBlankLine line = true := by
      intro line hline
      rw [← Bool.not_eq_false]
      exact fun hfilled => h ⟨line, hline, hfilled⟩
    rw [trimBlankLines_of_blank, trimBlankLines_of_blank]
    · intro line hline
      obtain ⟨line, hmem, rfl⟩ := List.mem_map.mp hline
      exact isBlankLine_drop (hblank line hmem) _
    · intro line hline
      rw [List.map_map] at hline
      obtain ⟨line, hmem, rfl⟩ := List.mem_map.mp hline
      have hpadded : isBlankLine (' ' :: line) = true := hblank line hmem
      exact isBlankLine_drop hpadded _

theorem blockValue_padBreaks {raw : List Char} (h : '\r' ∉ raw) :
    blockValue (padBreaks raw) = blockValue raw := by
  have hpadded : '\r' ∉ padBreaks raw := by
    intro hmem
    obtain ⟨c, hc, hreturn⟩ := List.mem_flatMap.mp hmem
    split at hreturn
    · simp at hreturn
    · rw [List.mem_singleton] at hreturn
      exact h (hreturn ▸ hc)
  obtain ⟨first, rest, hlines, hlines'⟩ := splitLines_padBreaks raw
  rw [blockValue, blockValue, unifyBreaks_of_not_mem h, unifyBreaks_of_not_mem hpadded, hlines,
    hlines', dedent_padded]

end Scan

end QueryProjection
