import QueryProjection.Proofs.Grammar.Parallel
import QueryProjection.Proofs.Scan.JoinedBlocks

/-!
# The lexemes of joined lines

A text and its joined lines have the same lexemes, one by one (`alike_lexemes`).  A name or a numeral
stands on one line, so the blank behind a line break is not reached; the same is so of a quoted text
and of its escapes.  A block text goes over several lines and absorbs the blanks.  A comment ends
with its line, and between lexemes blanks are dropped.

There is one exception.  An escape that names a character by its number may run into the end of its
line.  Then it is invalid in both texts, but it is shown with a blank in one of them
(`LexicalFault.respaced`).

The lexemes also start at the same characters, and so do the faults of invalid ones: what is left of
the joined lines there is what is left of the text, with its lines joined (`respaced_tokens`).
-/

namespace QueryProjection

open Command

/-- What is wrong with a word where lines are joined.  An escape that a line break interrupts is
shown with the blank that stands behind the break, and no longer than it would be otherwise. -/
def LexicalFault.respaced : LexicalFault → LexicalFault
  | .badUnicodeEscape written =>
      if '\n' ∈ written.toList.dropLast then
        .badUnicodeEscape (String.ofList ((joinLines written.toList).take 6))
      else .badUnicodeEscape written
  | fault => fault

def Lexeme.respaced : Lexeme → Lexeme
  | .invalid fault => .invalid fault.respaced
  | lexeme => lexeme

theorem LexicalFault.respaced_of_not_mem {written : List Char} (h : '\n' ∉ written.dropLast) :
    (badUnicodeEscape (String.ofList written)).respaced =
      .badUnicodeEscape (String.ofList written) := by
  rw [respaced, String.toList_ofList, if_neg h]

theorem LexicalFault.respaced_take (cs : List Char) :
    (badUnicodeEscape (String.ofList (cs.take 6))).respaced =
      .badUnicodeEscape (String.ofList ((joinLines cs).take 6)) := by
  by_cases h : '\n' ∈ (cs.take 6).dropLast
  · rw [respaced, String.toList_ofList, if_pos h, ← take_joinLines]
  · rw [respaced_of_not_mem h, take_joinLines_of_not_mem h]

theorem Lexeme.respaced_of_valid {lexeme : Lexeme} (h : ∀ fault, lexeme ≠ .invalid fault) :
    lexeme.respaced = lexeme := by
  cases lexeme with
  | invalid fault => exact absurd rfl (h fault)
  | mark | name | int | float | text => rfl

/-- A lexeme is taken for the one that is found in its place where lines are joined. -/
def Grammar.Likeness.respaced : Grammar.Likeness where
  same lexeme lexeme' := lexeme' = lexeme.respaced
  alike {lexeme lexeme'} h := by
    cases lexeme with
    | invalid fault => exact h ▸ .invalid fault fault.respaced
    | mark | name | int | float | text => exact h ▸ .same _

namespace Scan

/-- What is cut from the front of joined lines is what is cut from the lines, and the lines that
are left are joined again, be it behind what is cut or from a fault on. -/
inductive CutsAlike {α : Type} (cs : List Char) :
    Except Located (α × List Char) → Except Located (α × List Char) → Prop where
  | ok (value : α) {last : List Char} (h : last <:+ cs) :
      CutsAlike cs (.ok (value, last)) (.ok (value, joinLines last))
  | error (fault : LexicalFault) {left : List Char} (h : left <:+ cs) :
      CutsAlike cs (.error (fault, left.length)) (.error (fault.respaced, (joinLines left).length))

namespace CutsAlike

variable {α β : Type} {cs : List Char}

theorem mono {cs' : List Char} {first first' : Except Located (α × List Char)}
    (h : CutsAlike cs first first') (hsuffix : cs <:+ cs') : CutsAlike cs' first first' := by
  cases h with
  | ok value hlast => exact .ok value (hlast.trans hsuffix)
  | error fault hleft => exact .error fault (hleft.trans hsuffix)

/-- A fault at the first character. -/
theorem here {c : Char} {rest more : List Char} (h : joinLines (c :: rest) = c :: more)
    (fault : LexicalFault) :
    CutsAlike (c :: rest) (.error (fault, rest.length + 1) : Except Located (α × List Char))
      (.error (fault.respaced, more.length + 1)) := by
  have hfault : CutsAlike (c :: rest) (.error (fault, (c :: rest).length))
      (.error (fault.respaced, (joinLines (c :: rest)).length) :
        Except Located (α × List Char)) := .error fault List.suffix_rfl
  rw [h] at hfault
  exact hfault

/-- A fault at the end of the text. -/
theorem atEnd (cs : List Char) (fault : LexicalFault) :
    CutsAlike cs (.error (fault, 0) : Except Located (α × List Char))
      (.error (fault.respaced, 0)) := by
  have hfault : CutsAlike cs (.error (fault, ([] : List Char).length))
      (.error (fault.respaced, (joinLines []).length) : Except Located (α × List Char)) :=
    .error fault (List.nil_suffix)
  exact hfault

/-- Where nothing is cut off, what is left is joined again. -/
theorem passes {cut : List Char → Except Located (α × List Char)} {c : Char} {value : α}
    (h : ∀ rest, cut (c :: rest) = .ok (value, c :: rest)) (rest : List Char) :
    CutsAlike (c :: rest) (cut (c :: rest)) (cut (joinLines (c :: rest))) := by
  obtain ⟨more, hmore⟩ := exists_joinLines_cons c rest
  rw [hmore, h, h, ← hmore]
  exact .ok value List.suffix_rfl

theorem step {first first' : Except Located (α × List Char)}
    {second : α × List Char → Except Located (β × List Char)} (h : CutsAlike cs first first')
    (hsecond : ∀ value last,
      CutsAlike last (second (value, last)) (second (value, joinLines last))) :
    CutsAlike cs (first >>= second) (first' >>= second) := by
  cases h with
  | ok value hlast => exact (hsecond value _).mono hlast
  | error fault hleft => exact .error fault hleft

theorem map {first first' : Except Located (α × List Char)} (h : CutsAlike cs first first')
    (f : α → β) :
    CutsAlike cs (first.map fun read => (f read.1, read.2))
      (first'.map fun read => (f read.1, read.2)) := by
  cases h with
  | ok value hlast => exact .ok (f value) hlast
  | error fault hleft => exact .error fault hleft

end CutsAlike

/-! ### Numerals -/

theorem cutsAlike_digits (cs : List Char) : CutsAlike cs (digits cs) (digits (joinLines cs)) := by
  have hbreak : Char.isDigit '\n' = false := by decide
  unfold digits
  rw [takeWhile_joinLines hbreak, dropWhile_joinLines hbreak, head?_joinLines]
  split
  · exact .error (.expectedDigit cs.head?) List.suffix_rfl
  · exact .ok _ (List.dropWhile_suffix _)

theorem cutsAlike_wholePart (cs : List Char) :
    CutsAlike cs (wholePart cs) (wholePart (joinLines cs)) := by
  cases cs with
  | nil => exact cutsAlike_digits []
  | cons c rest =>
      by_cases hc : c = '0'
      · subst hc
        rw [joinLines_cons (by decide)]
        cases rest with
        | nil => exact .ok ['0'] (List.suffix_cons '0' [])
        | cons d rest =>
            obtain ⟨more, hmore⟩ := exists_joinLines_cons d rest
            have hok : CutsAlike ('0' :: d :: rest) (.ok (['0'], d :: rest))
                (.ok (['0'], d :: more)) := by
              rw [← hmore]
              exact .ok _ (List.suffix_cons _ _)
            rw [hmore]
            simp only [wholePart]
            split
            · exact (CutsAlike.here hmore (.digitAfterZero d)).mono (List.suffix_cons _ _)
            · exact hok
      · have hother : ∀ rest, wholePart (c :: rest) = digits (c :: rest) := by
          intro rest
          simp only [wholePart]
          split
          · rename_i heq
            cases heq
            exact absurd rfl hc
          · rfl
        obtain ⟨more, hmore⟩ := exists_joinLines_cons c rest
        have hdigits := cutsAlike_digits (c :: rest)
        rw [hmore] at hdigits ⊢
        rw [hother, hother]
        exact hdigits

theorem cutsAlike_fraction (cs : List Char) :
    CutsAlike cs (fraction cs) (fraction (joinLines cs)) := by
  cases cs with
  | nil => exact .ok [] List.suffix_rfl
  | cons c rest =>
      by_cases hc : c = '.'
      · subst hc
        rw [joinLines_cons (by decide)]
        exact ((cutsAlike_digits rest).mono (List.suffix_cons _ _)).step fun run last =>
          .ok _ List.suffix_rfl
      · have hother : ∀ rest, fraction (c :: rest) = .ok ([], c :: rest) := by
          intro rest
          simp only [fraction]
          split
          · rename_i heq
            cases heq
            exact absurd rfl hc
          · rfl
        exact .passes hother rest

theorem sign_joinLines (cs : List Char) :
    sign (joinLines cs) = ((sign cs).1, joinLines (sign cs).2) := by
  cases cs with
  | nil => rfl
  | cons c rest =>
      by_cases hplus : c = '+'
      · rw [hplus, joinLines_cons (by decide)]
        rfl
      by_cases hminus : c = '-'
      · rw [hminus, joinLines_cons (by decide)]
        rfl
      have hother : ∀ rest, sign (c :: rest) = ([], c :: rest) := by
        intro rest
        simp [sign, hplus, hminus]
      obtain ⟨more, hmore⟩ := exists_joinLines_cons c rest
      rw [hmore, hother, hother, ← hmore]

theorem minus_joinLines (cs : List Char) :
    minus (joinLines cs) = ((minus cs).1, joinLines (minus cs).2) := by
  cases cs with
  | nil => rfl
  | cons c rest =>
      by_cases hminus : c = '-'
      · rw [hminus, joinLines_cons (by decide)]
        rfl
      have hother : ∀ rest, minus (c :: rest) = ([], c :: rest) := by
        intro rest
        simp [minus, hminus]
      obtain ⟨more, hmore⟩ := exists_joinLines_cons c rest
      rw [hmore, hother, hother, ← hmore]

theorem cutsAlike_exponent (cs : List Char) :
    CutsAlike cs (exponent cs) (exponent (joinLines cs)) := by
  cases cs with
  | nil => exact .ok [] List.suffix_rfl
  | cons e rest =>
      by_cases he : (e = 'e' || e = 'E') = true
      · have hbreak : e ≠ '\n' := by
          rintro rfl
          cases he
        rw [joinLines_cons hbreak]
        simp only [exponent, he, if_true, sign_joinLines]
        have hunsigned : (sign rest).2 <:+ e :: rest := (suffix_sign rest).trans (List.suffix_cons _ _)
        exact ((cutsAlike_digits _).mono hunsigned).step fun run last => .ok _ List.suffix_rfl
      · have hother : ∀ rest, exponent (e :: rest) = .ok ([], e :: rest) := by
          intro rest
          rw [exponent, if_neg he]
        exact .passes hother rest

theorem cutsAlike_numeral (cs : List Char) :
    CutsAlike cs (numeral cs) (numeral (joinLines cs)) := by
  unfold numeral
  rw [minus_joinLines]
  refine ((cutsAlike_wholePart _).mono (suffix_minus cs)).step fun whole afterWhole => ?_
  refine (cutsAlike_fraction _).step fun fractionPart afterFraction => ?_
  refine (cutsAlike_exponent _).step fun exponentPart rest => ?_
  cases rest with
  | nil =>
      rw [joinLines_nil]
      dsimp only
      split
      · exact .ok _ List.suffix_rfl
      · exact .ok _ List.suffix_rfl
  | cons c rest =>
      obtain ⟨more, hmore⟩ := exists_joinLines_cons c rest
      rw [hmore]
      dsimp only
      split
      · exact .here hmore (.expectedDigit (some c))
      · rw [← hmore]
        split
        · exact .ok _ List.suffix_rfl
        · exact .ok _ List.suffix_rfl

/-! ### Escapes -/

theorem hexUnit?_of_break {a b c d : Char} (h : '\n' ∈ [a, b, c, d]) :
    Text.hexUnit? a b c d = none := by
  have hbreak : Text.hexValue? '\n' = none := by decide
  simp only [List.mem_cons, List.not_mem_nil, or_false] at h
  rcases h with rfl | rfl | rfl | rfl
  · simp [Text.hexUnit?, hbreak]
  · simp [Text.hexUnit?, hbreak]
  · simp [Text.hexUnit?, hbreak]
  · simp [Text.hexUnit?, hbreak]

theorem lowEscape?_of_break {cs : List Char} (h : '\n' ∈ cs.take 6) : lowEscape? cs = none := by
  unfold lowEscape?
  split
  · rename_i a b c d last
    have hdigits : '\n' ∈ [a, b, c, d] := by simpa using h
    rw [hexUnit?_of_break hdigits]
    rfl
  · rfl

theorem unitEscape?_of_break {cs : List Char} (h : '\n' ∈ cs.take 4) :
    unitEscape? cs = none := by
  unfold unitEscape?
  split
  · rename_i a b c d last
    have hdigits : '\n' ∈ [a, b, c, d] := by simpa using h
    rw [hexUnit?_of_break hdigits]
    rfl
  · rfl

/-- Lines whose first characters hold no break are joined behind these. -/
theorem joinLines_of_not_mem_take {cs : List Char} {n : Nat} (h : '\n' ∉ cs.take n) :
    joinLines cs = cs.take n ++ joinLines (cs.drop n) := by
  rw [← joinLines_append h, List.take_append_drop]

/-- Only the first six characters are looked at. -/
theorem lowEscape?_cons (a b c d e f : Char) (rest rest' : List Char) :
    lowEscape? (a :: b :: c :: d :: e :: f :: rest) =
      lowEscape? (a :: b :: c :: d :: e :: f :: rest') := by
  by_cases h : a = '\\' ∧ b = 'u'
  · obtain ⟨rfl, rfl⟩ := h
    rfl
  · simp only [lowEscape?]
    split
    · rename_i heq
      cases heq
      exact absurd ⟨rfl, rfl⟩ h
    · split
      · rename_i heq
        cases heq
        exact absurd ⟨rfl, rfl⟩ h
      · rfl

theorem lowEscape?_joinLines (cs : List Char) : lowEscape? (joinLines cs) = lowEscape? cs := by
  by_cases h : '\n' ∈ cs.take 6
  · rw [lowEscape?_of_break h, lowEscape?_of_break (mem_take_joinLines h)]
  rw [joinLines_of_not_mem_take h]
  rcases cs with _ | ⟨a, _ | ⟨b, _ | ⟨c, _ | ⟨d, _ | ⟨e, _ | ⟨f, rest⟩⟩⟩⟩⟩⟩
  · rfl
  · rfl
  · rfl
  · rfl
  · rfl
  · rfl
  · exact lowEscape?_cons a b c d e f (joinLines rest) rest

theorem unitEscape?_joinLines (cs : List Char) :
    unitEscape? (joinLines cs) = unitEscape? cs := by
  by_cases h : '\n' ∈ cs.take 4
  · rw [unitEscape?_of_break h, unitEscape?_of_break (mem_take_joinLines h)]
  rw [joinLines_of_not_mem_take h]
  rcases cs with _ | ⟨a, _ | ⟨b, _ | ⟨c, _ | ⟨d, rest⟩⟩⟩⟩
  · rfl
  · rfl
  · rfl
  · rfl
  · show unitEscape? (a :: b :: c :: d :: joinLines rest) = _
    simp only [unitEscape?, lowEscape?_joinLines]

/-- An escape takes characters of one line only. -/
theorem not_mem_of_unitEscape? {cs : List Char} {x : Char} {size : Nat}
    (h : unitEscape? cs = some (x, size)) : '\n' ∉ ('u' :: cs).take size := by
  have hfirst : '\n' ∉ cs.take 4 := by
    intro hbreak
    rw [unitEscape?_of_break hbreak] at h
    cases h
  rcases cs with _ | ⟨a, _ | ⟨b, _ | ⟨c, _ | ⟨d, rest⟩⟩⟩⟩
  · cases h
  · cases h
  · cases h
  · cases h
  have hu : '\n' ≠ 'u' := by decide
  have hfour : '\n' ∉ ['u', a, b, c, d] := by
    rw [List.mem_cons, not_or]
    exact ⟨hu, hfirst⟩
  obtain ⟨unit, -, h⟩ := Option.bind_eq_some_iff.mp h
  split at h
  · obtain ⟨low, hlow, h⟩ := Option.bind_eq_some_iff.mp h
    obtain ⟨-, rfl⟩ := Prod.mk.inj (Option.some.inj h)
    have hsecond : '\n' ∉ rest.take 6 := by
      intro hbreak
      rw [lowEscape?_of_break hbreak] at hlow
      cases hlow
    show '\n' ∉ ['u', a, b, c, d] ++ rest.take 6
    rw [List.mem_append, not_or]
    exact ⟨hfour, hsecond⟩
  · split at h
    · cases h
    · obtain ⟨-, rfl⟩ := Prod.mk.inj (Option.some.inj h)
      exact hfour

theorem bracedEscape_joinLines (n : Nat) :
    ∀ (cs : List Char) (size point : Nat),
      bracedEscape size point ((joinLines cs).take n) = bracedEscape size point (cs.take n) := by
  induction n with
  | zero => exact fun cs size point => rfl
  | succ n ih =>
      intro cs size point
      cases cs with
      | nil => rfl
      | cons c rest =>
          by_cases hc : c = '\n'
          · obtain ⟨more, hmore⟩ := exists_joinLines_cons c rest
            have hbreak : Text.hexValue? '\n' = none := by decide
            rw [hmore, hc, List.take_succ_cons, List.take_succ_cons]
            simp [bracedEscape, hbreak]
          · rw [joinLines_cons hc, List.take_succ_cons, List.take_succ_cons, bracedEscape,
              bracedEscape]
            simp only [ih]

theorem not_mem_of_bracedEscape {cs : List Char} {x : Char} {total : Nat} :
    ∀ {size point : Nat}, bracedEscape size point cs = .ok (x, total) →
      ∃ n, total = size + n ∧ n ≤ cs.length ∧ '\n' ∉ cs.take n := by
  induction cs with
  | nil =>
      intro size point h
      cases h
  | cons c rest ih =>
      intro size point h
      rw [bracedEscape] at h
      split at h
      · rename_i hc
        split at h
        · cases h
          refine ⟨1, rfl, by simp, ?_⟩
          simp [hc]
        · cases h
      · split at h
        · cases h
        · rename_i digit hdigit
          obtain ⟨n, htotal, hn, hnot⟩ := ih h
          refine ⟨n + 1, by omega, by simpa using hn, ?_⟩
          rw [List.take_succ_cons, List.mem_cons, not_or]
          refine ⟨?_, hnot⟩
          rintro rfl
          cases hdigit

theorem not_mem_dropLast_append {c : Char} {first last : List Char} (hfirst : c ∉ first)
    (hlast : c ∉ last.dropLast) : c ∉ (first ++ last).dropLast := by
  cases last with
  | nil =>
      rw [List.append_nil]
      exact fun hmem => hfirst ((List.dropLast_sublist first).subset hmem)
  | cons d last =>
      rw [List.dropLast_append_of_ne_nil (List.cons_ne_nil d last), List.mem_append, not_or]
      exact ⟨hfirst, hlast⟩

/-- A break ends the digits of an escape in braces, so it is the last character that is shown. -/
theorem not_mem_dropLast_of_bracedEscape {cs : List Char} {total : Nat} :
    ∀ {size point : Nat}, bracedEscape size point cs = .error total →
      ∃ n, total = size + n ∧ n ≤ cs.length ∧ '\n' ∉ (cs.take n).dropLast := by
  induction cs with
  | nil =>
      intro size point h
      cases h
      exact ⟨0, rfl, le_rfl, List.not_mem_nil⟩
  | cons c rest ih =>
      intro size point h
      have hone : 1 ≤ (c :: rest).length ∧ '\n' ∉ ((c :: rest).take 1).dropLast := by simp
      rw [bracedEscape] at h
      split at h
      · split at h
        · cases h
        · cases h
          exact ⟨1, rfl, hone⟩
      · split at h
        · cases h
          exact ⟨1, rfl, hone⟩
        · rename_i digit hdigit
          obtain ⟨n, htotal, hn, hnot⟩ := ih h
          refine ⟨n + 1, by omega, by simpa using hn, ?_⟩
          have hc : '\n' ∉ [c] := by
            rw [List.mem_singleton]
            rintro rfl
            cases hdigit
          exact not_mem_dropLast_append hc hnot

/-- An escape that names a character by its number is read alike from joined lines. -/
theorem escape_joinLines_unicode (rest : List Char) :
    (∃ x size, escape ('u' :: rest) = .ok (x, size) ∧
        escape ('u' :: joinLines rest) = .ok (x, size) ∧ '\n' ∉ ('u' :: rest).take size) ∨
      ∃ fault : LexicalFault, escape ('u' :: rest) = .error fault ∧
        escape ('u' :: joinLines rest) = .error fault.respaced := by
  by_cases hbrace : rest.head? = some '\x7b'
  · obtain ⟨inner, rfl⟩ := List.head?_eq_some_iff.mp hbrace
    rw [joinLines_cons (by decide)]
    simp only [escape, bracedEscape_joinLines]
    cases hread : bracedEscape 3 0 (inner.take bracedLimit) with
    | error size =>
        obtain ⟨n, rfl, hn, hnot⟩ := not_mem_dropLast_of_bracedEscape hread
        have hshown : '\n' ∉ (('\\' :: 'u' :: '\x7b' :: inner).take (3 + n)).dropLast := by
          rw [List.length_take] at hn
          rw [List.take_take, Nat.min_eq_left (by omega)] at hnot
          rw [show 3 + n = n + 1 + 1 + 1 by omega, List.take_succ_cons, List.take_succ_cons,
            List.take_succ_cons]
          exact not_mem_dropLast_append (by decide : '\n' ∉ ['\\', 'u', '\x7b']) hnot
        refine Or.inr ⟨_, rfl, ?_⟩
        rw [LexicalFault.respaced_of_not_mem hshown, ← take_joinLines_of_not_mem hshown,
          joinLines_cons (by decide), joinLines_cons (by decide), joinLines_cons (by decide)]
    | ok found =>
        obtain ⟨x, total⟩ := found
        obtain ⟨n, rfl, hn, hnot⟩ := not_mem_of_bracedEscape hread
        refine Or.inl ⟨x, 3 + n - 1, rfl, rfl, ?_⟩
        rw [List.length_take] at hn
        rw [List.take_take, Nat.min_eq_left (by omega)] at hnot
        rw [show 3 + n - 1 = n + 2 by omega, List.take_succ_cons, List.take_succ_cons]
        simp only [List.mem_cons, not_or]
        exact ⟨by decide, by decide, hnot⟩
  · have hother : ∀ inner : List Char, inner.head? ≠ some '\x7b' →
        escape ('u' :: inner) = (unitEscape? inner).elim
          (.error (.badUnicodeEscape (String.ofList (('\\' :: 'u' :: inner).take 6)))) .ok := by
      intro inner hinner
      unfold escape
      split
      · rename_i heq
        cases heq
        exact absurd rfl hinner
      · rename_i heq
        cases heq
        cases unitEscape? inner with
        | none => rfl
        | some found => rfl
      · rename_i hno heq
        cases heq
        exact (hno rfl).elim
      · rename_i heq
        cases heq
    rw [hother rest hbrace, hother (joinLines rest) (by rw [head?_joinLines]; exact hbrace),
      unitEscape?_joinLines]
    cases hread : unitEscape? rest with
    | none =>
        refine Or.inr ⟨_, rfl, ?_⟩
        rw [LexicalFault.respaced_take, joinLines_cons (by decide), joinLines_cons (by decide)]
        rfl
    | some found =>
        obtain ⟨x, size⟩ := found
        exact Or.inl ⟨x, size, rfl, rfl, not_mem_of_unitEscape? hread⟩

/-- An escape is read alike from joined lines, and takes characters of one line only. -/
theorem escape_joinLines (cs : List Char) :
    (∃ x size, escape cs = .ok (x, size) ∧ escape (joinLines cs) = .ok (x, size) ∧
        '\n' ∉ cs.take size) ∨
      ∃ fault : LexicalFault, escape cs = .error fault ∧
        escape (joinLines cs) = .error fault.respaced := by
  cases cs with
  | nil => exact Or.inr ⟨_, rfl, rfl⟩
  | cons c rest =>
      by_cases hu : c = 'u'
      · subst hu
        rw [joinLines_cons (by decide)]
        exact escape_joinLines_unicode rest
      · have hother : ∀ rest, escape (c :: rest) = (shortEscape? c).elim
            (.error (.badEscape (String.ofList ['\\', c]))) fun x => .ok (x, 1) := by
          intro rest
          unfold escape
          split
          · rename_i heq
            cases heq
            exact absurd rfl hu
          · rename_i heq
            cases heq
            exact absurd rfl hu
          · rename_i heq
            cases heq
            cases shortEscape? c with
            | none => rfl
            | some x => rfl
          · rename_i heq
            cases heq
        obtain ⟨more, hmore⟩ := exists_joinLines_cons c rest
        rw [hmore, hother, hother]
        cases hshort : shortEscape? c with
        | none => exact Or.inr ⟨_, rfl, rfl⟩
        | some x =>
            refine Or.inl ⟨x, 1, rfl, rfl, ?_⟩
            simp only [List.take_succ_cons, List.take_zero, List.mem_singleton]
            rintro rfl
            cases hshort

/-! ### Quoted texts -/

theorem cutsAlike_quoted (cs : List Char) :
    ∀ skip, '\n' ∉ cs.take skip →
      CutsAlike cs (quoted skip cs) (quoted skip (joinLines cs)) := by
  induction cs with
  | nil =>
      intro skip _
      cases skip with
      | zero => exact .atEnd [] .unterminatedText
      | succ skip => exact .atEnd [] .unterminatedText
  | cons c rest ih =>
      intro skip hskip
      cases skip with
      | succ skip =>
          rw [List.take_succ_cons, List.mem_cons, not_or] at hskip
          rw [joinLines_cons (Ne.symm hskip.1), quoted, quoted]
          exact (ih skip hskip.2).mono (List.suffix_cons _ _)
      | zero =>
          by_cases hend : isLineEnd c = true
          · obtain ⟨more, hmore⟩ := exists_joinLines_cons c rest
            have hquote : c ≠ '"' := by
              rintro rfl
              cases hend
            have hback : c ≠ '\\' := by
              rintro rfl
              cases hend
            rw [hmore, quoted, quoted, if_neg hquote, if_neg hquote, if_neg hback, if_neg hback,
              if_pos hend, if_pos hend]
            exact .here hmore .unterminatedText
          have hbreak : c ≠ '\n' := by
            rintro rfl
            exact hend rfl
          rw [joinLines_cons hbreak, quoted, quoted]
          split
          · exact .ok _ (List.suffix_cons _ _)
          split
          · rcases escape_joinLines rest with ⟨x, size, hread, hread', hnot⟩ |
              ⟨fault, hread, hread'⟩
            · rw [hread, hread']
              exact ((ih size hnot).mono (List.suffix_cons _ _)).map (x :: ·)
            · rw [hread, hread']
              exact .here (joinLines_cons hbreak rest) fault
          · exact ((ih 0 (by simp)).mono (List.suffix_cons _ _)).map (c :: ·)

/-! ### Lexemes -/

theorem cutsAlike_dots (rest : List Char) :
    CutsAlike ('.' :: rest) (lexeme '.' rest) (lexeme '.' (joinLines rest)) := by
  have hmark : Punctuator.ofChar? '.' = none := by rfl
  have hbreak : '\n' ≠ '.' := by decide
  simp only [lexeme, hmark, if_true]
  split
  · rename_i last
    rw [joinLines_cons hbreak.symm, joinLines_cons hbreak.symm]
    exact .ok _ (List.suffix_append ['.', '.', '.'] last)
  · rename_i hno
    split
    · rename_i last heq
      have htwo : '\n' ∉ ['.', '.'] := by decide
      obtain ⟨more, hmore⟩ := exists_of_joinLines_eq_append htwo heq
      exact absurd hmore (hno more)
    · exact .here (joinLines_cons hbreak.symm rest) (.unexpectedCharacter '.')

theorem cutsAlike_text {rest : List Char} (h : '\r' ∉ rest) :
    CutsAlike ('"' :: rest) (lexeme '"' rest) (lexeme '"' (joinLines rest)) := by
  have hmark : Punctuator.ofChar? '"' = none := by rfl
  have hdot : '"' ≠ '.' := by decide
  have hbreak : '\n' ≠ '"' := by decide
  simp only [lexeme, hmark, hdot, if_false, if_true]
  split
  · rename_i inner
    rw [joinLines_cons hbreak.symm, joinLines_cons hbreak.symm]
    simp only [block?_joinLines]
    cases hblock : block? inner with
    | none => exact .atEnd _ .unterminatedText
    | some read =>
        obtain ⟨raw, last⟩ := read
        have hraw : '\r' ∉ raw := by
          intro hmem
          exact h (List.mem_cons_of_mem _ (List.mem_cons_of_mem _ ((suffix_block? hblock).2 _ hmem)))
        simp only [Option.map_some, blockValue_padBreaks hraw]
        exact .ok _ ((suffix_block? hblock).1.trans (List.suffix_append ['"', '"', '"'] inner))
  · rename_i hno
    split
    · rename_i inner heq
      have htwo : '\n' ∉ ['"', '"'] := by decide
      obtain ⟨more, hmore⟩ := exists_of_joinLines_eq_append htwo heq
      exact absurd hmore (hno more)
    · have hskip : '\n' ∉ rest.take 0 := by simp
      have hquoted := (cutsAlike_quoted rest 0 hskip).mono (List.suffix_cons '"' rest)
      exact hquoted.map fun read => Lexeme.text (String.ofList read) false

theorem cutsAlike_lexeme {c : Char} (hc : c ≠ '\n') {rest : List Char} (h : '\r' ∉ rest) :
    CutsAlike (c :: rest) (lexeme c rest) (lexeme c (joinLines rest)) := by
  by_cases hdot : c = '.'
  · rw [hdot]
    exact cutsAlike_dots rest
  by_cases hquote : c = '"'
  · rw [hquote]
    exact cutsAlike_text h
  have hbreak : isNamePart '\n' = false := by decide
  unfold lexeme
  rw [if_neg hdot, if_neg hdot, if_neg hquote, if_neg hquote, takeWhile_joinLines hbreak,
    dropWhile_joinLines hbreak, ← joinLines_cons hc]
  split
  · exact .ok _ (List.suffix_cons c rest)
  split
  · exact cutsAlike_numeral _
  split
  · exact .ok _ ((List.dropWhile_suffix _).trans (List.suffix_cons c rest))
  split
  · exact .here (joinLines_cons hc rest) .singleQuote
  · exact .here (joinLines_cons hc rest) (.unexpectedCharacter c)

/-! ### Whole texts -/

/-- A token of a text and the token in its place where the lines are joined.  From its place on, what
is left of the joined lines is what is left of the text, joined. -/
structure Token.Respaced (text : List Char) (token token' : Token) : Prop where
  lexeme : token'.lexeme = token.lexeme.respaced
  left : ∃ left, left <:+ text ∧ token.remaining = left.length ∧
    token'.remaining = (joinLines left).length

/-- The tokens that are found with so much fuel in a part of a text are those that are found where
the lines are joined. -/
def AlikeWithin (text : List Char) (fuel fuel' : Nat) (cs : List Char) : Prop :=
  List.Forall₂ (Token.Respaced text) (tokensWithin fuel cs) (tokensWithin fuel' (joinLines cs))

variable {text : List Char}

theorem alikeWithin_nil (fuel fuel' : Nat) : AlikeWithin text fuel fuel' [] := by
  unfold AlikeWithin
  rw [joinLines_nil, tokensWithin_nil, tokensWithin_nil]
  exact .nil

/-- A line break is dropped, and so is the blank behind it. -/
theorem alikeWithin_break {fuel fuel' : Nat} {rest : List Char}
    (hfuel : (joinLines ('\n' :: rest)).length ≤ fuel')
    (hrest : ∀ left, (joinLines rest).length ≤ left → AlikeWithin text fuel left rest) :
    AlikeWithin text (fuel + 1) fuel' ('\n' :: rest) := by
  unfold AlikeWithin
  rw [tokensWithin_blank rfl]
  by_cases hempty : rest = []
  · subst hempty
    have hone : joinLines ['\n'] = ['\n'] := rfl
    rw [hone] at hfuel ⊢
    obtain ⟨left, rfl⟩ : ∃ left, fuel' = left + 1 := ⟨fuel' - 1, by
      rw [List.length_singleton] at hfuel
      omega⟩
    rw [tokensWithin_blank rfl, tokensWithin_nil, tokensWithin_nil]
    exact .nil
  · rw [joinLines_break hempty] at hfuel ⊢
    simp only [List.length_cons] at hfuel
    obtain ⟨left, rfl⟩ : ∃ left, fuel' = left + 2 := ⟨fuel' - 2, by omega⟩
    rw [tokensWithin_blank rfl, tokensWithin_blank rfl]
    exact hrest left (by omega)

/-- Where a lexeme starts, it is the same on both sides, or invalid on both sides. -/
theorem forall₂_of_lexeme {c : Char} (hc : c ≠ '\n') {rest : List Char} (hreturn : '\r' ∉ rest)
    (hsuffix : c :: rest <:+ text) {fuel fuel' : Nat}
    (hrest : ∀ last, last <:+ rest → joinLines last <:+ joinLines rest →
      AlikeWithin text fuel fuel' last) :
    List.Forall₂ (Token.Respaced text)
      (match lexeme c rest with
        | .ok (found, last) =>
            { lexeme := found, remaining := rest.length + 1 } :: tokensWithin fuel last
        | .error (fault, remaining) => [{ lexeme := .invalid fault, remaining }] : List Token)
      (match lexeme c (joinLines rest) with
        | .ok (found, last) =>
            { lexeme := found, remaining := (joinLines rest).length + 1 } ::
              tokensWithin fuel' last
        | .error (fault, remaining) =>
            [{ lexeme := .invalid fault, remaining }] : List Token) := by
  have halike := cutsAlike_lexeme hc hreturn
  cases hread : lexeme c rest with
  | error found =>
      rw [hread] at halike
      generalize lexeme c (joinLines rest) = read' at halike
      cases halike with
      | error fault hleft =>
          exact .cons ⟨rfl, _, hleft.trans hsuffix, rfl, rfl⟩ .nil
  | ok found =>
      rw [hread] at halike
      cases hread' : lexeme c (joinLines rest) with
      | error found' =>
          rw [hread'] at halike
          cases halike
      | ok found' =>
          rw [hread'] at halike
          cases halike with
          | ok value _ =>
              have hvalue : value = value.respaced :=
                (Lexeme.respaced_of_valid (valid_lexeme hread)).symm
              have hleft : (joinLines rest).length + 1 = (joinLines (c :: rest)).length := by
                rw [joinLines_cons hc, List.length_cons]
              exact .cons ⟨hvalue, c :: rest, hsuffix, rfl, hleft⟩
                (hrest _ (suffix_lexeme hread) (suffix_lexeme hread'))

theorem alikeWithin (fuel : Nat) :
    ∀ (cs : List Char) (fuel' : Nat), cs <:+ text → cs.length ≤ fuel →
      (joinLines cs).length ≤ fuel' → '\r' ∉ cs → AlikeWithin text fuel fuel' cs := by
  induction fuel with
  | zero =>
      intro cs fuel' _ hfuel _ _
      rw [List.length_eq_zero_iff.mp (Nat.le_zero.mp hfuel)]
      exact alikeWithin_nil _ _
  | succ fuel ih =>
      intro cs fuel' hsuffix hfuel hfuel' hreturn
      cases cs with
      | nil => exact alikeWithin_nil _ _
      | cons c rest =>
          have hbehind : rest <:+ text := (List.suffix_cons c rest).trans hsuffix
          rw [List.length_cons] at hfuel
          rw [List.mem_cons, not_or] at hreturn
          by_cases hbreak : c = '\n'
          · subst hbreak
            exact alikeWithin_break hfuel' fun left hleft =>
              ih rest left hbehind (by omega) hleft hreturn.2
          rw [joinLines_cons hbreak, List.length_cons] at hfuel'
          obtain ⟨left, rfl⟩ : ∃ left, fuel' = left + 1 := ⟨fuel' - 1, by omega⟩
          have hrest : ∀ last, last <:+ rest → joinLines last <:+ joinLines rest →
              AlikeWithin text fuel left last := by
            intro last hlast hjoined
            have hlength := hlast.length_le
            have hlength' := hjoined.length_le
            exact ih last left (hlast.trans hbehind) (by omega) (by omega)
              fun hmem => hreturn.2 (hlast.subset hmem)
          unfold AlikeWithin
          rw [joinLines_cons hbreak, tokensWithin, tokensWithin]
          split
          · exact hrest rest List.suffix_rfl List.suffix_rfl
          split
          · -- a comment ends with its line
            have hend : (!isLineEnd '\n') = false := by decide
            have hjoined := List.dropWhile_suffix (l := joinLines rest) fun x => !isLineEnd x
            rw [dropWhile_joinLines hend] at hjoined ⊢
            exact hrest _ (List.dropWhile_suffix _) hjoined
          · exact forall₂_of_lexeme hbreak hreturn.2 hsuffix hrest

theorem respaced_tokens {cs : List Char} (h : '\r' ∉ cs) :
    List.Forall₂ (Token.Respaced cs) (tokens cs) (tokens (joinLines cs)) :=
  alikeWithin cs.length cs (joinLines cs).length List.suffix_rfl le_rfl le_rfl h

theorem alike_lexemes {cs : List Char} (h : '\r' ∉ cs) :
    List.Forall₂ Grammar.Likeness.respaced.same ((tokens cs).map Token.lexeme)
      ((tokens (joinLines cs)).map Token.lexeme) := by
  rw [List.forall₂_map_left_iff, List.forall₂_map_right_iff]
  exact (respaced_tokens h).imp fun _ _ hrespaced => hrespaced.lexeme

end Scan

end QueryProjection
