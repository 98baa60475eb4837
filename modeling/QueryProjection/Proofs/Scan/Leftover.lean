import QueryProjection.Document.Scan
import QueryProjection.Fault

/-!
# What is left behind a lexeme

A lexeme is cut off the front of a text, so what is left is the end of it, and shorter.  This is
what makes the cutting of a text into lexemes end, and what a property of all characters of a text
is handed on by.
-/

namespace QueryProjection.Scan

/-! ### Numerals -/

theorem suffix_digits {cs run last : List Char} (h : digits cs = .ok (run, last)) :
    last <:+ cs.tail := by
  cases cs with
  | nil => cases h
  | cons c rest =>
      unfold digits at h
      by_cases hc : c.isDigit = true
      · rw [List.takeWhile_cons_of_pos hc, List.dropWhile_cons_of_pos hc] at h
        cases h
        exact List.dropWhile_suffix _
      · rw [List.takeWhile_cons_of_neg hc] at h
        cases h

theorem suffix_wholePart {cs run last : List Char} (h : wholePart cs = .ok (run, last)) :
    last <:+ cs.tail := by
  unfold wholePart at h
  split at h
  · split at h
    · split at h
      · cases h
      · cases h
        exact List.suffix_rfl
    · cases h
      exact List.suffix_rfl
  · exact suffix_digits h

theorem suffix_fraction {cs run last : List Char} (h : fraction cs = .ok (run, last)) :
    last <:+ cs := by
  unfold fraction at h
  split at h
  · obtain ⟨⟨digits, left⟩, hdigits, h⟩ := bind_eq_ok.mp h
    cases h
    exact ((suffix_digits hdigits).trans (List.tail_suffix _)).trans (List.suffix_cons _ _)
  · cases h
    exact List.suffix_rfl

theorem suffix_sign (cs : List Char) : (sign cs).2 <:+ cs := by
  unfold sign
  split
  · exact List.suffix_cons _ _
  · exact List.suffix_cons _ _
  · exact List.suffix_rfl

theorem suffix_exponent {cs run last : List Char} (h : exponent cs = .ok (run, last)) :
    last <:+ cs := by
  unfold exponent at h
  split at h
  · rename_i e rest
    split at h
    · obtain ⟨⟨digits, left⟩, hdigits, h⟩ := bind_eq_ok.mp h
      cases h
      exact (((suffix_digits hdigits).trans (List.tail_suffix _)).trans (suffix_sign rest)).trans
        (List.suffix_cons _ _)
    · cases h
      exact List.suffix_rfl
  · cases h
    exact List.suffix_rfl

theorem suffix_minus (cs : List Char) : (minus cs).2 <:+ cs := by
  unfold minus
  split
  · exact List.suffix_cons _ _
  · exact List.suffix_rfl

theorem suffix_tail_minus (c : Char) (rest : List Char) : (minus (c :: rest)).2.tail <:+ rest := by
  unfold minus
  split
  · rename_i heq
    cases heq
    exact List.tail_suffix _
  · exact List.suffix_rfl

/-- The parts of a numeral stand one behind the other, and make it a whole number or not. -/
theorem exists_of_numeral {cs last : List Char} {found : Lexeme}
    (h : numeral cs = .ok (found, last)) :
    ∃ whole afterWhole fractionPart afterFraction exponentPart : List Char,
      wholePart (minus cs).2 = .ok (whole, afterWhole) ∧
      fraction afterWhole = .ok (fractionPart, afterFraction) ∧
      exponent afterFraction = .ok (exponentPart, last) ∧
      found =
        (if fractionPart.isEmpty && exponentPart.isEmpty then
          .int (String.ofList ((minus cs).1 ++ whole ++ fractionPart ++ exponentPart))
        else .float (String.ofList ((minus cs).1 ++ whole ++ fractionPart ++ exponentPart))) := by
  obtain ⟨⟨whole, afterWhole⟩, hwhole, h⟩ := bind_eq_ok.mp h
  obtain ⟨⟨fractionPart, afterFraction⟩, hfraction, h⟩ := bind_eq_ok.mp h
  obtain ⟨⟨exponentPart, left⟩, hexponent, h⟩ := bind_eq_ok.mp h
  -- what follows the numeral decides only whether it is one
  have hwritten : (if fractionPart.isEmpty && exponentPart.isEmpty then
        Except.ok
          (.int (String.ofList ((minus cs).1 ++ whole ++ fractionPart ++ exponentPart)), left)
      else
        .ok (.float (String.ofList ((minus cs).1 ++ whole ++ fractionPart ++ exponentPart)), left) :
      Except Located (Lexeme × List Char)) = .ok (found, last) := by
    cases left with
    | nil => exact h
    | cons d left =>
        dsimp only at h
        split at h
        · cases h
        · exact h
  refine ⟨whole, afterWhole, fractionPart, afterFraction, exponentPart, hwhole, hfraction, ?_⟩
  split at hwritten
  · rename_i hwhole
    cases hwritten
    exact ⟨hexponent, (if_pos hwhole).symm⟩
  · rename_i hbroken
    cases hwritten
    exact ⟨hexponent, (if_neg hbroken).symm⟩

theorem suffix_numeral {c : Char} {rest last : List Char} {found : Lexeme}
    (h : numeral (c :: rest) = .ok (found, last)) : last <:+ rest := by
  obtain ⟨_, _, _, _, _, hwhole, hfraction, hexponent, -⟩ := exists_of_numeral h
  exact (suffix_exponent hexponent).trans <| (suffix_fraction hfraction).trans <|
    (suffix_wholePart hwhole).trans (suffix_tail_minus c rest)

/-! ### Texts -/

theorem suffix_quoted {cs : List Char} :
    ∀ {skip : Nat} {read last : List Char}, quoted skip cs = .ok (read, last) → last <:+ cs := by
  induction cs with
  | nil =>
      intro skip read last h
      cases skip <;> cases h
  | cons c rest ih =>
      intro skip read last h
      have hnext : ∀ {skip : Nat} {x : Char},
          (quoted skip rest).map (fun read => (x :: read.1, read.2)) = .ok (read, last) →
            last <:+ c :: rest := by
        intro skip x hread
        obtain ⟨⟨inner, left⟩, hinner, heq⟩ := map_eq_ok.mp hread
        cases heq
        exact (ih hinner).trans (List.suffix_cons _ _)
      cases skip with
      | succ skip => exact (ih h).trans (List.suffix_cons _ _)
      | zero =>
          rw [quoted] at h
          split at h
          · cases h
            exact List.suffix_cons _ _
          split at h
          · split at h
            · cases h
            · exact hnext h
          · split at h
            · cases h
            · exact hnext h

theorem block?_cons {c : Char} {rest : List Char}
    (hquotes : ∀ last, c = '"' → rest ≠ '"' :: '"' :: last)
    (hescaped : ∀ last, c = '\\' → rest ≠ '"' :: '"' :: '"' :: last) :
    block? (c :: rest) = (block? rest).map fun read => (c :: read.1, read.2) := by
  rw [block?]
  · exact hquotes
  · exact hescaped

/-- A block text is made of the characters in front of what is left. -/
theorem suffix_block? {cs : List Char} :
    ∀ {raw last : List Char}, block? cs = some (raw, last) →
      last <:+ cs ∧ ∀ c ∈ raw, c ∈ cs := by
  induction cs using block?.induct with
  | case1 =>
      intro raw last h
      cases h
  | case2 rest =>
      intro raw last h
      cases h
      exact ⟨List.suffix_append ['"', '"', '"'] rest, fun c hc => nomatch hc⟩
  | case3 rest ih =>
      intro raw last h
      rw [block?, Option.map_eq_some_iff] at h
      obtain ⟨⟨inner, left⟩, hinner, heq⟩ := h
      cases heq
      obtain ⟨hsuffix, hmem⟩ := ih hinner
      refine ⟨hsuffix.trans (List.suffix_append ['\\', '"', '"', '"'] rest), fun c hc => ?_⟩
      simp only [List.mem_cons] at hc ⊢
      rcases hc with hc | hc | hc | hc
      · exact Or.inr (Or.inl hc)
      · exact Or.inr (Or.inl hc)
      · exact Or.inr (Or.inl hc)
      · exact Or.inr (Or.inr (Or.inr (Or.inr (hmem c hc))))
  | case4 c rest hquotes hescaped ih =>
      intro raw last h
      rw [block?_cons hquotes hescaped, Option.map_eq_some_iff] at h
      obtain ⟨⟨inner, left⟩, hinner, heq⟩ := h
      cases heq
      obtain ⟨hsuffix, hmem⟩ := ih hinner
      refine ⟨hsuffix.trans (List.suffix_cons _ _), fun d hd => ?_⟩
      rcases List.mem_cons.mp hd with rfl | hd
      · exact List.mem_cons_self
      · exact List.mem_cons_of_mem _ (hmem d hd)

/-! ### Lexemes -/

theorem suffix_lexeme {c : Char} {rest last : List Char} {found : Lexeme}
    (h : lexeme c rest = .ok (found, last)) : last <:+ rest := by
  unfold lexeme at h
  split at h
  · cases h
    exact List.suffix_rfl
  split at h
  · split at h
    · cases h
      exact (List.suffix_cons _ _).trans (List.suffix_cons _ _)
    · cases h
  split at h
  · split at h
    · split at h
      · rename_i hblock
        cases h
        exact ((suffix_block? hblock).1.trans (List.suffix_cons _ _)).trans (List.suffix_cons _ _)
      · cases h
    · obtain ⟨⟨read, left⟩, hread, heq⟩ := map_eq_ok.mp h
      cases heq
      exact suffix_quoted hread
  split at h
  · exact suffix_numeral h
  split at h
  · cases h
    exact List.dropWhile_suffix _
  split at h
  · cases h
  · cases h

/-- A lexeme that is no numeral is a mark, a name or a text. -/
theorem numeral_of_lexeme {c : Char} {rest last : List Char} {found : Lexeme}
    (h : lexeme c rest = .ok (found, last)) :
    numeral (c :: rest) = .ok (found, last) ∨ (∃ mark, found = .mark mark) ∨
      (∃ value, found = .name value) ∨ ∃ value block, found = .text value block := by
  unfold lexeme at h
  split at h
  · cases h
    exact Or.inr (Or.inl ⟨_, rfl⟩)
  split at h
  · split at h
    · cases h
      exact Or.inr (Or.inl ⟨_, rfl⟩)
    · cases h
  split at h
  · split at h
    · split at h
      · cases h
        exact Or.inr (Or.inr (Or.inr ⟨_, _, rfl⟩))
      · cases h
    · obtain ⟨read, -, hread⟩ := map_eq_ok.mp h
      cases hread
      exact Or.inr (Or.inr (Or.inr ⟨_, _, rfl⟩))
  split at h
  · exact Or.inl h
  split at h
  · cases h
    exact Or.inr (Or.inr (Or.inl ⟨_, rfl⟩))
  split at h
  · cases h
  · cases h

/-- What is cut off is not invalid: what is invalid is reported instead. -/
theorem valid_lexeme {c : Char} {rest last : List Char} {found : Lexeme}
    (h : lexeme c rest = .ok (found, last)) (fault : LexicalFault) : found ≠ .invalid fault := by
  rcases numeral_of_lexeme h with hnumeral | ⟨_, rfl⟩ | ⟨_, rfl⟩ | ⟨_, _, rfl⟩
  · obtain ⟨_, _, _, _, _, -, -, -, rfl⟩ := exists_of_numeral hnumeral
    split
    · exact nofun
    · exact nofun
  · exact nofun
  · exact nofun
  · exact nofun

theorem tokensWithin_nil (fuel : Nat) : tokensWithin fuel [] = [] := by
  cases fuel with
  | zero => rfl
  | succ fuel => rfl

theorem tokensWithin_blank {c : Char} (hc : isIgnored c = true) (fuel : Nat) (rest : List Char) :
    tokensWithin (fuel + 1) (c :: rest) = tokensWithin fuel rest := by
  rw [tokensWithin, if_pos hc]

end QueryProjection.Scan
