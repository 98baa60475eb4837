import QueryProjection.Json.Reader
import QueryProjection.Json.Writer

/-!
# Texts between quotes

A text is written between quotes, and a character of it is written as it is, behind a backslash, or
by the numbers of its sixteen-bit units.  However it is written, the reader gives it back and goes
on behind it (`readText_escapeChar`), and so the text is read up to its closing quote
(`readText_quoted`).
-/

namespace QueryProjection

namespace Text

theorem hexValue?_hexDigit : ∀ n < 16, hexValue? (hexDigit n) = some n := by decide

theorem hexUnit?_hexUnit {n : Nat} (h : n < 0x10000) :
    hexUnit? (hexDigit (n / 4096 % 16)) (hexDigit (n / 256 % 16)) (hexDigit (n / 16 % 16))
      (hexDigit (n % 16)) = some n := by
  have hdigit (m : Nat) : hexValue? (hexDigit (m % 16)) = some (m % 16) :=
    hexValue?_hexDigit _ (Nat.mod_lt m (by decide))
  simp only [hexUnit?, hdigit, Option.bind_eq_bind, Option.bind_some, Option.pure_def,
    Option.some.injEq]
  omega

end Text

namespace Json

section Texts

variable {opening : Nat} {after : List Char}

theorem lowAfter?_of_not_high {unit : Nat} (h : Text.isHighSurrogate unit = false)
    (cs : List Char) : lowAfter? unit cs = .ok none := by
  unfold lowAfter?
  split
  · rw [h, Bool.false_and, if_neg Bool.false_ne_true]
  · rfl

theorem readText_unit {unit : Nat} (hunit : unit < 0x10000)
    (hhigh : Text.isHighSurrogate unit = false) (hafter : after ≠ []) :
    readText opening (unicodeEscape unit ++ after) =
      push (unitChar unit) (readText opening after) := by
  have hsome : after.isEmpty = false := List.isEmpty_eq_false_iff.mpr hafter
  simp only [unicodeEscape, Text.hexUnit, List.cons_append, List.nil_append]
  rw [readText]
  simp only [Char.reduceEq, if_true, if_false, hsome, Bool.false_eq_true,
    Text.hexUnit?_hexUnit hunit, lowAfter?_of_not_high hhigh]

theorem readText_pair {high low : Nat} (hhigh : Text.isHighSurrogate high = true)
    (hlow : Text.isLowSurrogate low = true) (hafter : after ≠ []) :
    readText opening (unicodeEscape high ++ (unicodeEscape low ++ after)) =
      push (Char.ofNat (Text.joinSurrogates high low)) (readText opening after) := by
  have hsome : after.isEmpty = false := List.isEmpty_eq_false_iff.mpr hafter
  have hunit : high < 0x10000 := by
    simp only [Text.isHighSurrogate, Bool.and_eq_true, decide_eq_true_eq] at hhigh
    omega
  have hunit' : low < 0x10000 := by
    simp only [Text.isLowSurrogate, Bool.and_eq_true, decide_eq_true_eq] at hlow
    omega
  simp only [unicodeEscape, Text.hexUnit, List.cons_append, List.nil_append]
  rw [readText]
  simp only [Char.reduceEq, if_true, if_false, List.isEmpty_cons, Bool.false_eq_true,
    Text.hexUnit?_hexUnit hunit, lowAfter?, hhigh, hsome, Bool.not_false, Bool.and_self,
    Text.hexUnit?_hexUnit hunit', hlow]

/-- A character behind a backslash. -/
theorem readText_short {e x : Char} (h : shortEscape? e = some x) :
    readText opening ('\\' :: e :: after) = push x (readText opening after) := by
  have hu : e ≠ 'u' := by
    rintro rfl
    cases h
  rw [readText.eq_def]
  simp only [Char.reduceEq, if_true, if_false, hu, h]

theorem readText_plain {c : Char} (hquote : c ≠ '"') (hbackslash : c ≠ '\\')
    (hcontrol : ¬ c.toNat < 0x20) :
    readText opening (c :: after) = push c (readText opening after) := by
  rw [readText.eq_def]
  simp only [hquote, hbackslash, hcontrol, if_false]

theorem readText_units (c : Char) (hafter : after ≠ []) :
    readText opening ((Text.unitsOf c).flatMap unicodeEscape ++ after) =
      push c (readText opening after) := by
  have hvalid : c.toNat < 0xD800 ∨ 0xDFFF < c.toNat ∧ c.toNat < 0x110000 := c.valid
  unfold Text.unitsOf
  dsimp only
  split
  · rename_i hplane
    have hhigh : Text.isHighSurrogate c.toNat = false := by
      simp only [Text.isHighSurrogate, Bool.and_eq_false_iff, decide_eq_false_iff_not]
      omega
    have hlow : Text.isLowSurrogate c.toNat = false := by
      simp only [Text.isLowSurrogate, Bool.and_eq_false_iff, decide_eq_false_iff_not]
      omega
    rw [List.flatMap_singleton, readText_unit hplane hhigh hafter, unitChar, hhigh, hlow,
      Bool.or_self, if_neg Bool.false_ne_true, Char.ofNat_toNat]
  · rename_i hplane
    have hhigh : Text.isHighSurrogate (0xD800 + (c.toNat - 0x10000) / 0x400) = true := by
      simp only [Text.isHighSurrogate, Bool.and_eq_true, decide_eq_true_eq]
      omega
    have hlow : Text.isLowSurrogate (0xDC00 + (c.toNat - 0x10000) % 0x400) = true := by
      simp only [Text.isLowSurrogate, Bool.and_eq_true, decide_eq_true_eq]
      omega
    have hjoin : Text.joinSurrogates (0xD800 + (c.toNat - 0x10000) / 0x400)
        (0xDC00 + (c.toNat - 0x10000) % 0x400) = c.toNat := by
      unfold Text.joinSurrogates
      omega
    rw [List.flatMap_cons, List.flatMap_singleton, List.append_assoc,
      readText_pair hhigh hlow hafter, hjoin, Char.ofNat_toNat]

theorem readText_escapeChar (c : Char) (hafter : after ≠ []) :
    readText opening (escapeChar c ++ after) = push c (readText opening after) := by
  unfold escapeChar
  iterate 7
    split
    · rename_i h
      rw [h]
      exact readText_short rfl
  split
  · rename_i hquote hbackslash _ _ _ _ _ hprintable
    refine readText_plain hquote hbackslash ?_
    simp only [Bool.and_eq_true, decide_eq_true_eq] at hprintable
    exact Nat.not_lt.mpr hprintable.1
  · exact readText_units c hafter

/-- A text is read back up to its closing quote. -/
theorem readText_quoted (cs last : List Char) :
    readText opening (cs.flatMap escapeChar ++ '"' :: last) = .ok (cs, last) := by
  induction cs with
  | nil =>
      rw [List.flatMap_nil, List.nil_append, readText.eq_def]
      rfl
  | cons c cs ih =>
      have hafter : cs.flatMap escapeChar ++ '"' :: last ≠ [] :=
        List.append_ne_nil_of_right_ne_nil _ (List.cons_ne_nil _ _)
      rw [List.flatMap_cons, List.append_assoc, readText_escapeChar c hafter, ih]
      rfl

end Texts

end Json

end QueryProjection
