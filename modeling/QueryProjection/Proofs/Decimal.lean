import Mathlib.Data.List.Induction
import Mathlib.Data.Nat.Digits.Defs
import QueryProjection.Decimal.Basic

/-!
# Whole numbers and their numerals

A numeral of at most so many digits stands for a number below that power of ten, and the numeral
under which a whole number is written stands for that number.
-/

namespace QueryProjection.Decimal

/-- Digits, with a minus sign in front or without one. -/
def IsNumeral (cs : List Char) : Prop :=
  ∃ sign digits, cs = sign ++ digits ∧ (sign = [] ∨ sign = ['-']) ∧
    ∀ c ∈ digits, c.isDigit = true

theorem digitValue_lt {c : Char} (h : c.isDigit = true) : digitValue c < 10 := by
  simp only [Char.isDigit, Bool.and_eq_true, decide_eq_true_eq] at h
  have hnine : c.toNat ≤ 57 := h.2
  have hzero : '0'.toNat = 48 := rfl
  unfold digitValue
  omega

theorem natOfDigits_append_singleton (digits : List Char) (c : Char) :
    natOfDigits (digits ++ [c]) = 10 * natOfDigits digits + digitValue c := by
  rw [natOfDigits, List.foldl_append]
  rfl

theorem natOfDigits_lt {digits : List Char} (h : ∀ c ∈ digits, c.isDigit = true) :
    natOfDigits digits < 10 ^ digits.length := by
  induction digits using List.reverseRecOn with
  | nil => exact Nat.one_pos
  | append_singleton digits c ih =>
      have hdigits := ih fun d hd => h d (List.mem_append_left _ hd)
      have hlast := digitValue_lt (h c (List.mem_append_right _ (List.mem_singleton_self c)))
      rw [natOfDigits_append_singleton, List.length_append, List.length_singleton, pow_succ]
      omega

/-- A digit is no sign. -/
theorem intOfDigits_digits {digits : List Char} (h : ∀ c ∈ digits, c.isDigit = true) :
    intOfDigits digits = natOfDigits digits := by
  unfold intOfDigits
  split
  · cases h '-' List.mem_cons_self
  · cases h '+' List.mem_cons_self
  · rfl

theorem natAbs_intOfDigits {sign digits : List Char} (hsign : sign = [] ∨ sign = ['-'])
    (h : ∀ c ∈ digits, c.isDigit = true) :
    (intOfDigits (sign ++ digits)).natAbs = natOfDigits digits := by
  rcases hsign with rfl | rfl
  · rw [List.nil_append, intOfDigits_digits h, Int.natAbs_natCast]
  · show (-(natOfDigits digits : Int)).natAbs = _
    rw [Int.natAbs_neg, Int.natAbs_natCast]

theorem natAbs_intOfDigits_lt {cs : List Char} (h : IsNumeral cs) :
    (intOfDigits cs).natAbs < 10 ^ (cs.filter Char.isDigit).length := by
  obtain ⟨sign, digits, rfl, hsign, hdigits⟩ := h
  have hfilter : (sign ++ digits).filter Char.isDigit = digits := by
    rw [List.filter_append, List.filter_eq_self.mpr hdigits]
    rcases hsign with rfl | rfl
    · rfl
    · rfl
  rw [natAbs_intOfDigits hsign hdigits, hfilter]
  exact natOfDigits_lt hdigits

/-! ### The numeral of a number -/

theorem isDigit_toDigits (n : Nat) : ∀ c ∈ Nat.toDigits 10 n, c.isDigit = true :=
  fun _ hc => Nat.isDigit_of_mem_toDigits (by decide) (by decide) hc

theorem natOfDigits_toDigits (n : Nat) : natOfDigits (Nat.toDigits 10 n) = n := by
  have h := Nat.ofDigitChars_ten_toDigits (n := n)
  rw [Nat.ofDigitChars_eq_foldl] at h
  exact h

/-- A number other than zero is written without a zero in front. -/
theorem head?_toDigits (n : Nat) (h : n ≠ 0) : (Nat.toDigits 10 n).head? ≠ some '0' := by
  induction n using Nat.strong_induction_on with
  | _ n ih =>
      by_cases hsmall : n < 10
      · have hdigit : ∀ m < 10, m ≠ 0 → some (Nat.digitChar m) ≠ some '0' := by decide
        rw [Nat.toDigits_of_lt_base hsmall, List.head?_cons]
        exact hdigit n hsmall h
      · have hdigits := ih (n / 10) (by omega) (by omega)
        have hsome : Nat.toDigits 10 (n / 10) ≠ [] := Nat.toDigits_ne_nil
        obtain ⟨c, rest, hcons⟩ := List.exists_cons_of_ne_nil hsome
        rw [Nat.toDigits_of_base_le (by decide) (by omega), hcons]
        rwa [hcons] at hdigits

def signOf (value : Int) : List Char := if value < 0 then ['-'] else []

theorem signOf_cases (value : Int) : signOf value = [] ∨ signOf value = ['-'] := by
  unfold signOf
  split
  · exact Or.inr rfl
  · exact Or.inl rfl

theorem toList_toString (value : Int) :
    (toString value).toList = signOf value ++ Nat.toDigits 10 value.natAbs := by
  rw [Int.toString_eq_repr, Int.repr_eq_if]
  by_cases h : 0 ≤ value
  · rw [if_pos h, signOf, if_neg (by omega), Nat.repr_eq_ofList_toDigits, String.toList_ofList,
      List.nil_append, ← Int.toNat_of_nonneg h, Int.natAbs_natCast, Int.toNat_natCast]
  · have hneg : (-value).toNat = value.natAbs := by omega
    rw [if_neg h, signOf, if_pos (by omega), Nat.repr_eq_ofList_toDigits, String.toList_append,
      String.toList_ofList, hneg, String.toList_ofList]

theorem intOfDigits_signOf (value : Int) :
    intOfDigits (signOf value ++ Nat.toDigits 10 value.natAbs) = value := by
  unfold signOf
  split
  · show (-(natOfDigits (Nat.toDigits 10 value.natAbs) : Int)) = value
    rw [natOfDigits_toDigits]
    omega
  · rw [List.nil_append, intOfDigits_digits (isDigit_toDigits _), natOfDigits_toDigits]
    omega

end QueryProjection.Decimal
