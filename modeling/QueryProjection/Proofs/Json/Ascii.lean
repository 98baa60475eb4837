import QueryProjection.Json.Writer
import QueryProjection.Proofs.Json.Admissible

/-!
# JSON text is plain ASCII

Other characters stand in a JSON text by their numbers only.  Where no floating-point number is
written, all characters of the text are ASCII (`isAscii_writeValue`).
-/

namespace QueryProjection.Json

def IsAscii (cs : List Char) : Prop := ∀ c ∈ cs, c.toNat < 0x80

instance (cs : List Char) : Decidable (IsAscii cs) :=
  decidable_of_iff (cs.all fun c => c.toNat < 0x80) (by simp [IsAscii])

theorem IsAscii.append {first second : List Char} (hfirst : IsAscii first)
    (hsecond : IsAscii second) : IsAscii (first ++ second) := by
  intro c hc
  rcases List.mem_append.mp hc with hc | hc
  · exact hfirst c hc
  · exact hsecond c hc

theorem IsAscii.cons {c : Char} {rest : List Char} (hc : c.toNat < 0x80) (hrest : IsAscii rest) :
    IsAscii (c :: rest) :=
  List.forall_mem_cons.mpr ⟨hc, hrest⟩

theorem isAscii_unicodeEscape (unit : Nat) : IsAscii (unicodeEscape unit) := by
  have hdigit : ∀ n < 16, (Text.hexDigit n).toNat < 0x80 := by decide
  have hlow (n : Nat) : (Text.hexDigit (n % 16)).toNat < 0x80 :=
    hdigit _ (Nat.mod_lt n (by decide))
  exact .cons (by decide) (.cons (by decide) (.cons (hlow _) (.cons (hlow _) (.cons (hlow _)
    (.cons (hlow _) nofun)))))

theorem isAscii_escapeChar (c : Char) : IsAscii (escapeChar c) := by
  unfold escapeChar
  iterate 7
    split
    · exact .cons (by decide) (.cons (by decide) nofun)
  split
  · rename_i hprintable
    simp only [Bool.and_eq_true, decide_eq_true_eq] at hprintable
    have htilde : c.toNat ≤ 126 := hprintable.2
    exact .cons (by omega) nofun
  · intro d hd
    obtain ⟨unit, -, hunit⟩ := List.mem_flatMap.mp hd
    exact isAscii_unicodeEscape unit d hunit

theorem isAscii_quote (value : String) : IsAscii (quote value) := by
  refine .append (.cons (by decide) fun d hd => ?_) (.cons (by decide) nofun)
  obtain ⟨c, -, hc⟩ := List.mem_flatMap.mp hd
  exact isAscii_escapeChar c d hc

theorem isAscii_newline (level : Nat) : IsAscii (newline level) := by
  refine .cons (by decide) fun c hc => ?_
  rw [List.eq_of_mem_replicate hc]
  decide

theorem isAscii_toString (value : Int) : IsAscii (toString value).toList := by
  rw [Decimal.toList_toString]
  refine .append ?_ fun c hc => ?_
  · rcases Decimal.signOf_cases value with hsign | hsign
    · rw [hsign]
      exact nofun
    · rw [hsign]
      exact .cons (by decide) nofun
  · have hdigit := Decimal.isDigit_toDigits _ c hc
    simp only [Char.isDigit, Bool.and_eq_true, decide_eq_true_eq] at hdigit
    have hnine : c.toNat ≤ 57 := hdigit.2
    omega

theorem isAscii_writeItems {level : Nat} {items : List Datum}
    (h : ∀ item ∈ items, IsAscii (writeValue level item)) : IsAscii (writeItems level items) := by
  induction items with
  | nil => exact nofun
  | cons item items ih =>
      rw [List.forall_mem_cons] at h
      rw [writeItems]
      exact .append (.append (.cons (by decide) (isAscii_newline level)) h.1) (ih h.2)

theorem isAscii_writeFields {level : Nat} {fields : List (String × Datum)}
    (h : ∀ field ∈ fields, IsAscii (writeValue level field.2)) :
    IsAscii (writeFields level fields) := by
  induction fields with
  | nil => exact nofun
  | cons field fields ih =>
      obtain ⟨name, value⟩ := field
      rw [List.forall_mem_cons] at h
      rw [writeFields]
      refine .append (.append (.append (.append (.cons (by decide) (isAscii_newline level)) ?_) ?_)
        h.1) (ih h.2)
      · exact isAscii_quote name
      · exact .cons (by decide) (.cons (by decide) nofun)

theorem isAscii_writeValue {datum : Datum} (hexact : datum.Exact) :
    ∀ level, IsAscii (writeValue level datum) := by
  induction hexact with
  | @intro datum hself _ ih =>
      intro level
      cases datum with
      | null =>
          show IsAscii ['n', 'u', 'l', 'l']
          decide
      | bool value =>
          cases value with
          | true =>
              show IsAscii ['t', 'r', 'u', 'e']
              decide
          | false =>
              show IsAscii ['f', 'a', 'l', 's', 'e']
              decide
      | int value => exact isAscii_toString value
      | float value => exact absurd rfl (hself value)
      | text value => exact isAscii_quote value
      | list items =>
          cases items with
          | nil =>
              show IsAscii ['[', ']']
              decide
          | cons item items =>
              have hitems : ∀ other ∈ item :: items, IsAscii (writeValue (level + 1) other) :=
                fun other hother => ih other hother (level + 1)
              rw [List.forall_mem_cons] at hitems
              rw [writeValue]
              refine .append (.append (.append (.append ?_ hitems.1) ?_) ?_) ?_
              · exact .cons (by decide) (isAscii_newline _)
              · exact isAscii_writeItems hitems.2
              · exact isAscii_newline level
              · exact .cons (by decide) nofun
      | object fields =>
          have hfields : ∀ field ∈ fields, IsAscii (writeValue (level + 1) field.2) :=
            fun field hfield => ih field.2 (List.mem_map_of_mem hfield) (level + 1)
          cases fields with
          | nil =>
              show IsAscii ['{', '\x7d']
              decide
          | cons field fields =>
              obtain ⟨name, value⟩ := field
              rw [List.forall_mem_cons] at hfields
              rw [writeValue]
              refine .append (.append (.append (.append (.append (.append ?_ ?_) ?_) hfields.1) ?_)
                ?_) ?_
              · exact .cons (by decide) (isAscii_newline _)
              · exact isAscii_quote name
              · exact .cons (by decide) (.cons (by decide) nofun)
              · exact isAscii_writeFields hfields.2
              · exact isAscii_newline level
              · exact .cons (by decide) nofun

end QueryProjection.Json
