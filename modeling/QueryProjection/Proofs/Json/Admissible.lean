import Mathlib.Data.List.TakeWhile
import QueryProjection.Fault
import QueryProjection.Json.Reader
import QueryProjection.Proofs.Decimal
import QueryProjection.Proofs.Merging

/-!
# Data that JSON admits

Not every value can be written as JSON and read again.  A whole number must not be too long, and
an object must not name a field twice.  A value is `Admissible` if this is so of it and of all that
stands in it, and what is read from JSON always is (`admissible_of_read`).

Floating-point numbers are a matter of their own.  A value that has none is `Exact`.
-/

namespace QueryProjection

namespace Datum

def parts : Datum → List Datum
  | .list items => items
  | .object fields => fields.map Prod.snd
  | .null | .bool _ | .int _ | .float _ | .text _ => []

/-- Something is so of a value and of all that stands in it, at any depth. -/
inductive Throughout (sort : Datum → Prop) : Datum → Prop where
  | intro {datum : Datum} (hself : sort datum)
      (hparts : ∀ part ∈ datum.parts, Throughout sort part) : Throughout sort datum

theorem Throughout.atom {sort : Datum → Prop} {datum : Datum} (hself : sort datum)
    (hparts : datum.parts = []) : datum.Throughout sort := by
  refine .intro hself fun part hpart => ?_
  rw [hparts] at hpart
  cases hpart

theorem Throughout.object {sort : Datum → Prop} {fields : OrderedMap String Datum}
    (hself : sort (.object fields)) (h : ∀ field ∈ fields, field.2.Throughout sort) :
    (Datum.object fields).Throughout sort :=
  .intro hself (List.forall_mem_map.mpr h)

/-- A whole number is not too long, and an object names each of its fields once. -/
def Fits : Datum → Prop
  | .int value => value.natAbs < 10 ^ Json.digitLimit
  | .object fields => (OrderedMap.keys fields).Nodup
  | .null | .bool _ | .float _ | .text _ | .list _ => True

def Admissible (datum : Datum) : Prop := datum.Throughout Fits

def Exact (datum : Datum) : Prop := datum.Throughout fun part => ∀ value, part ≠ .float value

namespace Admissible

variable {fields : OrderedMap String Datum}

theorem atom {datum : Datum} (hself : datum.Fits) (hparts : datum.parts = []) :
    datum.Admissible :=
  Throughout.atom hself hparts

theorem list {items : List Datum} (h : ∀ item ∈ items, item.Admissible) :
    (Datum.list items).Admissible :=
  .intro trivial h

theorem object (hnames : (OrderedMap.keys fields).Nodup)
    (h : ∀ field ∈ fields, field.2.Admissible) : (Datum.object fields).Admissible :=
  Throughout.object hnames h

theorem empty : (Datum.object []).Admissible := object List.nodup_nil nofun

theorem names (h : (Datum.object fields).Admissible) : (OrderedMap.keys fields).Nodup := by
  cases h with
  | intro hself _ => exact hself

theorem field (h : (Datum.object fields).Admissible) : ∀ field ∈ fields, field.2.Admissible := by
  cases h with
  | intro _ hparts => exact List.forall_mem_map.mp hparts

theorem cons {name : String} {value : Datum} (h : (Datum.object fields).Admissible)
    (hnew : name ∉ OrderedMap.keys fields) (hvalue : value.Admissible) :
    (Datum.object ((name, value) :: fields)).Admissible :=
  object (List.nodup_cons.mpr ⟨hnew, h.names⟩) (List.forall_mem_cons.mpr ⟨hvalue, h.field⟩)

theorem insert (h : (Datum.object fields).Admissible) (name : String) {value : Datum}
    (hvalue : value.Admissible) : (Datum.object (OrderedMap.insert fields name value)).Admissible := by
  have hnames := OrderedMap.nodup_keys_insert h.names name value
  refine object hnames fun entry hentry => ?_
  rcases OrderedMap.get?_insert_eq_some (OrderedMap.get?_of_mem hnames hentry) with
    ⟨-, hnew⟩ | hold
  · rw [hnew]
    exact hvalue
  · exact h.field entry (OrderedMap.mem_of_get? hold)

theorem merge (h : (Datum.object fields).Admissible) {update : List (String × Datum)}
    (hupdate : ∀ entry ∈ update, entry.2.Admissible) :
    (Datum.object (OrderedMap.merge fields update)).Admissible := by
  induction update generalizing fields with
  | nil => exact h
  | cons entry rest ih =>
      rw [List.forall_mem_cons] at hupdate
      exact ih (h.insert entry.1 hupdate.1) hupdate.2

end Admissible

end Datum

namespace Json

/-! ### What is read is admissible -/

theorem isDigit_wholePart (cs : List Char) : ∀ c ∈ (wholePart cs).1, c.isDigit = true := by
  unfold wholePart
  split
  · exact List.forall_mem_singleton.mpr rfl
  · exact fun c hc => List.mem_takeWhile_imp hc

theorem admissible_readNumber {cs rest : List Char} {value : Datum}
    (h : readNumber cs = .ok (value, rest)) : value.Admissible := by
  unfold readNumber at h
  split at h
  rename_i sign unsigned hsigned
  have hsign : sign = [] ∨ sign = ['-'] := by
    split at hsigned
    · cases hsigned
      exact Or.inr rfl
    · cases hsigned
      exact Or.inl rfl
  have hdigits := isDigit_wholePart unsigned
  generalize wholePart unsigned = read at h hdigits
  obtain ⟨whole, afterWhole⟩ := read
  dsimp only at h
  split at h
  · cases h
  split at h
  · split at h
    · cases h
    · rename_i hlength
      cases h
      refine .atom ?_ rfl
      show (Decimal.intOfDigits (sign ++ whole)).natAbs < 10 ^ digitLimit
      rw [Decimal.natAbs_intOfDigits hsign hdigits]
      exact (Decimal.natOfDigits_lt hdigits).trans_le
        (Nat.pow_le_pow_right (by decide) (Nat.not_lt.mp hlength))
  · cases h
    exact .atom trivial rfl

theorem admissible_words : ∀ entry ∈ words, entry.2.Admissible := by
  simp only [words, List.forall_mem_cons]
  refine ⟨?_, ?_, ?_, ?_, ?_, ?_, nofun⟩
  all_goals exact .atom trivial rfl

theorem admissible_readAtom {cs rest : List Char} {value : Datum}
    (h : readAtom cs = .ok (value, rest)) : value.Admissible := by
  unfold readAtom at h
  split at h
  · rename_i found hfound
    cases h
    obtain ⟨entry, hentry, hafter⟩ := List.exists_of_findSome?_eq_some hfound
    obtain ⟨_, -, hvalue⟩ := Option.map_eq_some_iff.mp hafter
    cases hvalue
    exact admissible_words entry hentry
  · exact admissible_readNumber h

structure ReadsAdmissible (fuel : Nat) : Prop where
  value : ∀ {cs value rest}, readValue fuel cs = .ok (value, rest) → value.Admissible
  items : ∀ {cs items rest}, readItems fuel cs = .ok (items, rest) → ∀ item ∈ items,
    item.Admissible
  fields : ∀ {before cs fields rest}, (Datum.object before).Admissible →
    readFields fuel before cs = .ok (fields, rest) → (Datum.object fields).Admissible

namespace ReadsAdmissible

variable {fuel : Nat} (h : ReadsAdmissible fuel)

include h

theorem value_succ {cs rest : List Char} {value : Datum}
    (hread : readValue (fuel + 1) cs = .ok (value, rest)) : value.Admissible := by
  cases cs with
  | nil => cases hread
  | cons c cs =>
      rw [readValue] at hread
      split at hread
      · obtain ⟨read, -, hread⟩ := bind_eq_ok.mp hread
        cases hread
        exact .atom trivial rfl
      split at hread
      · split at hread
        · cases hread
          exact .empty
        · obtain ⟨⟨fields, last⟩, hfields, hread⟩ := bind_eq_ok.mp hread
          cases hread
          exact h.fields .empty hfields
      split at hread
      · split at hread
        · cases hread
          exact .list nofun
        · obtain ⟨⟨items, last⟩, hitems, hread⟩ := bind_eq_ok.mp hread
          cases hread
          exact .list (h.items hitems)
      · exact admissible_readAtom hread

theorem items_succ {cs rest : List Char} {items : List Datum}
    (hread : readItems (fuel + 1) cs = .ok (items, rest)) : ∀ item ∈ items, item.Admissible := by
  rw [readItems] at hread
  obtain ⟨⟨item, afterItem⟩, hitem, hread⟩ := bind_eq_ok.mp hread
  have hfirst := h.value hitem
  dsimp only at hread
  split at hread
  · cases hread
    exact List.forall_mem_cons.mpr ⟨hfirst, nofun⟩
  · obtain ⟨⟨others, last⟩, hothers, hread⟩ := bind_eq_ok.mp hread
    cases hread
    exact List.forall_mem_cons.mpr ⟨hfirst, h.items hothers⟩
  · cases hread

theorem fields_succ {before fields : OrderedMap String Datum} {cs rest : List Char}
    (hbefore : (Datum.object before).Admissible)
    (hread : readFields (fuel + 1) before cs = .ok (fields, rest)) :
    (Datum.object fields).Admissible := by
  rw [readFields.eq_def] at hread
  dsimp only at hread
  split at hread
  · obtain ⟨⟨name, afterName⟩, -, hread⟩ := bind_eq_ok.mp hread
    dsimp only at hread
    split at hread
    · obtain ⟨⟨value, afterValue⟩, hvalue, hread⟩ := bind_eq_ok.mp hread
      have hwritten := hbefore.insert (String.ofList name) (h.value hvalue)
      dsimp only at hread
      split at hread
      · cases hread
        exact hwritten
      · exact h.fields hwritten hread
      · cases hread
    · cases hread
  · cases hread

end ReadsAdmissible

theorem readsAdmissible (fuel : Nat) : ReadsAdmissible fuel := by
  induction fuel with
  | zero => exact ⟨nofun, nofun, nofun⟩
  | succ fuel ih => exact ⟨ih.value_succ, ih.items_succ, ih.fields_succ⟩

theorem admissible_of_read {text : List Char} {value : Datum} (h : read text = .ok value) :
    value.Admissible := by
  unfold read at h
  split at h
  · cases h
  · obtain ⟨⟨found, rest⟩, hfound, h⟩ := bind_eq_ok.mp h
    dsimp only at h
    split at h
    · cases h
      exact (readsAdmissible _).value hfound
    · cases h

end Json

end QueryProjection
