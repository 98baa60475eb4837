import QueryProjection.Proofs.Document
import QueryProjection.Proofs.Expansion.WellFormed
import QueryProjection.Proofs.Json.Admissible

/-!
# Projections are data that JSON admits

Values of a query become plain data in two ways.  They are written there, and then whole numbers
that are too long have been refused and a field that is written twice has been written over; or
they are bound to variables.  So what is forwarded of the arguments of a field is admissible, if the
bindings are.  No argument that is forwarded has the name under which the selection of a field goes,
hence no level of a projection holds a name twice, and the whole projection is admissible
(`admissible_of_level`).
-/

namespace QueryProjection

/-! ### Conversion -/

section Conversion

variable {bindings : Option Bindings} {strict : Bool}
  (hbindings : ∀ table, bindings = some table → (Datum.object table).Admissible)

theorem admissible_convertInt {numeral : String} (hnumeral : Decimal.IsNumeral numeral.toList)
    {value : Datum} (h : (convertInt numeral).result = .ok value) : value.Admissible := by
  unfold convertInt at h
  dsimp only at h
  split at h
  · cases h
  · rename_i hlength
    cases h
    refine .atom ?_ rfl
    show (Decimal.intOfDigits numeral.toList).natAbs < 10 ^ Json.digitLimit
    exact (Decimal.natAbs_intOfDigits_lt hnumeral).trans_le
      (Nat.pow_le_pow_right (by decide) (Nat.not_lt.mp hlength))

theorem admissible_convertItems {items : List Literal}
    (hitems : ∀ item ∈ items, ∀ value, (item.convert bindings strict).result = .ok (some value) →
      value.Admissible) :
    ∀ {values : List Datum}, (Literal.convertItems bindings strict items).result = .ok values →
      ∀ value ∈ values, value.Admissible := by
  induction items with
  | nil =>
      intro values h
      cases h
      exact nofun
  | cons item rest ih =>
      intro values h
      rw [List.forall_mem_cons] at hitems
      rw [Literal.convertItems, Logged.result_bind] at h
      obtain ⟨value, hvalue, h⟩ := bind_eq_ok.mp h
      rw [Logged.result_bind] at h
      obtain ⟨others, hothers, h⟩ := bind_eq_ok.mp h
      cases value with
      | none =>
          cases h
          exact ih hitems.2 hothers
      | some value =>
          cases h
          exact List.forall_mem_cons.mpr ⟨hitems.1 value hvalue, ih hitems.2 hothers⟩

theorem admissible_convertFields {fields : List (String × Literal)}
    (hfields : ∀ field ∈ fields, ∀ value,
      (field.2.convert bindings strict).result = .ok (some value) → value.Admissible) :
    ∀ {before after : OrderedMap String Datum}, (Datum.object before).Admissible →
      (Literal.convertFields bindings strict before fields).result = .ok after →
      (Datum.object after).Admissible := by
  induction fields with
  | nil =>
      intro before after hbefore h
      cases h
      exact hbefore
  | cons field rest ih =>
      intro before after hbefore h
      obtain ⟨name, item⟩ := field
      rw [List.forall_mem_cons] at hfields
      rw [Literal.convertFields, Logged.result_bind] at h
      obtain ⟨value, hvalue, h⟩ := bind_eq_ok.mp h
      cases value with
      | none => exact ih hfields.2 hbefore h
      | some value => exact ih hfields.2 (hbefore.insert name (hfields.1 value hvalue)) h

include hbindings

theorem admissible_resolveVariable {name : String} {value : Datum}
    (h : (resolveVariable name bindings strict).result = .ok (some value)) : value.Admissible := by
  unfold resolveVariable at h
  split at h
  · rename_i found hfound
    cases h
    obtain ⟨table, htable, hget⟩ := Option.bind_eq_some_iff.mp hfound
    exact (hbindings table htable).field (name, value) (OrderedMap.mem_of_get? hget)
  · split at h
    · cases h
    · cases h

theorem admissible_convert (literal : Literal) : literal.Legible → ∀ value,
    (literal.convert bindings strict).result = .ok (some value) → value.Admissible := by
  induction literal using Literal.nestedInduction with
  | step literal ih =>
      intro hlegible value h
      have hnested : ∀ item ∈ literal.nested, ∀ value,
          (item.convert bindings strict).result = .ok (some value) → value.Admissible :=
        fun item hitem => ih item hitem (hlegible.nested item hitem)
      cases literal with
      | «variable» name =>
          rw [Literal.convert] at h
          exact admissible_resolveVariable hbindings h
      | int numeral =>
          rw [Literal.convert, Logged.result_map] at h
          obtain ⟨found, hfound, hsome⟩ := map_eq_ok.mp h
          cases hsome
          exact admissible_convertInt (hlegible numeral .self) hfound
      | float numeral | text text block | bool found | «enum» name | null =>
          rw [Literal.convert] at h
          cases h
          exact .atom trivial rfl
      | list items =>
          rw [Literal.convert, Logged.result_bind] at h
          obtain ⟨values, hvalues, h⟩ := bind_eq_ok.mp h
          cases h
          exact .list (admissible_convertItems hnested hvalues)
      | object fields =>
          rw [Literal.convert, Logged.result_bind] at h
          obtain ⟨after, hafter, h⟩ := bind_eq_ok.mp h
          cases h
          exact admissible_convertFields (List.forall_mem_map.mp hnested) .empty hafter
      | other kind =>
          rw [Literal.convert] at h
          split at h
          · cases h
          · cases h

theorem admissible_forwardOver {forwarded : List String} {arguments : List Argument}
    (harguments : ∀ argument ∈ arguments, argument.2.Legible)
    {before after : OrderedMap String Datum} (hbefore : (Datum.object before).Admissible)
    (h : (forwardOver bindings strict forwarded before arguments).result = .ok after) :
    (Datum.object after).Admissible := by
  rw [forwardOver_eq] at h
  refine admissible_convertFields (fun argument hargument => ?_) hbefore h
  exact admissible_convert hbindings argument.2
    (harguments argument (List.mem_filter.mp hargument).1)

end Conversion

/-! ### Levels -/

/-- Variables are bound to admissible values, and fragments are legible. -/
structure Context.Legible (context : Context) : Prop where
  bindings : ∀ table, context.bindings = some table → (Datum.object table).Admissible
  fragments : ∀ name fragment, context.definition? name = some fragment →
    Selection.Legible fragment.selections

namespace Expansion

variable {context : Context} (hcontext : context.Legible)

include hcontext

theorem legible_of_selects {selections : List Selection} {field : Field}
    (h : Selects context selections field) :
    Selection.Legible selections →
      field.Legible ∧ Selection.Legible (field.selectionSet.getD []) := by
  induction h with
  | @here aliasName name arguments directives selectionSet rest =>
      rintro (_ | ⟨-, hfield, hnested, -⟩)
      refine ⟨hfield _ rfl, ?_⟩
      cases selectionSet with
      | none => exact .nil
      | some selections => exact hnested
  | inline _ ih =>
      rintro (_ | ⟨-, -, hnested, -⟩)
      exact ih hnested
  | spread hdefined _ ih => exact fun _ => ih (hcontext.fragments _ _ hdefined)
  | later _ ih =>
      rintro (_ | ⟨-, -, -, hrest⟩)
      exact ih hrest

theorem admissible_of_forwards {field : Field} (hfield : field.Legible)
    {forwarded : OrderedMap String Datum} (h : Forwards context field forwarded) :
    (Datum.object forwarded).Admissible :=
  admissible_forwardOver hcontext.bindings hfield .empty h.result

mutual

theorem admissible_of_wellFormed {field : Field} (hfield : field.Legible)
    (hselections : Selection.Legible (field.selectionSet.getD [])) :
    ∀ {value : Datum}, WellFormed context field value → value.Admissible
  | _, .leaf _ => .atom trivial rfl
  | _, .whole _ _ _ => .atom trivial rfl
  | _, .arguments _ _ hforwards _ => admissible_of_forwards hcontext hfield hforwards
  | _, .selection hset _ _ hlevel hforwards => by
      rw [hset] at hselections
      have hforwarded := admissible_of_forwards hcontext hfield hforwards
      refine hforwarded.cons (fun hname => ?_) (admissible_of_level hselections hlevel)
      exact absurd (hforwards.names _ hname) (by decide)

theorem admissible_of_level {selections : List Selection}
    (hselections : Selection.Legible selections) :
    ∀ {entries : List (String × Datum)}, Level context selections entries →
      (Datum.object entries).Admissible
  | _, .nil => .empty
  | _, .cons hselects _ _ hnew hvalue hrest => by
      obtain ⟨hfield, hnested⟩ := legible_of_selects hcontext hselects hselections
      exact (admissible_of_level hselections hrest).cons hnew
        (admissible_of_wellFormed hfield hnested hvalue)

end

end Expansion

end QueryProjection
