import QueryProjection.Source.Datamodel
import QueryProjection.Source.Mapped
import QueryProjection.Source.Schema

/-!
# What sources never say

A source may fail in its own ways, but it knows nothing of selections and fragments.  In
particular it never says that an expansion has no end, so that where a compilation fails in
this way, the fragments are to blame.  This holds of every source that models are read from
(`Datamodel.unaware_source` and its like), and it stays true when a source is amended.
-/

namespace QueryProjection

def Fault.Endless : Fault → Prop
  | .endlessExpansion _ _ => True
  | _ => False

def Endless {α : Type} (result : Except Fault α) : Prop :=
  ∃ fault, result = .error fault ∧ fault.Endless

section Results

variable {α β : Type}

theorem not_endless_ok (value : α) : ¬ Endless (.ok value : Except Fault α) := by
  rintro ⟨_, h, _⟩
  cases h

theorem endless_error {fault : Fault} :
    Endless (.error fault : Except Fault α) ↔ fault.Endless := by
  constructor
  · rintro ⟨_, h, hendless⟩
    cases h
    exact hendless
  · exact fun h => ⟨fault, rfl, h⟩

theorem endless_bind {first : Except Fault α} {second : α → Except Fault β} :
    Endless (first >>= second) ↔ Endless first ∨ ∃ a, first = .ok a ∧ Endless (second a) := by
  constructor
  · rintro ⟨fault, h, hendless⟩
    rcases bind_eq_error.mp h with h | ⟨a, ha, h⟩
    · exact Or.inl ⟨fault, h, hendless⟩
    · exact Or.inr ⟨a, ha, fault, h, hendless⟩
  · rintro (⟨fault, h, hendless⟩ | ⟨a, ha, fault, h, hendless⟩)
    · exact ⟨fault, bind_eq_error.mpr (Or.inl h), hendless⟩
    · exact ⟨fault, bind_eq_error.mpr (Or.inr ⟨a, ha, h⟩), hendless⟩

theorem not_endless_bind {first : Except Fault α} {second : α → Except Fault β}
    (h : ¬ Endless first) (hsecond : ∀ a, ¬ Endless (second a)) :
    ¬ Endless (first >>= second) := by
  rw [endless_bind]
  rintro (hfirst | ⟨a, _, ha⟩)
  · exact h hfirst
  · exact hsecond a ha

theorem error_of_not_endless_bind {first : Except Fault α} {second : α → Except Fault β}
    {fault : Fault} (h : ¬ Endless first → first = .error fault)
    (hnot : ¬ Endless (first >>= second)) : (first >>= second) = .error fault := by
  rw [endless_bind, not_or] at hnot
  rw [h hnot.1]
  rfl

theorem endless_map {f : α → β} {result : Except Fault α} :
    Endless (result.map f) ↔ Endless result := by
  cases result with
  | ok value => exact iff_of_false (not_endless_ok _) (not_endless_ok value)
  | error fault => exact endless_error.trans endless_error.symm

end Results

def Source.Unaware (source : Source) : Prop :=
  ∀ moment type fault, source.answer moment type = .error fault → ¬ fault.Endless

theorem Source.unaware_ofLookup (names : List String) (lookup : String → Option ModelFields)
    (listed : ∀ name fields, lookup name = some fields → name ∈ names) :
    (Source.ofLookup names lookup listed).Unaware := by
  intro moment type fault h
  cases type <;> cases h

theorem Source.unaware_ofTable (table : OrderedMap String ModelFields) :
    (Source.ofTable table).Unaware :=
  Source.unaware_ofLookup _ _ _

theorem Source.Unaware.amend {source : Source} (h : source.Unaware) (type : Key)
    (fields : Option ModelFields) : (source.amend type fields).Unaware := by
  intro moment asked fault hanswer
  simp only [Source.amend] at hanswer
  split at hanswer
  · cases hanswer
  · exact h moment asked fault hanswer

theorem Schema.unaware_source (document : Document) : (Schema.source document).Unaware :=
  Source.unaware_ofLookup _ _ _

theorem Mapped.Mapping.unaware_source (mapping : Mapped.Mapping) : mapping.source.Unaware :=
  Source.unaware_ofLookup _ _ _

/-! ### Datamodel documents -/

namespace Datamodel

theorem not_endless_required (d : Datum) (key : String) : ¬ Endless (required d key) := by
  unfold required
  split
  · split
    · exact not_endless_ok _
    · exact fun h => endless_error.mp h
  · exact fun h => endless_error.mp h

theorem not_endless_contents (d : Datum) : ¬ Endless (contents d) := by
  unfold contents
  split
  · exact not_endless_ok _
  · exact not_endless_ok _
  · exact not_endless_ok _
  · exact fun h => endless_error.mp h

theorem not_endless_addScalar (fields : ModelFields) (name : Datum) :
    ¬ Endless (addScalar fields name) := by
  unfold addScalar
  split
  · exact fun h => endless_error.mp h
  · exact not_endless_ok _
  · exact not_endless_ok _

theorem not_endless_addRelation (fields : ModelFields) (name : Datum) (target : RelationTarget) :
    ¬ Endless (addRelation fields name target) := by
  unfold addRelation
  split
  · exact fun h => endless_error.mp h
  · exact not_endless_ok _
  · exact not_endless_ok _

theorem not_endless_addField (fields : ModelFields) (field : Datum) :
    ¬ Endless (addField fields field) := by
  unfold addField
  refine not_endless_bind (not_endless_required field "kind") fun kind => ?_
  split
  · refine not_endless_bind (not_endless_required field "type") fun type => ?_
    exact not_endless_bind (not_endless_required field "name") fun name =>
      not_endless_addRelation fields name _
  · exact not_endless_bind (not_endless_required field "name") fun name =>
      not_endless_addScalar fields name

theorem not_endless_fieldsOver (fields : List Datum) :
    ∀ before, ¬ Endless (fieldsOver before fields) := by
  induction fields with
  | nil => exact fun before => not_endless_ok before
  | cons field rest ih =>
      intro before
      rw [fieldsOver]
      exact not_endless_bind (not_endless_addField before field) ih

theorem not_endless_fieldsOf (model : Datum) : ¬ Endless (fieldsOf model) := by
  unfold fieldsOf
  refine not_endless_bind (not_endless_required model "fields") fun found => ?_
  exact not_endless_bind (not_endless_contents found) fun fields =>
    not_endless_fieldsOver fields _

theorem not_endless_describe (type : Key) (models : List Datum) :
    ¬ Endless (describe type models) := by
  induction models with
  | nil => exact not_endless_ok none
  | cons model rest ih =>
      unfold describe
      have hname := not_endless_required model "name"
      split
      · rename_i fault hfault
        rw [hfault] at hname
        exact fun h => hname (endless_error.mpr (endless_error.mp h))
      · split
        · exact fun h => not_endless_fieldsOf model (endless_map.mp h)
        · exact ih

theorem unaware_source (models : Datum) : (source models).Unaware := by
  intro moment type fault h hendless
  simp only [source] at h
  split at h
  · rename_i items _
    exact not_endless_describe type items ⟨fault, h, hendless⟩
  · rename_i found hfound
    cases h
    exact not_endless_contents models ⟨fault, hfound, hendless⟩

end Datamodel

end QueryProjection
