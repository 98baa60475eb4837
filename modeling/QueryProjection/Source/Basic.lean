import QueryProjection.Fault
import QueryProjection.Model

/-!
# Where model fields come from

A `Source` is asked for the fields of a type by name and answers with the fields, with
nothing for a name that is no model, or with a fault of its own.  It may change its mind:
the answer depends on the moment, counted by the questions it was asked before.  What it
may not do is to go on inventing models, so it lists the types that it may ever describe.
A source does not see how a type is written, but only the key of its name.
-/

namespace QueryProjection

/-- The origin of model fields. -/
structure Source where
  /-- every type that is ever described is among these -/
  types : List Key
  /-- the answer to a question about a type, after so many earlier questions -/
  answer : Nat → Key → Except Fault (Option ModelFields)
  listed : ∀ moment type fields, answer moment type = .ok (some fields) → type ∈ types

namespace Source

/-- The answers do not depend on the moment. -/
def Steady (source : Source) : Prop :=
  ∀ moment moment' type, source.answer moment type = source.answer moment' type

/-- The source of a table, given by its look-up: every type that is looked up with success
is a text, and one of those listed. -/
def ofLookup (names : List String) (lookup : String → Option ModelFields)
    (listed : ∀ name fields, lookup name = some fields → name ∈ names) : Source where
  types := names.map Key.text
  answer _ type :=
    match type with
    | .text name => .ok (lookup name)
    | _ => .ok none
  listed := by
    intro _ type fields h
    cases type with
    | text name => exact List.mem_map_of_mem (listed name fields (by simpa using h))
    | null | number | infinite | notANumber => simp at h

theorem steady_ofLookup (names : List String) (lookup : String → Option ModelFields)
    (listed : ∀ name fields, lookup name = some fields → name ∈ names) :
    (ofLookup names lookup listed).Steady :=
  fun _ _ _ => rfl

/-- Only what is looked up under a text is described. -/
theorem exists_of_ofLookup {names : List String} {lookup : String → Option ModelFields}
    {listed : ∀ name fields, lookup name = some fields → name ∈ names} {moment : Nat} {type : Key}
    {fields : ModelFields}
    (h : (ofLookup names lookup listed).answer moment type = .ok (some fields)) :
    ∃ name, type = .text name ∧ lookup name = some fields := by
  cases type with
  | text name => exact ⟨name, rfl, Except.ok.inj h⟩
  | null | number | infinite | notANumber => cases h

def ofTable (table : OrderedMap String ModelFields) : Source :=
  ofLookup (OrderedMap.keys table) (OrderedMap.get? table) (by
    intro name fields h
    refine Classical.byContradiction fun hnot => ?_
    simp [(OrderedMap.get?_eq_none_iff table name).mpr hnot] at h)

theorem steady_ofTable (table : OrderedMap String ModelFields) : (ofTable table).Steady :=
  steady_ofLookup _ _ _

def amend (source : Source) (type : Key) (fields : Option ModelFields) : Source where
  types := type :: source.types
  answer moment asked := if asked = type then .ok fields else source.answer moment asked
  listed := by
    intro moment asked found h
    by_cases heq : asked = type
    · simp [heq]
    · simp only [heq, if_false] at h
      exact List.mem_cons_of_mem _ (source.listed moment asked found h)

end Source

end QueryProjection
