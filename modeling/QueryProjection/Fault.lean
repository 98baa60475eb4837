import QueryProjection.TypeName

/-!
# Why a compilation fails

The causes for which no projection is returned.  Most are worth a message of their own; a
numeral with too many digits, a selection of an unknown kind and an expansion without end
are told by their kind alone.

The description of the models is foreign data, so it may lack a key or hold a value of the
wrong shape; the last four causes are of this sort.
-/

namespace QueryProjection

inductive Fault where
  /-- the registry has no model of this name -/
  | unknownType (type : TypeName)
  /-- a fragment is spread and not defined, in strict mode -/
  | undefinedFragment (fragment : String)
  /-- a variable is used and has no value, in strict mode -/
  | unboundVariable (name : String)
  /-- a value of an unknown kind, in strict mode -/
  | unrecognizedValue (kind : String)
  /-- a whole number with more digits than are read -/
  | numeralTooLong
  /-- a selection of an unknown kind -/
  | unexpectedSelection (name : String)
  /-- a fragment is entered at a type at which it is being expanded already -/
  | endlessExpansion (fragment : String) (type : Option TypeName)
  /-- the description of the models lacks a key -/
  | missingKey (key : String)
  /-- a key is looked for in something that has none -/
  | noKeys (found : Shape)
  /-- something is gone through that holds nothing to go through -/
  | noItems (found : Shape)
  /-- something stands in the place of a name that cannot be one -/
  | noName (found : Shape)
  deriving DecidableEq, Repr

def Shape.word : Shape → String
  | .null => "NoneType"
  | .bool => "bool"
  | .int => "int"
  | .float => "float"
  | .text => "str"
  | .list => "list"
  | .object => "dict"

/-- The words for a key that is looked for in something without keys.  Texts and lists can be
asked for what stands at a place, so there it is the text of the key that is wrong. -/
def Shape.withoutKeys : Shape → String
  | .text => "string indices must be integers, not 'str'"
  | .list => "list indices must be integers or slices, not str"
  | other => s!"'{other.word}' object is not subscriptable"

def Fault.message? : Fault → Option String
  | .unknownType type =>
      some s!"Type \"{type.written}\" was not found in the model field registry. This indicates that the registry does not describe the same schema as the queries being compiled."
  | .undefinedFragment fragment =>
      some s!"Fragment \"{fragment}\" is spread in the query, but is not defined."
  | .unboundVariable name =>
      some s!"Variable \"${name}\" is referenced in the query, but has no value."
  | .unrecognizedValue kind => some s!"Unexpected value node received: {kind} {kind}"
  | .missingKey key => some s!"'{key}'"
  | .noKeys found => some found.withoutKeys
  | .noItems found => some s!"'{found.word}' object is not iterable"
  | .noName found => some s!"unhashable type: '{found.word}'"
  | .numeralTooLong => none
  | .unexpectedSelection _ => none
  | .endlessExpansion _ _ => none

/-! ### One result after another -/

theorem ok_bind {ε α β : Type} (a : α) (second : α → Except ε β) :
    (.ok a >>= second) = second a :=
  rfl

theorem bind_eq_ok {ε α β : Type} {first : Except ε α} {second : α → Except ε β} {b : β} :
    (first >>= second) = .ok b ↔ ∃ a, first = .ok a ∧ second a = .ok b := by
  cases first with
  | error fault =>
      constructor
      · intro h
        cases h
      · rintro ⟨_, h, _⟩
        cases h
  | ok a =>
      constructor
      · exact fun h => ⟨a, rfl, h⟩
      · rintro ⟨_, h, h'⟩
        cases h
        exact h'

theorem bind_eq_error {ε α β : Type} {first : Except ε α} {second : α → Except ε β}
    {fault : ε} :
    (first >>= second) = .error fault ↔
      first = .error fault ∨ ∃ a, first = .ok a ∧ second a = .error fault := by
  cases first with
  | error found =>
      constructor
      · intro h
        cases h
        exact Or.inl rfl
      · rintro (h | ⟨_, h, _⟩)
        · cases h
          rfl
        · cases h
  | ok a =>
      constructor
      · exact fun h => Or.inr ⟨a, rfl, h⟩
      · rintro (h | ⟨_, h, h'⟩)
        · cases h
        · cases h
          exact h'

theorem map_eq_ok {ε α β : Type} {f : α → β} {result : Except ε α} {b : β} :
    result.map f = .ok b ↔ ∃ a, result = .ok a ∧ f a = b := by
  cases result <;> simp [Except.map]

theorem map_eq_error {ε α β : Type} {f : α → β} {result : Except ε α} {fault : ε} :
    result.map f = .error fault ↔ result = .error fault := by
  cases result <;> simp [Except.map]

theorem mapError_eq_ok {ε ε' α : Type} {f : ε → ε'} {result : Except ε α} {a : α} :
    result.mapError f = .ok a ↔ result = .ok a := by
  cases result with
  | error found => exact ⟨nofun, nofun⟩
  | ok value =>
      constructor
      · rintro ⟨⟩
        rfl
      · rintro ⟨⟩
        rfl

end QueryProjection
