import QueryProjection.Proofs.Expansion.Failures
import QueryProjection.Proofs.Expansion.KnownFields

/-!
# Look-ups that can be depended on

With a source that does not fail and leads every relation to a type, a look-up goes wrong in one
way only: a type is unknown (`unknown_of_filterAt`, `filterAt_of_unknown`).  On a walk this happens
at the root and below a relation (`root_eq_error`, `unknown_of_placeBelow`).  There is always a place
inside a fragment, since a type condition that is not known is not followed (`placeWithin_ne_error`).
-/

namespace QueryProjection

/-- A source that never fails, never changes its mind and leads every relation to a type. -/
structure Source.Dependable (source : Source) : Prop where
  steady : source.Steady
  answers : ∀ moment type fault, source.answer moment type ≠ .error fault
  related : source.Related

theorem Source.dependable_ofTable {table : OrderedMap String ModelFields}
    (h : ∀ entry ∈ table, entry.2.Related) : (Source.ofTable table).Dependable where
  steady := Source.steady_ofTable table
  answers := by
    intro moment type fault
    cases type <;> exact nofun
  related := Source.related_ofTable h

namespace Context

/-- The registry of the context, if it has one, has a dependable source, of which it may remember
whatever there is to remember. -/
def Dependable (context : Context) (memory : Memory) : Prop :=
  ∀ target, context.options.target = some target →
    target.source.Dependable ∧ Reached target.source memory

def Unknown (context : Context) (memory : Memory) (type : TypeName) : Prop :=
  ∃ target, context.options.target = some target ∧
    ((Registry.hasType target.source type).run memory).1 = .ok false

end Context

namespace Expansion

section Types

variable {context : Context} {memory : Memory} (hdependable : context.Dependable memory)

include hdependable

theorem steady_of_dependable : context.Steady :=
  fun target htarget => (hdependable target htarget).1.steady

theorem unaware_of_dependable : context.Unaware := by
  intro target htarget moment type fault hanswer
  exact absurd hanswer ((hdependable target htarget).1.answers moment type fault)

theorem exists_described {target : Target} (htarget : context.options.target = some target)
    (type : TypeName) : ∃ found, memory.described target.source type = .ok found := by
  cases hdescribed : memory.described target.source type with
  | ok found => exact ⟨found, rfl⟩
  | error fault =>
      unfold Memory.described at hdescribed
      split at hdescribed
      · cases hdescribed
      · exact absurd hdescribed ((hdependable target htarget).1.answers _ _ _)

theorem unknown_of_fieldsOf {target : Target} (htarget : context.options.target = some target)
    {type : TypeName} {fault : Fault} (h : memory.fieldsOf target.source type = .error fault) :
    context.Unknown memory type ∧ fault = .unknownType type := by
  obtain ⟨found, hfound⟩ := exists_described hdependable htarget type
  unfold Memory.fieldsOf at h
  cases found with
  | some fields =>
      rw [hfound] at h
      cases h
  | none =>
      rw [hfound] at h
      cases h
      refine ⟨⟨target, htarget, ?_⟩, rfl⟩
      rw [Registry.hasType_run, hfound]
      rfl

omit hdependable in
theorem fieldsOf_of_unknown {target : Target} (htarget : context.options.target = some target)
    {type : TypeName} (h : context.Unknown memory type) :
    memory.fieldsOf target.source type = .error (.unknownType type) := by
  obtain ⟨other, hother, hknows⟩ := h
  rw [htarget] at hother
  cases hother
  rw [Registry.hasType_run, map_eq_ok] at hknows
  obtain ⟨found, hfound, hnone⟩ := hknows
  rw [Option.isSome_eq_false_iff, Option.isNone_iff_eq_none] at hnone
  rw [Memory.fieldsOf, hfound, hnone]

theorem unknown_of_filterAt {type : Option TypeName} {fault : Fault}
    (h : (context.outlook memory).filterAt type = .error fault) :
    ∃ name, type = some name ∧ context.Unknown memory name ∧ fault = .unknownType name := by
  cases htarget : context.options.target with
  | none =>
      simp only [Context.outlook, htarget] at h
      cases h
  | some target =>
      simp only [Context.outlook, htarget] at h
      cases type with
      | none => cases h
      | some name =>
          simp only [Memory.filterOf] at h
          split at h
          · cases h
          · split at h
            · cases h
            · rename_i found hfound
              cases h
              exact ⟨name, rfl, unknown_of_fieldsOf hdependable htarget hfound⟩

theorem filterAt_of_unknown {type : TypeName} (h : context.Unknown memory type) :
    (context.outlook memory).filterAt (some type) = .error (.unknownType type) := by
  obtain ⟨target, htarget, -⟩ := id h
  obtain ⟨hsource, hreached⟩ := hdependable target htarget
  have hunknown := fieldsOf_of_unknown htarget h
  cases hfilter : (context.outlook memory).filterAt (some type) with
  | ok filter =>
      -- a filter that is remembered is for a type that is in the cache
      obtain ⟨fields, hfields, -⟩ :=
        fieldsOf_of_filterAt htarget (hreached.consistent hsource.related) hfilter
      rw [hunknown] at hfields
      cases hfields
  | error fault =>
      obtain ⟨name, hname, -, rfl⟩ := unknown_of_filterAt hdependable hfilter
      cases hname
      rfl

theorem not_unknown_of_filterAt {type : TypeName} {filter : FieldFilter}
    (h : (context.outlook memory).filterAt (some type) = .ok filter) :
    ¬ context.Unknown memory type := by
  intro hunknown
  rw [filterAt_of_unknown hdependable hunknown] at h
  cases h

theorem root_eq_error {fault : Fault} :
    (context.outlook memory).root = .error fault ↔
      ∃ type, context.root = some type ∧ context.Unknown memory type ∧
        fault = .unknownType type := by
  cases htarget : context.options.target with
  | none =>
      simp only [Context.outlook, Context.root, htarget]
      constructor
      · intro h
        cases h
      · rintro ⟨type, h, -⟩
        cases h
  | some target =>
      simp only [Context.outlook, Context.root, htarget, map_eq_error]
      constructor
      · intro h
        exact ⟨.text target.model, rfl, unknown_of_fieldsOf hdependable htarget h⟩
      · rintro ⟨type, h, hunknown, rfl⟩
        cases h
        exact fieldsOf_of_unknown htarget hunknown

/-! ### Places -/

/-- Inside a fragment the type is the same, or another one that is known. -/
theorem typeWithin_cases (type : Option TypeName) (condition : Option String) :
    (context.outlook memory).typeWithin type condition = .ok type ∨
      ∃ next, (context.outlook memory).typeWithin type condition = .ok (some next) ∧
        ¬ context.Unknown memory next := by
  unfold Outlook.typeWithin
  split
  · rename_i outer inner
    cases hknows : (context.outlook memory).knows inner with
    | error found =>
        cases htarget : context.options.target with
        | none =>
            simp only [Context.outlook, htarget] at hknows
            cases hknows
        | some target =>
            simp only [Context.outlook, htarget, map_eq_error] at hknows
            obtain ⟨found, hfound⟩ := exists_described hdependable htarget (.text inner)
            rw [hfound] at hknows
            cases hknows
    | ok known =>
        cases known with
        | false => exact Or.inl rfl
        | true =>
            refine Or.inr ⟨.text inner, rfl, ?_⟩
            rintro ⟨target, htarget, hnot⟩
            simp only [Context.outlook, htarget] at hknows
            rw [Registry.hasType_run, hknows] at hnot
            cases hnot
  · exact Or.inl rfl

theorem placeWithin_ne_error {type : Option TypeName} {filter : FieldFilter}
    (hfilter : (context.outlook memory).filterAt type = .ok filter) (condition : Option String)
    (fault : Fault) : (context.outlook memory).placeWithin type condition ≠ .error fault := by
  intro h
  rw [Outlook.placeWithin] at h
  rcases typeWithin_cases hdependable type condition with hsame | ⟨next, hnext, hknown⟩
  · rw [hsame, ok_bind, hfilter] at h
    cases h
  · rw [hnext, ok_bind, bind_eq_error] at h
    rcases h with hinner | ⟨_, -, h⟩
    · obtain ⟨name, hname, hunknown, -⟩ := unknown_of_filterAt hdependable hinner
      cases hname
      exact hknown hunknown
    · cases h

/-- Where there is a filter, a field leads to a type if it is a relation, and else to none. -/
theorem typeBelow_cases {type : Option TypeName} {filter : FieldFilter}
    (hfilter : (context.outlook memory).filterAt type = .ok filter) (name : String)
    (kind : FieldKind) :
    (context.outlook memory).typeBelow type name kind = .ok none ∨
      kind = .relation ∧ ∃ related,
        (context.outlook memory).typeBelow type name kind = .ok (some related) := by
  cases htarget : context.options.target with
  | none =>
      left
      simp only [Context.outlook, htarget]
  | some target =>
      cases kind with
      | scalar =>
          left
          simp only [Context.outlook, htarget]
      | relation =>
          cases type with
          | none =>
              left
              simp only [Context.outlook, htarget]
          | some outer =>
              obtain ⟨hsource, hreached⟩ := hdependable target htarget
              have hconsistent := hreached.consistent hsource.related
              obtain ⟨fields, hfields, -⟩ := fieldsOf_of_filterAt htarget hconsistent hfilter
              simp only [Context.outlook, htarget, Memory.below, hfields]
              cases hfound : fields.related? name with
              | none => exact Or.inl rfl
              | some found =>
                  obtain ⟨related, rfl⟩ :=
                    related_of_fieldsOf hsource.related hconsistent hfields name found hfound
                  exact Or.inr ⟨trivial, related, rfl⟩

/-- There is no place below a field only if it is a relation to an unknown type. -/
theorem unknown_of_placeBelow {type : Option TypeName} {filter : FieldFilter}
    (hfilter : (context.outlook memory).filterAt type = .ok filter) {name : String}
    {kind : FieldKind} {fault : Fault}
    (h : (context.outlook memory).placeBelow type name kind = .error fault) :
    kind = .relation ∧ ∃ related,
      (context.outlook memory).typeBelow type name kind = .ok (some related) ∧
        context.Unknown memory related ∧ fault = .unknownType related := by
  rw [Outlook.placeBelow] at h
  rcases typeBelow_cases hdependable hfilter name kind with hnone | ⟨hkind, related, hrelated⟩
  · rw [hnone, ok_bind, bind_eq_error] at h
    rcases h with hinner | ⟨_, -, h⟩
    · obtain ⟨_, hname, -⟩ := unknown_of_filterAt hdependable hinner
      cases hname
    · cases h
  · rw [hrelated, ok_bind, bind_eq_error] at h
    rcases h with hinner | ⟨_, -, h⟩
    · obtain ⟨found, hname, hunknown, hfault⟩ := unknown_of_filterAt hdependable hinner
      cases hname
      exact ⟨hkind, related, hrelated, hunknown, hfault⟩
    · cases h

theorem placeBelow_of_unknown {type : Option TypeName} {name : String} {related : TypeName}
    (hrelated : (context.outlook memory).typeBelow type name .relation = .ok (some related))
    (hunknown : context.Unknown memory related) :
    (context.outlook memory).placeBelow type name .relation = .error (.unknownType related) := by
  rw [Outlook.placeBelow, hrelated, ok_bind, filterAt_of_unknown hdependable hunknown]
  rfl

end Types

end Expansion

end QueryProjection
