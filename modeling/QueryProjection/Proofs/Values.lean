import QueryProjection.Proofs.Conversion
import QueryProjection.Proofs.Json.Admissible

/-!
# What values come to when nothing is refused

A variable without a value and a value of an unknown kind convert to nothing, and unless one is
strict that is no fault.  `Literal.value?` is what a value converts to then, if it is anything.

Nothing is found where such a value itself is asked for, and only there.  In lists and objects it is
left out: a list comes to what its items come to, of those that come to something
(`value?_list`), and an object to the table of its fields that do (`value?_object`).  So a field
that comes to nothing takes nothing away, wherever it stands among fields of its name
(`Collected`).  Arguments are collected in the same way.  All that is found in a value, at any
depth, is what some value within comes to, or belongs to the value of a variable
(`sourced_of_within`).
-/

namespace QueryProjection

inductive Datum.Within (part : Datum) : Datum → Prop where
  | self : Within part part
  | nested {datum item : Datum} (hitem : item ∈ datum.parts) (h : Within part item) :
      Within part datum

namespace Literal

/-- What a value converts to when nothing is refused, if it converts to anything. -/
def value? (bindings : Option Bindings) (literal : Literal) : Option Datum :=
  match (literal.convert bindings false).result with
  | .ok value => value
  | .error _ => none

inductive Unvalued (bindings : Option Bindings) : Literal → Prop where
  | unbound {name : String}
      (h : (bindings.bind fun table => OrderedMap.get? table name) = none) :
      Unvalued bindings (.variable name)
  | unknown (kind : String) : Unvalued bindings (.other kind)

def Short (literal : Literal) : Prop :=
  ∀ numeral, (Literal.int numeral).Within literal → ¬ NumeralTooLong numeral

variable {bindings : Option Bindings} {literal : Literal}

theorem Short.nested (h : literal.Short) : ∀ item ∈ literal.nested, item.Short :=
  fun _ hitem numeral hwithin => h numeral (.nested hitem hwithin)

theorem value?_of_ok {value : Option Datum}
    (h : (literal.convert bindings false).result = .ok value) :
    literal.value? bindings = value := by
  rw [value?, h]

theorem result_convert (h : literal.Short) :
    (literal.convert bindings false).result = .ok (literal.value? bindings) := by
  have hleaves : (faultsAmong fun _ => False).Leaves bindings bindings false false
      (Within · literal) :=
    leaves_faultsAmong (fun hstrict => nomatch hstrict) h fun hstrict => nomatch hstrict
  have hnone := hleaves.convert literal fun _ hwithin => hwithin
  cases hr : (literal.convert bindings false).result with
  | error fault => exact (hnone fault hr).elim
  | ok value => rw [value?_of_ok hr]

end Literal

variable {bindings : Option Bindings}

/-! ### Values that are left out -/

/-- What some named values come to, where they come to something, in order. -/
def valued (bindings : Option Bindings) (fields : List (String × Literal)) :
    List (String × Datum) :=
  fields.filterMap fun field => (field.2.value? bindings).map fun value => (field.1, value)

theorem valued_cons (bindings : Option Bindings) (name : String) (literal : Literal)
    (rest : List (String × Literal)) :
    valued bindings ((name, literal) :: rest) =
      match literal.value? bindings with
      | none => valued bindings rest
      | some value => (name, value) :: valued bindings rest := by
  rw [valued, List.filterMap_cons]
  cases literal.value? bindings <;> rfl

theorem exists_of_mem_valued {fields : List (String × Literal)} {entry : String × Datum}
    (h : entry ∈ valued bindings fields) :
    ∃ field ∈ fields, field.1 = entry.1 ∧ field.2.value? bindings = some entry.2 := by
  obtain ⟨field, hfield, hvalue⟩ := List.mem_filterMap.mp h
  obtain ⟨value, hfound, rfl⟩ := Option.map_eq_some_iff.mp hvalue
  exact ⟨field, hfield, rfl, hfound⟩

theorem result_convertItems {items : List Literal} (h : ∀ item ∈ items, item.Short) :
    (Literal.convertItems bindings false items).result =
      .ok (items.filterMap (Literal.value? bindings)) := by
  induction items with
  | nil => rfl
  | cons item rest ih =>
      rw [List.forall_mem_cons] at h
      rw [Literal.convertItems, Logged.result_bind, Literal.result_convert h.1, ok_bind,
        Logged.result_bind, ih h.2, ok_bind, List.filterMap_cons]
      cases item.value? bindings <;> rfl

theorem result_convertFields {fields : List (String × Literal)}
    (h : ∀ field ∈ fields, field.2.Short) :
    ∀ before, (Literal.convertFields bindings false before fields).result =
      .ok (OrderedMap.merge before (valued bindings fields)) := by
  induction fields with
  | nil => exact fun before => rfl
  | cons field rest ih =>
      intro before
      obtain ⟨name, literal⟩ := field
      rw [List.forall_mem_cons] at h
      rw [Literal.convertFields, Logged.result_bind, Literal.result_convert h.1, ok_bind,
        valued_cons]
      cases literal.value? bindings with
      | none => exact ih h.2 before
      | some value => exact ih h.2 _

theorem result_forwardArguments {forwarded : List String} {arguments : List Argument}
    (h : ∀ argument ∈ arguments, argument.1 ∈ forwarded → argument.2.Short) :
    (forwardArguments arguments bindings false forwarded).result = .ok (OrderedMap.ofList
      (valued bindings (arguments.filter fun argument => argument.1 ∈ forwarded))) := by
  have hshort : ∀ argument ∈ arguments.filter fun argument => argument.1 ∈ forwarded,
      argument.2.Short := by
    intro argument hargument
    obtain ⟨hargument, hforwarded⟩ := List.mem_filter.mp hargument
    exact h argument hargument (of_decide_eq_true hforwarded)
  rw [forwardArguments, forwardOver_eq, result_convertFields hshort]
  rfl

namespace Literal

theorem value?_variable (name : String) : (Literal.variable name).value? bindings =
    bindings.bind fun table => OrderedMap.get? table name := by
  rw [value?, convert, resolveVariable]
  cases bindings.bind fun table => OrderedMap.get? table name <;> rfl

theorem value?_int {numeral : String} (h : (Literal.int numeral).Short) :
    (Literal.int numeral).value? bindings = some (.int (Decimal.intOfDigits numeral.toList)) := by
  have hlength := h numeral .self
  rw [NumeralTooLong] at hlength
  refine value?_of_ok ?_
  rw [convert, convertInt, if_neg hlength]
  rfl

theorem value?_list {items : List Literal} (h : (Literal.list items).Short) :
    (Literal.list items).value? bindings = some (.list (items.filterMap (value? bindings))) := by
  have hitems : ∀ item ∈ items, item.Short := h.nested
  refine value?_of_ok ?_
  rw [convert, Logged.result_bind, result_convertItems hitems]
  rfl

theorem value?_object {fields : List (String × Literal)} (h : (Literal.object fields).Short) :
    (Literal.object fields).value? bindings =
      some (.object (OrderedMap.ofList (valued bindings fields))) := by
  refine value?_of_ok ?_
  rw [convert, Logged.result_bind, result_convertFields (List.forall_mem_map.mp h.nested)]
  rfl

/-- Nothing comes of variables without a value and of values of an unknown kind, and of those
only. -/
theorem value?_eq_none_iff {literal : Literal} (h : literal.Short) :
    literal.value? bindings = none ↔ literal.Unvalued bindings := by
  have hresult : (literal.convert bindings false).result = .ok (literal.value? bindings) :=
    result_convert h
  constructor
  · intro hnone
    rw [hnone] at hresult
    cases literal with
    | «variable» name => exact .unbound ((value?_variable name).symm.trans hnone)
    | other kind => exact .unknown kind
    | int numeral => cases (value?_int h).symm.trans hnone
    | list items => cases (value?_list h).symm.trans hnone
    | object fields => cases (value?_object h).symm.trans hnone
    | float | text | bool | «enum» | null => cases hresult
  · rintro (hunbound | kind)
    · exact (value?_variable _).trans hunbound
    · rfl

end Literal

/-- The table of what some named values come to: the names stand in the order in which they first
come to something, and under each name stands what the last of its values comes to that comes to
something. -/
structure Collected (bindings : Option Bindings) (fields : List (String × Literal))
    (entries : OrderedMap String Datum) : Prop where
  keys : OrderedMap.keys entries =
    ((fields.filter fun field => (field.2.value? bindings).isSome).map Prod.fst).eraseDups
  last : ∀ name, OrderedMap.get? entries name =
    ((fields.filter fun field => field.1 = name).filterMap fun field =>
      field.2.value? bindings).getLast?

theorem map_fst_valued (fields : List (String × Literal)) :
    (valued bindings fields).map Prod.fst =
      (fields.filter fun field => (field.2.value? bindings).isSome).map Prod.fst := by
  induction fields with
  | nil => rfl
  | cons field rest ih =>
      obtain ⟨name, literal⟩ := field
      rw [valued_cons, List.filter_cons]
      cases literal.value? bindings with
      | none => exact ih
      | some value => exact congrArg (name :: ·) ih

theorem map_snd_valued (fields : List (String × Literal)) (name : String) :
    ((valued bindings fields).filter fun entry => entry.1 = name).map Prod.snd =
      (fields.filter fun field => field.1 = name).filterMap fun field =>
        field.2.value? bindings := by
  induction fields with
  | nil => rfl
  | cons field rest ih =>
      obtain ⟨other, literal⟩ := field
      rw [valued_cons]
      by_cases hname : other = name
      · rw [List.filter_cons_of_pos (by simpa using hname), List.filterMap_cons, ← ih]
        cases literal.value? bindings with
        | none => rfl
        | some value => rw [List.filter_cons_of_pos (by simpa using hname), List.map_cons]
      · rw [List.filter_cons_of_neg (by simpa using hname), ← ih]
        cases literal.value? bindings with
        | none => rfl
        | some value => rw [List.filter_cons_of_neg (by simpa using hname)]

theorem collected_valued (bindings : Option Bindings) (fields : List (String × Literal)) :
    Collected bindings fields (OrderedMap.ofList (valued bindings fields)) where
  keys := by rw [OrderedMap.keys_ofList, map_fst_valued]
  last name := by rw [OrderedMap.get?_ofList, ← List.getLast?_map, map_snd_valued]

/-! ### Where values come from -/

/-- A value is what another within a literal comes to, or it belongs to the value of a variable that
occurs in the literal. -/
inductive Sourced (bindings : Option Bindings) (literal : Literal) (part : Datum) : Prop where
  | written {origin : Literal} (hwithin : origin.Within literal)
      (hvalue : origin.value? bindings = some part)
  | bound {name : String} {value : Datum} (hwithin : (Literal.variable name).Within literal)
      (hvalue : (bindings.bind fun table => OrderedMap.get? table name) = some value)
      (hpart : part.Within value)

theorem Sourced.of_nested {literal item : Literal} (hitem : item ∈ literal.nested) {part : Datum}
    (h : Sourced bindings item part) : Sourced bindings literal part := by
  cases h with
  | written hwithin hvalue => exact .written (.nested hitem hwithin) hvalue
  | bound hwithin hvalue hpart => exact .bound (.nested hitem hwithin) hvalue hpart

theorem sourced_of_within (literal : Literal) : literal.Short → ∀ {value part : Datum},
    literal.value? bindings = some value → part.Within value → Sourced bindings literal part := by
  induction literal using Literal.nestedInduction with
  | step literal ih =>
      intro hshort value part hvalue hpart
      have hresult : (literal.convert bindings false).result = .ok (literal.value? bindings) :=
        Literal.result_convert hshort
      cases hpart with
      | self => exact .written .self hvalue
      | @nested _ item hitem hwithin =>
          have hnested : ∀ origin ∈ literal.nested, origin.value? bindings = some item →
              Sourced bindings literal part := fun origin horigin hfound =>
            (ih origin horigin (hshort.nested origin horigin) hfound hwithin).of_nested horigin
          cases literal with
          | «variable» name =>
              rw [Literal.value?_variable] at hvalue
              exact .bound .self hvalue (.nested hitem hwithin)
          | list items =>
              rw [Literal.value?_list hshort] at hvalue
              cases hvalue
              obtain ⟨origin, horigin, hfound⟩ := List.mem_filterMap.mp hitem
              exact hnested origin horigin hfound
          | object fields =>
              rw [Literal.value?_object hshort] at hvalue
              cases hvalue
              obtain ⟨entry, hentry, rfl⟩ := List.mem_map.mp hitem
              obtain ⟨field, hfield, -, hfound⟩ :=
                exists_of_mem_valued (OrderedMap.mem_of_mem_ofList hentry)
              exact hnested field.2 (List.mem_map_of_mem hfield) hfound
          | int numeral =>
              rw [Literal.value?_int hshort] at hvalue
              cases hvalue
              cases hitem
          | float | text | bool | «enum» | null =>
              rw [hvalue] at hresult
              cases hresult
              cases hitem
          | other kind => cases hvalue

end QueryProjection
