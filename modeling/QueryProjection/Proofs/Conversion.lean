import Mathlib.Data.List.Forall2
import QueryProjection.Conversion
import QueryProjection.Proofs.Merging

/-!
# Two conversions of one value

Values nest in lists and objects, and `Literal.nestedInduction` is the induction over all of
this at once.  A `LoggedRelation` relates computations that report and is handed on from step to
step.  If it relates what is found for the variables, the whole numbers and the values of an
unknown kind that occur in a value, it relates the conversions of the value (`Leaves.convert`).
Some parts may be replaced by others on the way, if their conversions are related as well
(`Leaves.convert_replaced`), and what is forwarded of arguments is related in the end.

The first use of it is a bound on what can go wrong: a conversion fails with the faults of what
occurs in the value, and with no others (`leaves_faultsAmong`).  A value converts only if all that
occurs in it does (`ok_of_within`), and what is forwarded of arguments goes under the names that
are allowed, each once (`keys_forwardArguments`).
-/

namespace QueryProjection

/-! ### What occurs in a value -/

def Literal.nested : Literal → List Literal
  | .list items => items
  | .object fields => fields.map Prod.snd
  | .variable _ | .int _ | .float _ | .text _ _ | .bool _ | .enum _ | .null | .other _ => []

/-- A value occurs within another, at any depth of lists and objects. -/
inductive Literal.Within (part : Literal) : Literal → Prop where
  | self : Within part part
  | nested {literal item : Literal} (hitem : item ∈ literal.nested) (h : Within part item) :
      Within part literal

theorem Literal.sizeOf_nested {literal item : Literal} (h : item ∈ literal.nested) :
    sizeOf item < sizeOf literal := by
  cases literal with
  | list items =>
      have hitem : item ∈ items := h
      have hsize := List.sizeOf_lt_of_mem hitem
      simp only [Literal.list.sizeOf_spec]
      omega
  | object fields =>
      obtain ⟨⟨name, value⟩, hfield, rfl⟩ := List.mem_map.mp h
      have hsize := List.sizeOf_lt_of_mem hfield
      simp only [Prod.mk.sizeOf_spec] at hsize
      simp only [Literal.object.sizeOf_spec]
      omega
  | _ => cases h

theorem Literal.not_within {part literal : Literal} (hself : part ≠ literal)
    (hnested : ∀ item ∈ literal.nested, ¬ part.Within item) : ¬ part.Within literal := by
  intro hwithin
  cases hwithin with
  | self => exact hself rfl
  | nested hitem h => exact hnested _ hitem h

/-- Induction over values and the values nested in them. -/
theorem Literal.nestedInduction {motive : Literal → Prop}
    (step : ∀ literal : Literal, (∀ item ∈ literal.nested, motive item) → motive literal)
    (literal : Literal) : motive literal :=
  step literal fun item _ => nestedInduction step item
termination_by sizeOf literal
decreasing_by exact Literal.sizeOf_nested ‹_›

/-- The second value is the first, but that any number of occurrences of a part in it have been
replaced. -/
inductive Literal.Replaced (part replacement : Literal) : Literal → Literal → Prop where
  | here : Replaced part replacement part replacement
  | same (literal : Literal) : Replaced part replacement literal literal
  | list {items items' : List Literal}
      (h : List.Forall₂ (Replaced part replacement) items items') :
      Replaced part replacement (.list items) (.list items')
  | object {fields fields' : List (String × Literal)}
      (hnames : fields'.map Prod.fst = fields.map Prod.fst)
      (h : List.Forall₂ (Replaced part replacement) (fields.map Prod.snd)
        (fields'.map Prod.snd)) :
      Replaced part replacement (.object fields) (.object fields')

/-- Lists of named values with the same names and related values, entry by entry. -/
theorem forall₂_of_names {related : Literal → Literal → Prop}
    {fields fields' : List (String × Literal)}
    (hnames : fields'.map Prod.fst = fields.map Prod.fst)
    (h : List.Forall₂ related (fields.map Prod.snd) (fields'.map Prod.snd)) :
    List.Forall₂ (fun field field' => field'.1 = field.1 ∧ related field.2 field'.2) fields
      fields' := by
  rw [List.forall₂_map_left_iff, List.forall₂_map_right_iff] at h
  induction h with
  | nil => exact .nil
  | cons hvalue _ ih =>
      rw [List.map_cons, List.map_cons, List.cons.injEq] at hnames
      exact .cons ⟨hnames.1, hvalue⟩ (ih hnames.2)

/-- Forwarding arguments is converting those with a forwarded name, like the fields of an object. -/
theorem forwardOver_eq (bindings : Option Bindings) (strict : Bool) (forwarded : List String)
    (arguments : List Argument) : ∀ before,
    forwardOver bindings strict forwarded before arguments =
      Literal.convertFields bindings strict before
        (arguments.filter fun argument => argument.1 ∈ forwarded) := by
  induction arguments with
  | nil =>
      intro before
      rw [List.filter_nil, forwardOver, Literal.convertFields]
  | cons argument rest ih =>
      intro before
      obtain ⟨name, literal⟩ := argument
      by_cases hforwarded : name ∈ forwarded
      · rw [forwardOver, if_pos (List.contains_iff_mem.mpr hforwarded),
          List.filter_cons_of_pos (by simpa using hforwarded), Literal.convertFields]
        refine bind_congr fun value => ?_
        cases value with
        | none => exact ih before
        | some value => exact ih _
      · rw [forwardOver, if_neg fun h => hforwarded (List.contains_iff_mem.mp h),
          List.filter_cons_of_neg (by simpa using hforwarded), ih]

/-! ### Conversions that are related -/

/-- A relation between computations that report, handed on from one step to the next. -/
structure LoggedRelation where
  rel : {α : Type} → Logged α → Logged α → Prop
  done : ∀ {α : Type} (value : α), rel (pure value) (pure value)
  step : ∀ {α β : Type} {first first' : Logged α} {second second' : α → Logged β},
    rel first first' → (∀ value, rel (second value) (second' value)) →
    rel (first >>= second) (first' >>= second')

namespace LoggedRelation

section Steps

variable (R : LoggedRelation) {bindings bindings' : Option Bindings} {strict strict' : Bool}

theorem convertItems {items items' : List Literal}
    (h : List.Forall₂ (fun item item' =>
      R.rel (item.convert bindings strict) (item'.convert bindings' strict')) items items') :
    R.rel (Literal.convertItems bindings strict items)
      (Literal.convertItems bindings' strict' items') := by
  induction h with
  | nil =>
      simp only [Literal.convertItems]
      exact R.done []
  | cons hitem _ ih =>
      simp only [Literal.convertItems]
      refine R.step hitem fun value => R.step ih fun others => ?_
      cases value with
      | none => exact R.done others
      | some value => exact R.done (value :: others)

theorem convertFields {fields fields' : List (String × Literal)}
    (h : List.Forall₂ (fun field field' => field'.1 = field.1 ∧
      R.rel (field.2.convert bindings strict) (field'.2.convert bindings' strict')) fields
      fields') :
    ∀ before, R.rel (Literal.convertFields bindings strict before fields)
      (Literal.convertFields bindings' strict' before fields') := by
  induction h with
  | nil =>
      intro before
      simp only [Literal.convertFields]
      exact R.done before
  | @cons field field' _ _ hfield _ ih =>
      intro before
      obtain ⟨name, item⟩ := field
      obtain ⟨name', item'⟩ := field'
      obtain ⟨rfl, hitem⟩ := hfield
      simp only [Literal.convertFields]
      refine R.step hitem fun value => ?_
      cases value with
      | none => exact ih before
      | some value => exact ih _

/-- What is forwarded of arguments is related, if those to be forwarded convert to what is. -/
theorem forwardOver (forwarded : List String) {arguments arguments' : List Argument}
    (h : List.Forall₂ (fun argument argument' => argument'.1 = argument.1 ∧
      (argument.1 ∈ forwarded → R.rel (argument.2.convert bindings strict)
        (argument'.2.convert bindings' strict'))) arguments arguments') :
    ∀ before, R.rel (QueryProjection.forwardOver bindings strict forwarded before arguments)
      (QueryProjection.forwardOver bindings' strict' forwarded before arguments') := by
  induction h with
  | nil => exact fun before => R.done before
  | @cons argument argument' _ _ hargument _ ih =>
      intro before
      obtain ⟨name, literal⟩ := argument
      obtain ⟨name', literal'⟩ := argument'
      obtain ⟨rfl, hliteral⟩ := hargument
      simp only [QueryProjection.forwardOver]
      split
      · rename_i hforwarded
        refine R.step (hliteral (by simpa using hforwarded)) fun value => ?_
        cases value with
        | none => exact ih before
        | some value => exact ih _
      · exact ih before

end Steps

/-- What a conversion comes down to is related, as far as it is used. -/
structure Leaves (R : LoggedRelation) (bindings bindings' : Option Bindings)
    (strict strict' : Bool) (used : Literal → Prop) : Prop where
  bound : ∀ name, used (.variable name) →
    R.rel (resolveVariable name bindings strict) (resolveVariable name bindings' strict')
  int : ∀ numeral, used (.int numeral) → R.rel (convertInt numeral) (convertInt numeral)
  other : ∀ kind, used (.other kind) → R.rel ((Literal.other kind).convert bindings strict)
    ((Literal.other kind).convert bindings' strict')

namespace Leaves

variable {R : LoggedRelation} {bindings bindings' : Option Bindings} {strict strict' : Bool}
  {used : Literal → Prop}

theorem convert (h : R.Leaves bindings bindings' strict strict' used) (literal : Literal)
    (hused : ∀ part : Literal, part.Within literal → used part) :
    R.rel (literal.convert bindings strict) (literal.convert bindings' strict') := by
  induction literal using Literal.nestedInduction with
  | step literal ih =>
      have hnested : ∀ item ∈ literal.nested,
          R.rel (item.convert bindings strict) (item.convert bindings' strict') :=
        fun item hitem => ih item hitem fun part hpart => hused part (.nested hitem hpart)
      cases literal with
      | «variable» name =>
          simp only [Literal.convert]
          exact h.bound name (hused _ .self)
      | int numeral =>
          simp only [Literal.convert, map_eq_pure_bind]
          exact R.step (h.int numeral (hused _ .self)) fun _ => R.done _
      | float _ | text _ _ | bool _ | enum _ | null =>
          simp only [Literal.convert]
          exact R.done _
      | list items =>
          simp only [Literal.convert]
          exact R.step (R.convertItems (List.forall₂_same.mpr hnested)) fun _ => R.done _
      | object fields =>
          simp only [Literal.convert]
          refine R.step (R.convertFields (List.forall₂_same.mpr fun field hfield => ?_) [])
            fun _ => R.done _
          exact ⟨rfl, hnested _ (List.mem_map_of_mem hfield)⟩
      | other kind => exact h.other kind (hused _ .self)

theorem convert_replaced (h : R.Leaves bindings bindings' strict strict' used)
    {part replacement : Literal}
    (hpart : R.rel (part.convert bindings strict) (replacement.convert bindings' strict'))
    {literal literal' : Literal} (hreplaced : Literal.Replaced part replacement literal literal')
    (hused : ∀ other : Literal, other.Within literal → used other) :
    R.rel (literal.convert bindings strict) (literal'.convert bindings' strict') := by
  induction literal using Literal.nestedInduction generalizing literal' with
  | step literal ih =>
      have hnested : ∀ item ∈ literal.nested, ∀ item',
          Literal.Replaced part replacement item item' →
          R.rel (item.convert bindings strict) (item'.convert bindings' strict') :=
        fun item hitem item' hitem' =>
          ih item hitem hitem' fun other hother => hused other (.nested hitem hother)
      cases hreplaced with
      | here => exact hpart
      | same => exact h.convert literal hused
      | list hitems =>
          simp only [Literal.convert]
          refine R.step (R.convertItems ?_) fun _ => R.done _
          exact ((List.forall₂_and_left _ _).mpr ⟨hnested, hitems⟩).imp
            fun item item' hboth => hboth.1 item' hboth.2
      | object hnames hfields =>
          simp only [Literal.convert]
          have hvalues := ((List.forall₂_and_left _ _).mpr ⟨hnested, hfields⟩).imp
            fun item item' hboth => hboth.1 item' hboth.2
          exact R.step (R.convertFields (forall₂_of_names hnames hvalues) []) fun _ => R.done _

theorem forwardOver (h : R.Leaves bindings bindings' strict strict' used)
    (forwarded : List String) (arguments : List Argument)
    (hused : ∀ argument ∈ arguments, argument.1 ∈ forwarded →
      ∀ part : Literal, part.Within argument.2 → used part) :
    ∀ before, R.rel (QueryProjection.forwardOver bindings strict forwarded before arguments)
      (QueryProjection.forwardOver bindings' strict' forwarded before arguments) :=
  R.forwardOver forwarded (List.forall₂_same.mpr fun argument hargument =>
    ⟨rfl, fun hforwarded => h.convert argument.2 (hused argument hargument hforwarded)⟩)

end Leaves

end LoggedRelation

/-! ### What goes wrong in a conversion -/

/-- The faults of values: a numeral that is too long and, in strict mode, a variable without a
value and a value of an unknown kind. -/
inductive Fault.OfValue : Fault → Prop where
  | unbound (name : String) : OfValue (.unboundVariable name)
  | unrecognized (kind : String) : OfValue (.unrecognizedValue kind)
  | tooLong : OfValue .numeralTooLong

def NumeralTooLong (numeral : String) : Prop :=
  intDigitLimit < (numeral.toList.filter Char.isDigit).length

/-- The first computation fails with faults of some sort only. -/
def faultsAmong (sort : Fault → Prop) : LoggedRelation where
  rel first _ := ∀ fault, first.result = .error fault → sort fault
  done := by
    intro α value fault h
    cases h
  step := by
    intro α β first first' second second' h hsteps fault hfault
    obtain ⟨result, notices⟩ := first
    cases result with
    | error found =>
        cases hfault
        exact h _ rfl
    | ok value => exact hsteps value fault hfault

theorem leaves_faultsAmong {sort : Fault → Prop} {used : Literal → Prop} {strict : Bool}
    {bindings : Option Bindings}
    (hbound : strict = true → ∀ name, used (.variable name) →
      (bindings.bind fun table => OrderedMap.get? table name) = none →
      sort (.unboundVariable name))
    (hint : ∀ numeral, used (.int numeral) → NumeralTooLong numeral → sort .numeralTooLong)
    (hother : strict = true → ∀ kind, used (.other kind) → sort (.unrecognizedValue kind)) :
    (faultsAmong sort).Leaves bindings bindings strict strict used where
  bound name hused := by
    intro fault h
    unfold resolveVariable at h
    split at h
    · cases h
    · rename_i hnone
      cases strict with
      | true =>
          cases h
          exact hbound rfl name hused hnone
      | false => cases h
  int numeral hused := by
    intro fault h
    unfold convertInt at h
    simp only at h
    split at h
    · rename_i hlong
      cases h
      exact hint numeral hused hlong
    · cases h
  other kind hused := by
    intro fault h
    simp only [Literal.convert] at h
    cases strict with
    | true =>
        cases h
        exact hother rfl kind hused
    | false => cases h

theorem ofValue_forwardArguments {arguments : List Argument} {bindings : Option Bindings}
    {strict : Bool} {forwarded : List String} {fault : Fault}
    (h : (forwardArguments arguments bindings strict forwarded).result = .error fault) :
    fault.OfValue := by
  have hleaves : (faultsAmong Fault.OfValue).Leaves bindings bindings strict strict
      fun _ => True :=
    leaves_faultsAmong (fun _ name _ _ => .unbound name) (fun _ _ _ => .tooLong)
      (fun _ kind _ => .unrecognized kind)
  exact hleaves.forwardOver forwarded arguments (fun _ _ _ _ _ => trivial) [] fault h

theorem Logged.result_bind {α β : Type} (first : Logged α) (second : α → Logged β) :
    (first >>= second).result = first.result >>= fun value => (second value).result := by
  obtain ⟨result, notices⟩ := first
  cases result <;> rfl

theorem Logged.result_map {α β : Type} (f : α → β) (computation : Logged α) :
    (f <$> computation).result = computation.result.map f := by
  obtain ⟨result, notices⟩ := computation
  cases result <;> rfl

/-! ### What goes right -/

section Right

variable {bindings : Option Bindings} {strict : Bool}

theorem ok_of_convertItems {items : List Literal} {values : List Datum}
    (h : (Literal.convertItems bindings strict items).result = .ok values) :
    ∀ item ∈ items, ∃ value, (item.convert bindings strict).result = .ok value := by
  induction items generalizing values with
  | nil => exact fun _ hmem => nomatch hmem
  | cons first rest ih =>
      simp only [Literal.convertItems] at h
      rw [Logged.result_bind, bind_eq_ok] at h
      obtain ⟨value, hvalue, h⟩ := h
      rw [Logged.result_bind, bind_eq_ok] at h
      obtain ⟨others, hothers, -⟩ := h
      intro item hitem
      rcases List.mem_cons.mp hitem with rfl | hrest
      · exact ⟨value, hvalue⟩
      · exact ih hothers item hrest

theorem ok_of_convertFields {fields : List (String × Literal)}
    {before after : OrderedMap String Datum}
    (h : (Literal.convertFields bindings strict before fields).result = .ok after) :
    ∀ field ∈ fields, ∃ value, (field.2.convert bindings strict).result = .ok value := by
  induction fields generalizing before with
  | nil => exact fun _ hmem => nomatch hmem
  | cons first rest ih =>
      obtain ⟨name, item⟩ := first
      simp only [Literal.convertFields] at h
      rw [Logged.result_bind, bind_eq_ok] at h
      obtain ⟨value, hvalue, h⟩ := h
      intro field hfield
      rcases List.mem_cons.mp hfield with rfl | hrest
      · exact ⟨value, hvalue⟩
      · cases value with
        | none => exact ih h field hrest
        | some value => exact ih h field hrest

/-- A value converts only if all that occurs in it does. -/
theorem ok_of_within {part literal : Literal} (hwithin : part.Within literal)
    {value : Option Datum} (h : (literal.convert bindings strict).result = .ok value) :
    ∃ found, (part.convert bindings strict).result = .ok found := by
  induction hwithin generalizing value with
  | self => exact ⟨value, h⟩
  | @nested literal item hitem _ ih =>
      have hnested : ∃ found, (item.convert bindings strict).result = .ok found := by
        cases literal with
        | list items =>
            simp only [Literal.convert] at h
            rw [Logged.result_bind, bind_eq_ok] at h
            obtain ⟨values, hvalues, -⟩ := h
            exact ok_of_convertItems hvalues item hitem
        | object fields =>
            simp only [Literal.convert] at h
            rw [Logged.result_bind, bind_eq_ok] at h
            obtain ⟨after, hafter, -⟩ := h
            obtain ⟨field, hfield, rfl⟩ := List.mem_map.mp hitem
            exact ok_of_convertFields hafter field hfield
        | _ => cases hitem
      obtain ⟨found, hfound⟩ := hnested
      exact ih hfound

/-- Arguments are forwarded only if all of them convert. -/
theorem ok_of_forwardOver {forwarded : List String} {arguments : List Argument}
    {before after : OrderedMap String Datum}
    (h : (forwardOver bindings strict forwarded before arguments).result = .ok after) :
    ∀ argument ∈ arguments, argument.1 ∈ forwarded →
      ∃ value, (argument.2.convert bindings strict).result = .ok value := by
  intro argument hargument hforwarded
  rw [forwardOver_eq] at h
  exact ok_of_convertFields h argument
    (List.mem_filter.mpr ⟨hargument, decide_eq_true hforwarded⟩)

end Right

/-- Arguments are forwarded under forwarded names only, and once. -/
theorem keys_forwardOver {bindings : Option Bindings} {strict : Bool} {forwarded : List String}
    (arguments : List Argument) :
    ∀ {before after : OrderedMap String Datum},
      (forwardOver bindings strict forwarded before arguments).result = .ok after →
      (∀ name ∈ OrderedMap.keys before, name ∈ forwarded) → (OrderedMap.keys before).Nodup →
      (∀ name ∈ OrderedMap.keys after, name ∈ forwarded) ∧ (OrderedMap.keys after).Nodup := by
  induction arguments with
  | nil =>
      intro before after h hnames hnodup
      cases h
      exact ⟨hnames, hnodup⟩
  | cons argument rest ih =>
      intro before after h hnames hnodup
      obtain ⟨name, literal⟩ := argument
      simp only [forwardOver] at h
      split at h
      · rename_i hforwarded
        rw [Logged.result_bind, bind_eq_ok] at h
        obtain ⟨value, -, h⟩ := h
        cases value with
        | none => exact ih h hnames hnodup
        | some value =>
            refine ih h (fun other hother => ?_) (OrderedMap.nodup_keys_insert hnodup name value)
            rcases (OrderedMap.mem_keys_insert before name other value).mp hother with rfl | hbefore
            · simpa using hforwarded
            · exact hnames other hbefore
      · exact ih h hnames hnodup

theorem keys_forwardArguments {arguments : List Argument} {bindings : Option Bindings}
    {strict : Bool} {forwarded : List String} {after : OrderedMap String Datum}
    (h : (forwardArguments arguments bindings strict forwarded).result = .ok after) :
    (∀ name ∈ OrderedMap.keys after, name ∈ forwarded) ∧ (OrderedMap.keys after).Nodup :=
  keys_forwardOver arguments h (fun _ hname => nomatch hname) List.nodup_nil

end QueryProjection
