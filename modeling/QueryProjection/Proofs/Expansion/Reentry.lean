import Mathlib.Data.List.Perm.Subperm
import Mathlib.Data.List.ProdSigma
import Mathlib.Logic.Relation
import QueryProjection.Proofs.Expansion.Unguarded

/-!
# When an expansion has no end

The guarded walk stops where a fragment is entered at a type at which it is being expanded
already.  That is the right place to stop.  `Reenters` says that a walk comes to such a
spread, all that precedes it being walked without a fault, and three things are shown of it.

* From there the unguarded walk goes on forever: it is cut off at every depth
  (`endless_of_reenters`), because what it walks from the entry to the re-entry it will walk
  again, one level deeper.
* The guard never stops a walk elsewhere (`explained_enterWithin`).  The entries on the way
  down are distinct pairs of a fragment and a type that has fields, and there are fewer of
  these than the depth allows.
* Where the guard does not stop it, the guarded walk is the unguarded one.

Circles among the names of the fragments are no reason to stop.  Only a circle among entries
is, and these lead to one another through fields that are kept (`Leads`).
-/

namespace QueryProjection

namespace Expansion

/-- A fragment and the key of the type at which it is entered. -/
abbrev Entry := String × Option Key

/-- A selection is walked to its end without a fault, if fragments may nest deep enough. -/
def Completes (context : Context) (outlook : Outlook) (type : Option TypeName)
    (filter : FieldFilter) (selection : Selection) : Prop :=
  ∃ depth map, ∀ memory, context.outlook memory = outlook →
    (writeOne context (enterPlain context depth) type filter [] selection memory).result = .ok map

/-- The walk of some selections, within the entries that are being expanded, comes to a spread
that enters one of them again. -/
inductive Reenters (context : Context) (outlook : Outlook) :
    List Entry → Option TypeName → FieldFilter → List Selection → Prop where
  | again {active : List Entry} {type within : Option TypeName} {filter : FieldFilter}
      {name : String} {fragment : Fragment} {directives : List Directive} {rest : List Selection}
      (hdefined : context.definition? name = some fragment)
      (hwithin : outlook.typeWithin type (some fragment.condition) = .ok within)
      (hactive : (name, within.map TypeName.key) ∈ active) :
      Reenters context outlook active type filter (.spread name directives :: rest)
  | fragment {active : List Entry} {type within : Option TypeName} {filter inner : FieldFilter}
      {name : String} {fragment : Fragment} {directives : List Directive} {rest : List Selection}
      (hdefined : context.definition? name = some fragment)
      (hwithin : outlook.typeWithin type (some fragment.condition) = .ok within)
      (hfilter : outlook.filterAt within = .ok inner)
      (hinside : Reenters context outlook ((name, within.map TypeName.key) :: active) within inner
        fragment.selections) :
      Reenters context outlook active type filter (.spread name directives :: rest)
  | inline {active : List Entry} {type within : Option TypeName} {filter inner : FieldFilter}
      {condition : Option String} {directives : List Directive} {selections rest : List Selection}
      (hwithin : outlook.typeWithin type condition = .ok within)
      (hfilter : outlook.filterAt within = .ok inner)
      (hinside : Reenters context outlook active within inner selections) :
      Reenters context outlook active type filter (.inline condition directives selections :: rest)
  | field {active : List Entry} {type below : Option TypeName} {filter inner : FieldFilter}
      {aliasName : Option String} {name : String} {kind : FieldKind} {arguments : List Argument}
      {directives : List Directive} {selections rest : List Selection}
      (hkind : filter.classify name = some kind)
      (hbelow : outlook.typeBelow type name kind = .ok below)
      (hfilter : outlook.filterAt below = .ok inner)
      (hinside : Reenters context outlook active below inner selections) :
      Reenters context outlook active type filter
        (.field aliasName name arguments directives (some selections) :: rest)
  | later {active : List Entry} {type : Option TypeName} {filter : FieldFilter}
      {selection : Selection} {rest : List Selection}
      (hcompletes : Completes context outlook type filter selection)
      (hrest : Reenters context outlook active type filter rest) :
      Reenters context outlook active type filter (selection :: rest)

variable {context : Context} {enter : Enter} {type : Option TypeName} {filter : FieldFilter}

/-! ### Where a walk has no end -/

section Steps

variable {memory : Memory} (hsteady : context.Steady) (hsettled : SettledEnter context enter)

include hsteady hsettled

theorem endless_writeAll_cons {before : ProjectionMap} {selection : Selection}
    {rest : List Selection} :
    Endless (writeAll context enter type filter before (selection :: rest) memory).result ↔
      Endless (writeOne context enter type filter before selection memory).result ∨
        ∃ written, (writeOne context enter type filter before selection memory).result =
            .ok written ∧
          Endless (writeAll context enter type filter written rest memory).result := by
  rw [(gives_writeAll_cons hsteady hsettled before selection rest).result, endless_bind]

variable (hunaware : context.Unaware)

include hunaware

theorem endless_selectionSet {selections : List Selection} :
    Endless (selectionSet context enter type selections memory).result ↔
      ∃ filter, (context.outlook memory).filterAt type = .ok filter ∧
        Endless (writeAll context enter type filter [] selections memory).result := by
  rw [(gives_selectionSet hsteady hsettled type selections).result, endless_bind]
  exact or_iff_right (not_endless_filterAt hunaware memory type)

theorem endless_branch {before : ProjectionMap} {aliasName : Option String} {name : String}
    {kind : FieldKind} (hkind : filter.classify name = some kind) {arguments : List Argument}
    {directives : List Directive} {selections : List Selection} :
    Endless (writeOne context enter type filter before
        (.field aliasName name arguments directives (some selections)) memory).result ↔
      ∃ below inner, (context.outlook memory).typeBelow type name kind = .ok below ∧
        (context.outlook memory).filterAt below = .ok inner ∧
        Endless (writeAll context enter below inner [] selections memory).result := by
  rw [(gives_branch hsteady hsettled before hkind aliasName arguments directives
    selections).result, endless_bind]
  constructor
  · rintro (h | ⟨below, hbelow, h⟩)
    · exact absurd h (not_endless_typeBelow hunaware memory type name kind)
    · rcases endless_bind.mp h with h | ⟨select, _, h⟩
      · obtain ⟨inner, hinner, h⟩ := (endless_selectionSet hsteady hsettled hunaware).mp h
        exact ⟨below, inner, hbelow, hinner, h⟩
      · exact absurd h (not_endless_bind (not_endless_forwarded context arguments memory)
          fun _ => not_endless_ok _)
  · rintro ⟨below, inner, hbelow, hinner, h⟩
    exact Or.inr ⟨below, hbelow, endless_bind.mpr (Or.inl
      ((endless_selectionSet hsteady hsettled hunaware).mpr ⟨inner, hinner, h⟩))⟩

theorem endless_spread {before : ProjectionMap} {name : String} {fragment : Fragment}
    (hdefined : context.definition? name = some fragment) {directives : List Directive} :
    Endless (writeOne context enter type filter before (.spread name directives) memory).result ↔
      ∃ within, (context.outlook memory).typeWithin type (some fragment.condition) = .ok within ∧
        Endless (enter name fragment within memory).result := by
  rw [(gives_spread hsteady hsettled before name directives).result]
  simp only [hdefined]
  rw [endless_bind]
  constructor
  · rintro (h | ⟨within, hwithin, h⟩)
    · exact absurd h (not_endless_typeWithin hunaware memory type _)
    · rcases endless_bind.mp h with h | ⟨_, _, h⟩
      · exact ⟨within, hwithin, h⟩
      · exact absurd h (not_endless_ok _)
  · rintro ⟨within, hwithin, h⟩
    exact Or.inr ⟨within, hwithin, endless_bind.mpr (Or.inl h)⟩

theorem endless_inline {before : ProjectionMap} {condition : Option String}
    {directives : List Directive} {selections : List Selection} :
    Endless (writeOne context enter type filter before
        (.inline condition directives selections) memory).result ↔
      ∃ within inner, (context.outlook memory).typeWithin type condition = .ok within ∧
        (context.outlook memory).filterAt within = .ok inner ∧
        Endless (writeAll context enter within inner [] selections memory).result := by
  rw [(gives_inline hsteady hsettled before condition directives selections).result, endless_bind]
  constructor
  · rintro (h | ⟨within, hwithin, h⟩)
    · exact absurd h (not_endless_typeWithin hunaware memory type condition)
    · rcases endless_bind.mp h with h | ⟨_, _, h⟩
      · obtain ⟨inner, hinner, h⟩ := (endless_selectionSet hsteady hsettled hunaware).mp h
        exact ⟨within, inner, hwithin, hinner, h⟩
      · exact absurd h (not_endless_ok _)
  · rintro ⟨within, inner, hwithin, hinner, h⟩
    exact Or.inr ⟨within, hwithin, endless_bind.mpr (Or.inl
      ((endless_selectionSet hsteady hsettled hunaware).mpr ⟨inner, hinner, h⟩))⟩

end Steps

/-! ### From a re-entry there is no end -/

theorem writeOne_before (before : ProjectionMap) (selection : Selection) (memory : Memory) :
    (writeOne context enter type filter before selection memory).result =
      (writeOne context enter type filter [] selection memory).result >>= fun written =>
        .ok (OrderedMap.merge before written) := by
  rw [← writeAll_singleton, ← writeAll_singleton, writeAll_before before [selection],
    map_eq_pure_bind]
  cases h : (writeAll context enter type filter [] [selection] memory).result with
  | error fault =>
      rw [Compile.bind_of_error h]
      rfl
  | ok written =>
      rw [Compile.bind_of_ok h]
      rfl

theorem refines_writeOne {enter' : Enter} (h : refinement.Enters enter enter')
    (before : ProjectionMap) (selection : Selection) :
    Refines Eq (writeOne context enter type filter before selection)
      (writeOne context enter' type filter before selection) := by
  rw [← writeAll_singleton, ← writeAll_singleton]
  exact Correspondence.writeAll (refines_contexts context) h [selection] rfl rfl before

/-- A selection that completes is walked to its end at any depth at which it is not cut off. -/
theorem Completes.exists_ok {outlook : Outlook} {selection : Selection}
    (h : Completes context outlook type filter selection) (depth : Nat) {memory : Memory}
    (hm : context.outlook memory = outlook) (before : ProjectionMap)
    (hnot : ¬ Endless (writeOne context (enterPlain context depth) type filter before selection
      memory).result) :
    ∃ written, (writeOne context (enterPlain context depth) type filter before selection
      memory).result = .ok written := by
  obtain ⟨enough, map, hmap⟩ := h
  have hdeep := hmap memory hm
  rw [writeOne_before, endless_bind, not_or] at hnot
  -- both walks go as at a depth that is great enough for either
  have hhere := Refines.eq_of_not_endless
    (refines_writeOne (refines_enterPlain context (Nat.le_max_left depth enough)) [] selection)
    hnot.1
  have hthere := Refines.eq_of_not_endless
    (refines_writeOne (refines_enterPlain context (Nat.le_max_right depth enough)) [] selection)
    (hdeep ▸ not_endless_ok map)
  refine ⟨OrderedMap.merge before map, ?_⟩
  rw [writeOne_before, ← hhere, hthere, hdeep]
  rfl

/-- Unguarded, whatever is being expanded is cut off at a depth. -/
def CutOff (context : Context) (memory : Memory) (depth : Nat) (active : List Entry) : Prop :=
  ∀ name fragment within, context.definition? name = some fragment →
    (name, within.map TypeName.key) ∈ active →
    Endless (enterPlain context depth name fragment within memory).result

theorem CutOff.of_succ {memory : Memory} {depth : Nat} {active : List Entry}
    (h : CutOff context memory (depth + 1) active) : CutOff context memory depth active := by
  intro name fragment within hdefined hactive
  refine Classical.byContradiction fun hnot => ?_
  have hsame := Refines.eq_of_not_endless
    (refines_enterPlain context (Nat.le_succ depth) name fragment within within trivial rfl) hnot
  exact hnot (hsame ▸ h name fragment within hdefined hactive)

theorem CutOff.cons (hsteady : context.Steady) {memory : Memory} {depth : Nat}
    {active : List Entry} (h : CutOff context memory depth active) {name : String}
    {fragment : Fragment} {within : Option TypeName}
    (hdefined : context.definition? name = some fragment)
    (hentry : Endless (enterPlain context depth name fragment within memory).result) :
    CutOff context memory depth ((name, within.map TypeName.key) :: active) := by
  intro other fragment' within' hdefined' hactive
  rcases List.mem_cons.mp hactive with heq | hmem
  · obtain ⟨rfl, hkey⟩ := Prod.mk.inj heq
    rw [hdefined] at hdefined'
    cases hdefined'
    exact endless_enterPlain_of_key hsteady hkey.symm hentry
  · exact h other fragment' within' hdefined' hmem

/-- A walk that comes to a re-entry is cut off at every depth at which the entries that are
being expanded are. -/
theorem endless_of_reenters (hsteady : context.Steady) (hunaware : context.Unaware)
    {outlook : Outlook} {active : List Entry} {selections : List Selection}
    (h : Reenters context outlook active type filter selections) :
    ∀ depth memory before, context.outlook memory = outlook →
      CutOff context memory depth active →
      Endless (writeAll context (enterPlain context depth) type filter before selections
        memory).result := by
  induction h with
  | @again active type within filter name fragment directives rest hdefined hwithin hactive =>
      rintro depth memory before rfl hcut
      have hsettled := settled_enterPlain hsteady depth
      refine (endless_writeAll_cons hsteady hsettled).mpr (Or.inl ?_)
      refine (endless_spread hsteady hsettled hunaware hdefined).mpr ⟨within, hwithin, ?_⟩
      exact hcut name fragment within hdefined hactive
  | @fragment active type within filter inner name fragment directives rest hdefined hwithin
      hfilter _ ih =>
      rintro depth memory before rfl hcut
      -- the body is walked one level deeper, where the entry itself is cut off already
      have hentry : ∀ depth, CutOff context memory depth active →
          Endless (enterPlain context depth name fragment within memory).result := by
        intro depth
        induction depth with
        | zero => exact fun _ => endless_stop name within memory
        | succ depth ihDepth =>
            intro hcut
            have hcons := hcut.of_succ.cons hsteady hdefined (ihDepth hcut.of_succ)
            rw [enterPlain_succ, endless_selectionSet hsteady (settled_enterPlain hsteady depth)
              hunaware]
            exact ⟨inner, hfilter, ih depth memory [] rfl hcons⟩
      have hsettled := settled_enterPlain hsteady depth
      refine (endless_writeAll_cons hsteady hsettled).mpr (Or.inl ?_)
      exact (endless_spread hsteady hsettled hunaware hdefined).mpr
        ⟨within, hwithin, hentry depth hcut⟩
  | @inline active type within filter inner condition directives selections rest hwithin hfilter
      _ ih =>
      rintro depth memory before rfl hcut
      have hsettled := settled_enterPlain hsteady depth
      refine (endless_writeAll_cons hsteady hsettled).mpr (Or.inl ?_)
      exact (endless_inline hsteady hsettled hunaware).mpr
        ⟨within, inner, hwithin, hfilter, ih depth memory [] rfl hcut⟩
  | @field active type below filter inner aliasName name kind arguments directives selections rest
      hkind hbelow hfilter _ ih =>
      rintro depth memory before rfl hcut
      have hsettled := settled_enterPlain hsteady depth
      refine (endless_writeAll_cons hsteady hsettled).mpr (Or.inl ?_)
      exact (endless_branch hsteady hsettled hunaware hkind).mpr
        ⟨below, inner, hbelow, hfilter, ih depth memory [] rfl hcut⟩
  | @later active type filter selection rest hcompletes _ ih =>
      rintro depth memory before rfl hcut
      rw [endless_writeAll_cons hsteady (settled_enterPlain hsteady depth)]
      by_cases hone : Endless (writeOne context (enterPlain context depth) type filter before
          selection memory).result
      · exact Or.inl hone
      · obtain ⟨written, hwritten⟩ := hcompletes.exists_ok depth rfl before hone
        exact Or.inr ⟨written, hwritten, ih depth memory written rfl hcut⟩

/-! ### The guard stops no other walk -/

/-- Without a model there are no types. -/
def Placed (context : Context) (type : Option TypeName) : Prop :=
  context.options.target = none → type = none

section Places

variable {memory : Memory}

theorem placed_root : Placed context context.root := by
  intro htarget
  rw [Context.root, htarget]
  rfl

theorem Placed.within (h : Placed context type) {condition : Option String}
    {within : Option TypeName}
    (hwithin : (context.outlook memory).typeWithin type condition = .ok within) :
    Placed context within := by
  intro htarget
  rw [h htarget] at hwithin
  cases hwithin
  rfl

theorem Placed.below {field : String} {kind : FieldKind} {below : Option TypeName}
    (hbelow : (context.outlook memory).typeBelow type field kind = .ok below) :
    Placed context below := by
  intro htarget
  simp only [Context.outlook, htarget] at hbelow
  cases hbelow
  rfl

/-- The keys of the types that may have a filter, and of the place without a type. -/
def typeKeys (context : Context) (memory : Memory) : List (Option Key) :=
  none :: match context.options.target with
    | none => []
    | some target =>
        (target.source.types ++ memory.cache.map Prod.fst ++
          memory.filters.map fun entry => entry.1.type).map some

theorem mem_typeKeys (hplaced : Placed context type)
    (hfilter : (context.outlook memory).filterAt type = .ok filter) :
    type.map TypeName.key ∈ typeKeys context memory := by
  cases htarget : context.options.target with
  | none =>
      rw [hplaced htarget]
      exact List.mem_cons_self ..
  | some target =>
      cases type with
      | none => exact List.mem_cons_self ..
      | some name =>
          simp only [typeKeys, htarget]
          refine List.mem_cons_of_mem _ (List.mem_map_of_mem ?_)
          simp only [Context.outlook, htarget, Memory.filterOf] at hfilter
          simp only [List.mem_append]
          split at hfilter
          · rename_i issued hfound
            obtain ⟨known, hentry, htype, -⟩ := Memory.exists_of_filter? hfound
            exact Or.inr (List.mem_map.mpr ⟨(known, issued), hentry, htype⟩)
          · refine Or.inl ?_
            split at hfilter
            · rename_i fields hfields
              rw [Memory.fieldsOf_eq_ok, Memory.described] at hfields
              split at hfields
              · rename_i cached hcached
                obtain ⟨found, hfound, -⟩ := Option.map_eq_some_iff.mp hcached
                refine Or.inr (Classical.byContradiction fun hnot => ?_)
                rw [(OrderedMap.get?_eq_none_iff memory.cache name.key).mpr hnot] at hfound
                cases hfound
              · exact Or.inl (target.source.listed _ _ _ hfields)
            · cases hfilter

def entries (context : Context) (memory : Memory) : List Entry :=
  (OrderedMap.keys (context.fragments.getD [])) ×ˢ typeKeys context memory

theorem length_entries (context : Context) (memory : Memory) :
    (entries context memory).length + 1 = budget context memory := by
  simp only [entries, List.length_product, OrderedMap.keys, List.length_map, typeKeys, budget]
  cases context.options.target with
  | none => rfl
  | some target =>
      simp only [List.length_cons, List.length_map, List.length_append]

theorem mem_keys_of_definition? {name : String} {fragment : Fragment}
    (h : context.definition? name = some fragment) :
    name ∈ OrderedMap.keys (context.fragments.getD []) := by
  unfold Context.definition? at h
  cases htable : context.fragments with
  | none =>
      rw [htable] at h
      cases h
  | some table =>
      rw [htable] at h
      exact List.mem_map_of_mem (OrderedMap.mem_of_get? h)

theorem mem_entries {name : String} {fragment : Fragment}
    (hdefined : context.definition? name = some fragment) (hplaced : Placed context type)
    (hfilter : (context.outlook memory).filterAt type = .ok filter) :
    (name, type.map TypeName.key) ∈ entries context memory :=
  List.mem_product.mpr ⟨mem_keys_of_definition? hdefined, mem_typeKeys hplaced hfilter⟩

/-- There is room for the entries that may still be expanded within those that are. -/
structure Spare (context : Context) (memory : Memory) (depth : Nat) (active : List Entry) :
    Prop where
  nodup : active.Nodup
  among : active ⊆ entries context memory
  length : active.length + depth = budget context memory

namespace Spare

variable {depth : Nat} {active : List Entry}

theorem start (context : Context) (memory : Memory) :
    Spare context memory (budget context memory) [] :=
  ⟨List.nodup_nil, List.nil_subset _, Nat.zero_add _⟩

/-- At depth zero more entries would be active than there are. -/
theorem depth_ne_zero (h : Spare context memory depth active) : depth ≠ 0 := by
  have hle := (List.subperm_of_subset h.nodup h.among).length_le
  have hentries := length_entries context memory
  have hlength := h.length
  omega

theorem cons (h : Spare context memory (depth + 1) active) {entry : Entry}
    (hnot : active.contains entry ≠ true) (hentry : entry ∈ entries context memory) :
    Spare context memory depth (entry :: active) := by
  refine ⟨List.nodup_cons.mpr ⟨fun hmem => hnot (List.contains_iff_mem.mpr hmem), h.nodup⟩,
    List.cons_subset.mpr ⟨hentry, h.among⟩, ?_⟩
  have hlength := h.length
  rw [List.length_cons]
  omega

end Spare

end Places

/-- If a fragment is entered without end, within the entries that are being expanded, then a
re-entry is to blame. -/
def Explained (context : Context) (memory : Memory) (enter : Enter) (active : List Entry) :
    Prop :=
  ∀ name fragment type, context.definition? name = some fragment → Placed context type →
    Endless (enter name fragment type memory).result →
    (name, type.map TypeName.key) ∈ active ∨
      ∃ inner, (context.outlook memory).filterAt type = .ok inner ∧
        Reenters context (context.outlook memory) ((name, type.map TypeName.key) :: active) type
          inner fragment.selections

section Guarded

variable {memory : Memory} {depth : Nat} {active : List Entry} (hsteady : context.Steady)
  (hunaware : context.Unaware) (hsettled : SettledEnter context enter)
  (henter : Explained context memory enter active)

include hsteady

theorem completes_of_ok (hrefines : refinement.Enters enter (enterPlain context depth))
    {before written : ProjectionMap} {selection : Selection}
    (h : (writeOne context enter type filter before selection memory).result = .ok written) :
    Completes context (context.outlook memory) type filter selection := by
  rw [writeOne_before, bind_eq_ok] at h
  obtain ⟨map, hmap, -⟩ := h
  have hsame := Refines.eq_of_not_endless (refines_writeOne hrefines [] selection)
    (hmap ▸ not_endless_ok map)
  refine ⟨depth, map, fun memory' hm => ?_⟩
  have hsettled := settled_writeOne hsteady (settled_enterPlain hsteady depth) type filter []
    selection
  rw [hsettled.result_eq hm, hsame, hmap]

include hunaware hsettled henter

theorem reenters_of_endless_writeOne {selection : Selection} {rest : List Selection}
    (hnested : ∀ (type : Option TypeName) filter before, Placed context type →
      Endless (writeAll context enter type filter before selection.nested memory).result →
      Reenters context (context.outlook memory) active type filter selection.nested)
    (hplaced : Placed context type) {before : ProjectionMap}
    (h : Endless (writeOne context enter type filter before selection memory).result) :
    Reenters context (context.outlook memory) active type filter (selection :: rest) := by
  cases selection with
  | field aliasName name arguments directives selections =>
      cases hkind : filter.classify name with
      | none =>
          rw [writeOne_dropped before hkind] at h
          exact absurd h (not_endless_ok before)
      | some kind =>
          cases selections with
          | none =>
              rw [writeOne_leaf before hkind] at h
              exact absurd h (not_endless_ok _)
          | some selections =>
              obtain ⟨below, inner, hbelow, hinner, hinside⟩ :=
                (endless_branch hsteady hsettled hunaware hkind).mp h
              exact .field hkind hbelow hinner (hnested below inner [] (.below hbelow) hinside)
  | spread name directives =>
      cases hdefined : context.definition? name with
      | none =>
          rw [(gives_spread hsteady hsettled before name directives).result] at h
          simp only [hdefined] at h
          split at h
          · exact absurd h fun h => endless_error.mp h
          · exact absurd h (not_endless_ok before)
      | some fragment =>
          obtain ⟨within, hwithin, hentered⟩ :=
            (endless_spread hsteady hsettled hunaware hdefined).mp h
          rcases henter name fragment within hdefined (hplaced.within hwithin) hentered with
            hactive | ⟨inner, hinner, hinside⟩
          · exact .again hdefined hwithin hactive
          · exact .fragment hdefined hwithin hinner hinside
  | inline condition directives selections =>
      obtain ⟨within, inner, hwithin, hinner, hinside⟩ :=
        (endless_inline hsteady hsettled hunaware).mp h
      exact .inline hwithin hinner (hnested within inner [] (hplaced.within hwithin) hinside)
  | other name =>
      rw [writeOne_other] at h
      exact absurd h fun h => endless_error.mp h

theorem reenters_of_endless (hrefines : refinement.Enters enter (enterPlain context depth))
    (selections : List Selection) :
    ∀ (type : Option TypeName) filter before, Placed context type →
      Endless (writeAll context enter type filter before selections memory).result →
      Reenters context (context.outlook memory) active type filter selections := by
  induction selections using Selection.listInduction with
  | nil =>
      intro type filter before _ h
      rw [writeAll_nil] at h
      exact absurd h (not_endless_ok before)
  | cons selection rest ihNested ih =>
      intro type filter before hplaced h
      rcases (endless_writeAll_cons hsteady hsettled).mp h with hone | ⟨written, hwritten, hrest⟩
      · exact reenters_of_endless_writeOne hsteady hunaware hsettled henter ihNested hplaced hone
      · exact .later (completes_of_ok hsteady hrefines hwritten)
          (ih type filter written hplaced hrest)

end Guarded

theorem explained_enterWithin (hsteady : context.Steady) (hunaware : context.Unaware)
    {memory : Memory} {depth : Nat} :
    ∀ {active : List Entry}, Spare context memory depth active →
      Explained context memory (enterWithin context depth active) active := by
  induction depth with
  | zero => exact fun hspare => absurd rfl hspare.depth_ne_zero
  | succ depth ih =>
      intro active hspare name fragment type hdefined hplaced h
      rw [enterWithin_succ] at h
      split at h
      · rename_i hcontains
        exact Or.inl (List.contains_iff_mem.mp hcontains)
      · rename_i hcontains
        have hsettled := settled_enterWithin hsteady depth ((name, type.map TypeName.key) :: active)
        obtain ⟨inner, hinner, hinside⟩ := (endless_selectionSet hsteady hsettled hunaware).mp h
        have hexplained := ih (hspare.cons hcontains (mem_entries hdefined hplaced hinner))
        exact Or.inr ⟨inner, hinner, reenters_of_endless hsteady hunaware hsettled hexplained
          (refines_enterWithin context (Nat.le_refl depth) _) fragment.selections type inner []
          hplaced hinside⟩

/-! ### Circles -/

/-- The walk of some selections, not following any spread, comes to a spread that enters. -/
inductive Comes (context : Context) (outlook : Outlook) :
    Option TypeName → List Selection → Entry → Prop where
  | spread {type within : Option TypeName} {name : String} {fragment : Fragment}
      {directives : List Directive} {rest : List Selection}
      (hdefined : context.definition? name = some fragment)
      (hwithin : outlook.typeWithin type (some fragment.condition) = .ok within) :
      Comes context outlook type (.spread name directives :: rest)
        (name, within.map TypeName.key)
  | inline {type within : Option TypeName} {condition : Option String}
      {directives : List Directive} {selections rest : List Selection} {entry : Entry}
      (hwithin : outlook.typeWithin type condition = .ok within)
      (hinside : Comes context outlook within selections entry) :
      Comes context outlook type (.inline condition directives selections :: rest) entry
  | field {type below : Option TypeName} {filter : FieldFilter} {aliasName : Option String}
      {name : String} {kind : FieldKind} {arguments : List Argument}
      {directives : List Directive} {selections rest : List Selection} {entry : Entry}
      (hfilter : outlook.filterAt type = .ok filter) (hkind : filter.classify name = some kind)
      (hbelow : outlook.typeBelow type name kind = .ok below)
      (hinside : Comes context outlook below selections entry) :
      Comes context outlook type
        (.field aliasName name arguments directives (some selections) :: rest) entry
  | later {type : Option TypeName} {selection : Selection} {rest : List Selection} {entry : Entry}
      (hrest : Comes context outlook type rest entry) :
      Comes context outlook type (selection :: rest) entry

/-- Expanding one entry, the walk comes to another, through fields that are kept. -/
def Leads (context : Context) (outlook : Outlook) (entry next : Entry) : Prop :=
  ∃ fragment type, context.definition? entry.1 = some fragment ∧
    type.map TypeName.key = entry.2 ∧ Comes context outlook type fragment.selections next

def Mentions (selections : List Selection) (name : String) : Prop :=
  Selection.Somewhere (fun selection => ∃ directives, selection = .spread name directives) selections

def Spreads (context : Context) (name next : String) : Prop :=
  ∃ fragment, context.definition? name = some fragment ∧ Mentions fragment.selections next

theorem Comes.mentions {outlook : Outlook} {selections : List Selection} {entry : Entry}
    (h : Comes context outlook type selections entry) : Mentions selections entry.1 := by
  induction h with
  | spread _ _ => exact .here ⟨_, rfl⟩
  | inline _ _ ih => exact .nested ih
  | field _ _ _ _ ih => exact .nested ih
  | later _ ih => exact .later ih

theorem Leads.spreads {outlook : Outlook} {entry next : Entry}
    (h : Leads context outlook entry next) : Spreads context entry.1 next.1 := by
  obtain ⟨fragment, type, hdefined, -, hcomes⟩ := h
  exact ⟨fragment, hdefined, hcomes.mentions⟩

/-- A re-entry closes a circle of entries. -/
theorem exists_circle_of_reenters {outlook : Outlook} {active : List Entry}
    {selections : List Selection} (h : Reenters context outlook active type filter selections)
    (hfilter : outlook.filterAt type = .ok filter)
    (hactive : ∀ entry ∈ active, ∀ next, Comes context outlook type selections next →
      Relation.TransGen (Leads context outlook) entry next) :
    ∃ entry, Relation.TransGen (Leads context outlook) entry entry := by
  induction h with
  | @again active type within filter name fragment directives rest hdefined hwithin hmem =>
      exact ⟨_, hactive _ hmem _ (.spread hdefined hwithin)⟩
  | @fragment active type within filter inner name fragment directives rest hdefined hwithin
      hinner _ ih =>
      refine ih hinner fun entry hentry next hnext => ?_
      have hleads : Leads context outlook (name, within.map TypeName.key) next :=
        ⟨fragment, within, hdefined, rfl, hnext⟩
      rcases List.mem_cons.mp hentry with rfl | hmem
      · exact .single hleads
      · exact (hactive entry hmem _ (.spread hdefined hwithin)).tail hleads
  | @inline active type within filter inner condition directives selections rest hwithin hinner
      _ ih =>
      exact ih hinner fun entry hentry next hnext => hactive entry hentry next (.inline hwithin hnext)
  | @field active type below filter inner aliasName name kind arguments directives selections rest
      hkind hbelow hinner _ ih =>
      exact ih hinner fun entry hentry next hnext =>
        hactive entry hentry next (.field hfilter hkind hbelow hnext)
  | @later active type filter selection rest _ _ ih =>
      exact ih hfilter fun entry hentry next hnext => hactive entry hentry next (.later hnext)

/-! ### Whole compilations -/

section Compilations

variable {memory : Memory} (hsteady : context.Steady) (hunaware : context.Unaware)
  {selections : Option (List Selection)}

def ReentersFromRoot (context : Context) (outlook : Outlook) (selections : List Selection) :
    Prop :=
  outlook.root = .ok () ∧ ∃ filter, outlook.filterAt context.root = .ok filter ∧
    Reenters context outlook [] context.root filter selections

include hsteady

/-- A compilation that the guard does not stop is the unguarded one, at any depth from some
depth on. -/
theorem exists_compilePlain_eq
    (h : ¬ Endless (compileSelections context selections memory).result) :
    ∃ depth, ∀ deeper, depth ≤ deeper →
      compilePlain context deeper selections memory =
        compileSelections context selections memory := by
  refine ⟨budget context (context.checkRoot memory).memory, fun deeper hdeeper => ?_⟩
  cases hroot : (context.outlook memory).root with
  | error fault =>
      rw [compilePlain, compileSelections, compileEntering_of_unrooted hsteady _ _ hroot,
        compileEntering_of_unrooted hsteady _ _ hroot]
  | ok =>
      rw [compileSelections, compileEntering_of_root hsteady _ _ hroot] at h
      rw [compilePlain, compileSelections, compileEntering_of_root hsteady _ _ hroot,
        compileEntering_of_root hsteady _ _ hroot]
      exact Refines.eq_of_not_endless (Correspondence.selectionSet (refines_contexts context)
        (refines_enterWithin context hdeeper []) rfl _) h

include hunaware

theorem endless_compileEntering {entering : Memory → Enter}
    (hsettled : ∀ after, SettledEnter context (entering after)) :
    Endless (compileEntering context entering selections memory).result ↔
      (context.outlook memory).root = .ok () ∧
        ∃ filter, (context.outlook memory).filterAt context.root = .ok filter ∧
          Endless (writeAll context (entering (context.checkRoot memory).memory) context.root
            filter [] (selections.getD []) (context.checkRoot memory).memory).result := by
  cases hroot : (context.outlook memory).root with
  | error fault =>
      rw [compileEntering_of_unrooted hsteady entering selections hroot]
      constructor
      · intro h
        have hunrooted : Endless (context.outlook memory).root := by
          rw [hroot]
          exact endless_error.mpr (endless_error.mp h)
        exact absurd hunrooted (not_endless_root hunaware memory)
      · rintro ⟨h, _⟩
        cases h
  | ok =>
      rw [compileEntering_of_root hsteady entering selections hroot,
        endless_selectionSet hsteady (hsettled _) hunaware,
        (Context.finds_checkRoot hsteady).keeps memory]
      exact (and_iff_right rfl).symm

theorem endless_compilePlain
    (h : ReentersFromRoot context (context.outlook memory) (selections.getD [])) (depth : Nat) :
    Endless (compilePlain context depth selections memory).result := by
  obtain ⟨hroot, filter, hfilter, hreenters⟩ := h
  refine (endless_compileEntering hsteady hunaware fun _ =>
    settled_enterPlain hsteady depth).mpr ⟨hroot, filter, hfilter, ?_⟩
  refine endless_of_reenters hsteady hunaware hreenters depth _ []
    ((Context.finds_checkRoot hsteady).keeps memory) ?_
  intro name fragment within _ hactive
  cases hactive

theorem reenters_of_endless_compileSelections
    (h : Endless (compileSelections context selections memory).result) :
    ReentersFromRoot context (context.outlook memory) (selections.getD []) := by
  obtain ⟨hroot, filter, hfilter, hendless⟩ :=
    (endless_compileEntering hsteady hunaware fun _ =>
      settled_enterWithin hsteady _ []).mp h
  have hkeeps := (Context.finds_checkRoot hsteady).keeps memory
  have hexplained := explained_enterWithin hsteady hunaware
    (Spare.start context (context.checkRoot memory).memory)
  have hreenters := reenters_of_endless hsteady hunaware (settled_enterWithin hsteady _ [])
    hexplained (refines_enterWithin context (Nat.le_refl _) []) (selections.getD [])
    context.root filter [] placed_root hendless
  exact ⟨hroot, filter, hfilter, hkeeps ▸ hreenters⟩

end Compilations

/-- A compilation fails for want of an end exactly if its walk comes to a spread of a fragment
at a type at which that fragment is being expanded already.  The walk without a guard then goes
on forever, and in every other case it ends, and as the guarded one does.  So there is an end
wherever no entry leads back to itself, and all the more where no fragment spreads itself, be it
by way of others. -/
theorem compileSelections_endless_iff (hsteady : context.Steady) (hunaware : context.Unaware)
    (selections : Option (List Selection)) (memory : Memory) :
    let outlook := context.outlook memory
    let outcome := compileSelections context selections memory
    (Endless outcome.result ↔ ReentersFromRoot context outlook (selections.getD [])) ∧
      (Endless outcome.result →
        ∀ depth, Endless (compilePlain context depth selections memory).result) ∧
      (¬ Endless outcome.result → ∃ depth, ∀ deeper, depth ≤ deeper →
        compilePlain context deeper selections memory = outcome) ∧
      ((∀ entry, ¬ Relation.TransGen (Leads context outlook) entry entry) →
        ¬ Endless outcome.result) ∧
      ((∀ name, ¬ Relation.TransGen (Spreads context) name name) → ¬ Endless outcome.result) := by
  intro outlook outcome
  have hreenters : Endless outcome.result →
      ReentersFromRoot context outlook (selections.getD []) :=
    reenters_of_endless_compileSelections hsteady hunaware
  have hplain : ReentersFromRoot context outlook (selections.getD []) →
      ∀ depth, Endless (compilePlain context depth selections memory).result :=
    endless_compilePlain hsteady hunaware
  have hsame : ¬ Endless outcome.result → ∃ depth, ∀ deeper, depth ≤ deeper →
      compilePlain context deeper selections memory = outcome :=
    exists_compilePlain_eq hsteady
  have hcircle : Endless outcome.result →
      ∃ entry, Relation.TransGen (Leads context outlook) entry entry := by
    intro h
    obtain ⟨-, filter, hfilter, hwalk⟩ := hreenters h
    refine exists_circle_of_reenters hwalk hfilter fun entry hentry => ?_
    cases hentry
  refine ⟨⟨hreenters, fun h => ?_⟩, fun h => hplain (hreenters h), hsame, fun hacyclic h => ?_,
    fun hacyclic h => ?_⟩
  · refine Classical.byContradiction fun hnot => ?_
    obtain ⟨depth, hdepth⟩ := hsame hnot
    exact hnot (hdepth depth (Nat.le_refl depth) ▸ hplain h depth)
  · obtain ⟨entry, hentry⟩ := hcircle h
    exact hacyclic entry hentry
  · obtain ⟨entry, hentry⟩ := hcircle h
    exact hacyclic entry.1 (hentry.lift Prod.fst fun _ _ hleads => hleads.spreads)

theorem unaware_aboutPeople (fragments : List (String × String × List Selection)) :
    (aboutPeople fragments).Unaware := by
  intro target htarget
  cases htarget
  exact Source.unaware_ofTable _

/-- A fragment on no model in particular, which spreads itself among the posts of what it is
spread on. -/
def amongTitles : Context :=
  aboutPeople [("Titles", "Node",
    [plainField "title" none, plainField "posts" (some [.spread "Titles" []])])]

theorem result_titles :
    (compileSelections amongTitles (some [.spread "Titles" []]) Memory.empty).result =
      .ok [("posts", .relation [("title", .leaf)] [])] := by
  rfl

/-- Posts have no posts, so the fragment that spreads itself is entered twice only, once for
people and once for posts, with or without a guard. -/
theorem endless_iff_titles :
    amongTitles.Steady ∧ amongTitles.Unaware ∧ Spreads amongTitles "Titles" "Titles" ∧
      ∃ depth, ∀ deeper, depth ≤ deeper →
        (compilePlain amongTitles deeper (some [.spread "Titles" []]) Memory.empty).result =
          .ok [("posts", .relation [("title", .leaf)] [])] := by
  have hsteady : amongTitles.Steady := steady_aboutPeople _
  have hunaware : amongTitles.Unaware := unaware_aboutPeople _
  have hspreads : Spreads amongTitles "Titles" "Titles" :=
    ⟨_, rfl, .later (.nested (.here ⟨[], rfl⟩))⟩
  obtain ⟨-, -, hsame, -, -⟩ :=
    compileSelections_endless_iff hsteady hunaware (some [.spread "Titles" []]) Memory.empty
  obtain ⟨depth, hdepth⟩ := hsame (result_titles ▸ not_endless_ok _)
  refine ⟨hsteady, hunaware, hspreads, depth, fun deeper hdeeper => ?_⟩
  rw [hdepth deeper hdeeper]
  exact result_titles

end Expansion

end QueryProjection
