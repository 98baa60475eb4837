import QueryProjection.Proofs.Expansion.Lenient
import QueryProjection.Proofs.Expansion.Revisions
import QueryProjection.Proofs.Expansion.WellFormed
import QueryProjection.Proofs.Values

/-!
# Which arguments a projection passes on

Under each name of a projection stands a field of the query, and with it what is forwarded of its
arguments (`exists_branch_of_passes`).  Unless one is strict, a variable without a value and a value
of an unknown kind are left out of whatever they stand in: of a list, of an object, and of the
arguments of a field.  They are left out where they stand and nowhere else, and so they never reach
a projection, at any depth (`unvalued_left_out`).
-/

namespace QueryProjection

theorem Selection.Somewhere.of_append {sort : Selection → Prop} {first second : List Selection}
    (h : Somewhere sort (first ++ second)) : Somewhere sort first ∨ Somewhere sort second := by
  induction first with
  | nil => exact Or.inr h
  | cons selection rest ih =>
      cases h with
      | here h => exact Or.inl (.here h)
      | nested h => exact Or.inl (.nested h)
      | later h => exact (ih h).imp .later id

namespace Expansion

variable {context : Context} {nodes : List Field}

/-! ### Where the fields of a level stand -/

/-- All fields with a selection set among the selections stand in a query. -/
def BranchesIn (context : Context) (nodes : List Field) (selections : List Selection) : Prop :=
  ∀ name given, Selection.HasBranch name given selections → context.HasBranch nodes name given

theorem branchesIn_selectionsOf (nodes : List Field) :
    BranchesIn context nodes (selectionsOf nodes) := by
  suffices h : ∀ later, (∀ node ∈ later, node ∈ nodes) →
      BranchesIn context nodes (selectionsOf later) from h nodes fun _ hnode => hnode
  intro later hlater name given hbranch
  induction later with
  | nil => cases hbranch
  | cons node rest ih =>
      rw [List.forall_mem_cons] at hlater
      rcases hbranch.of_append with hfirst | hrest
      · exact .node hlater.1 hfirst
      · exact ih hlater.2 hrest

/-- A field that is selected at a level and has a selection set stands in the query, and so do the
fields below it. -/
theorem hasBranch_of_selects {selections : List Selection} {field : Field}
    (h : Selects context selections field) {below : List Selection}
    (hset : field.selectionSet = some below) : BranchesIn context nodes selections →
      context.HasBranch nodes field.name field.arguments ∧ BranchesIn context nodes below := by
  induction h with
  | here =>
      intro hall
      cases hset
      exact ⟨hall _ _ (.here ⟨_, _, _, rfl⟩), fun name given hbranch =>
        hall name given (.nested hbranch)⟩
  | inline _ ih =>
      exact fun hall => ih hset fun name given hbranch => hall name given (.nested hbranch)
  | spread hdefined _ ih => exact fun _ => ih hset fun name given => .fragment hdefined
  | later _ ih =>
      exact fun hall => ih hset fun name given hbranch => hall name given (.later hbranch)

/-! ### What stands under a name -/

/-- At a level, or in the selection of one of its values at any depth, an object stands under the
name, and these are its arguments. -/
inductive Passes (name : String) (arguments : OrderedMap String Datum) :
    List (String × Datum) → Prop where
  | here {entries : List (String × Datum)} {fields : OrderedMap String Datum}
      (hvalue : (name, .object fields) ∈ entries)
      (harguments : arguments = OrderedMap.erase fields "select") : Passes name arguments entries
  | deeper {entries inner : List (String × Datum)} {other : String}
      {fields : OrderedMap String Datum} (hvalue : (other, .object fields) ∈ entries)
      (hselect : OrderedMap.get? fields "select" = some (.object inner))
      (h : Passes name arguments inner) : Passes name arguments entries

theorem Level.of_mem {selections : List Selection} {name : String} {value : Datum} :
    ∀ {entries : List (String × Datum)}, Level context selections entries →
      (name, value) ∈ entries → ∃ field, Selects context selections field ∧ field.name = name ∧
        WellFormed context field value
  | _, .cons hselects _ _ _ hvalue hrest, hmem => by
      rcases List.mem_cons.mp hmem with heq | hmem
      · cases heq
        exact ⟨_, hselects, rfl, hvalue⟩
      · exact hrest.of_mem hmem

/-- No argument that is forwarded goes by the name of a selection. -/
theorem Forwards.not_select {field : Field} {forwarded : OrderedMap String Datum}
    (h : Forwards context field forwarded) : "select" ∉ OrderedMap.keys forwarded :=
  fun hselect => absurd (h.names _ hselect) (by decide)

theorem Forwards.erase {field : Field} {forwarded : OrderedMap String Datum}
    (h : Forwards context field forwarded) : OrderedMap.erase forwarded "select" = forwarded := by
  refine List.filter_eq_self.mpr fun entry hentry => bne_iff_ne.mpr fun hname => ?_
  exact h.not_select (hname ▸ List.mem_map_of_mem hentry)

/-- An object that stands for a field is what is forwarded of its arguments, with the selection of
the next level in front if there is one. -/
theorem WellFormed.parts {field : Field} {fields : OrderedMap String Datum}
    (h : WellFormed context field (.object fields)) :
    ∃ below, field.selectionSet = some below ∧
      Forwards context field (OrderedMap.erase fields "select") ∧
      ∀ inner, OrderedMap.get? fields "select" = some (.object inner) →
        Level context below inner := by
  cases h with
  | @arguments _ below _ hset _ hforwards _ =>
      refine ⟨below, hset, hforwards.erase.symm ▸ hforwards, fun inner hselect => ?_⟩
      rw [(OrderedMap.get?_eq_none_iff _ _).mpr hforwards.not_select] at hselect
      cases hselect
  | @selection _ below map forwarded hset _ _ hlevel hforwards =>
      refine ⟨below, hset, ?_, fun inner hselect => ?_⟩
      · have herase : OrderedMap.erase (("select", .object (Node.mapToData map)) :: forwarded)
            "select" = forwarded := hforwards.erase
        exact herase.symm ▸ hforwards
      · cases hselect
        exact hlevel

/-- What a projection passes on under a name is what is forwarded of the arguments of a field of
that name in the query. -/
theorem exists_branch_of_passes {name : String} {arguments : OrderedMap String Datum}
    {entries : List (String × Datum)} (h : Passes name arguments entries) :
    ∀ {selections : List Selection}, Level context selections entries →
      BranchesIn context nodes selections → ∃ given, context.HasBranch nodes name given ∧
        (forwardArguments given context.bindings context.options.strict relationArguments).result =
          .ok arguments := by
  induction h with
  | here hvalue harguments =>
      intro selections hlevel hall
      obtain ⟨field, hselects, rfl, hfield⟩ := hlevel.of_mem hvalue
      obtain ⟨below, hset, hforwards, -⟩ := hfield.parts
      obtain ⟨hbranch, -⟩ := hasBranch_of_selects hselects hset hall
      exact ⟨field.arguments, hbranch, harguments ▸ hforwards.result⟩
  | deeper hvalue hselect _ ih =>
      intro selections hlevel hall
      obtain ⟨field, hselects, -, hfield⟩ := hlevel.of_mem hvalue
      obtain ⟨below, hset, -, hinner⟩ := hfield.parts
      obtain ⟨-, hbelow⟩ := hasBranch_of_selects hselects hset hall
      exact ih (hinner _ hselect) hbelow

/-! ### What is forwarded -/

theorem exists_collected_of_short {bindings : Option Bindings} {arguments : List Argument}
    {forwarded : List String}
    (h : ∀ argument ∈ arguments, argument.1 ∈ forwarded → argument.2.Short) :
    ∃ entries, (forwardArguments arguments bindings false forwarded).result = .ok entries ∧
      Collected bindings (arguments.filter fun argument => argument.1 ∈ forwarded) entries :=
  ⟨_, result_forwardArguments h, collected_valued bindings _⟩

/-- What is forwarded is short, or else nothing would have been. -/
theorem short_of_forwardArguments {bindings : Option Bindings} {strict : Bool}
    {arguments : List Argument} {entries : OrderedMap String Datum}
    (h : (forwardArguments arguments bindings strict relationArguments).result = .ok entries) :
    ∀ argument ∈ arguments, argument.1 ∈ relationArguments → argument.2.Short :=
  fun argument hargument hforwarded numeral hwithin hlong =>
    not_ok_of_tooLong ⟨argument, hargument, hforwarded, numeral, hwithin, hlong⟩ strict entries h

theorem exists_collected_of_passes {memory : Memory} {projection : Projection}
    (hstarts : context.StartsFrom Session.anyStep memory)
    (hlenient : context.options.strict = false)
    (hresult : (compileFields context nodes memory).result = .ok projection) {name : String}
    {arguments : OrderedMap String Datum} (h : Passes name arguments (selectOf projection)) :
    ∃ given, context.HasBranch nodes name given ∧
      (∀ argument ∈ given, argument.1 ∈ relationArguments → argument.2.Short) ∧
      Collected context.bindings (given.filter fun argument => argument.1 ∈ relationArguments)
        arguments := by
  obtain ⟨given, hbranch, hforwards⟩ := exists_branch_of_passes h
    (level_of_compileFields hstarts hresult) (branchesIn_selectionsOf nodes)
  rw [hlenient] at hforwards
  have hshort := short_of_forwardArguments hforwards
  obtain ⟨entries, hentries, hcollected⟩ := exists_collected_of_short hshort
  rw [hforwards] at hentries
  cases hentries
  exact ⟨given, hbranch, hshort, hcollected⟩

/-- Unless one is strict, every value without too long a number converts.  It converts to nothing
only if it is a variable without a value or a value of an unknown kind itself; such values are left
out of lists, of objects and of forwarded arguments, and leave no trace.  All arguments that a
projection passes on are collected like this. -/
theorem unvalued_left_out (bindings : Option Bindings) :
    (∀ literal : Literal, literal.Short →
      (literal.convert bindings false).result = .ok (literal.value? bindings) ∧
        (literal.value? bindings = none ↔ literal.Unvalued bindings) ∧
        (∀ items, literal = .list items →
          literal.value? bindings = some (.list (items.filterMap (Literal.value? bindings)))) ∧
        (∀ fields, literal = .object fields → ∃ entries,
          literal.value? bindings = some (.object entries) ∧ Collected bindings fields entries) ∧
        ∀ value part, literal.value? bindings = some value → part.Within value →
          Sourced bindings literal part) ∧
      (∀ (arguments : List Argument) (forwarded : List String),
        (∀ argument ∈ arguments, argument.1 ∈ forwarded → argument.2.Short) →
        ∃ entries, (forwardArguments arguments bindings false forwarded).result = .ok entries ∧
          Collected bindings (arguments.filter fun argument => argument.1 ∈ forwarded) entries) ∧
      ∀ (context : Context) (nodes : List Field) (memory : Memory) (projection : Projection),
        context.StartsFrom Session.anyStep memory → context.options.strict = false →
        (compileFields context nodes memory).result = .ok projection →
        ∀ name arguments, Passes name arguments (selectOf projection) →
          ∃ given, context.HasBranch nodes name given ∧
            (∀ argument ∈ given, argument.1 ∈ relationArguments → argument.2.Short) ∧
            Collected context.bindings
              (given.filter fun argument => argument.1 ∈ relationArguments) arguments := by
  refine ⟨fun literal hshort => ⟨Literal.result_convert hshort, Literal.value?_eq_none_iff hshort,
    ?_, ?_, fun value part => sourced_of_within literal hshort⟩,
    fun arguments forwarded => exists_collected_of_short,
    fun context nodes memory projection hstarts hlenient hresult name arguments =>
      exists_collected_of_passes hstarts hlenient hresult⟩
  · rintro items rfl
    exact Literal.value?_list hshort
  · rintro fields rfl
    exact ⟨_, Literal.value?_object hshort, collected_valued bindings fields⟩

def taggedSince : Literal :=
  .object [("day", .variable "today"), ("tags", .list [.variable "tag", .enum "NEW",
    .other "Pattern", .null]), ("day", .variable "tag")]

/-- The posts of a person; some arguments have no value. -/
def taggedPosts : List Argument :=
  [("take", .variable "tag"), ("where", taggedSince), ("first", .int "3"),
    ("where", .variable "tag"), ("skip", .variable "today")]

/-- The day is bound to null and the tag is not bound. -/
def today : Context := { aboutPeople [] with bindings := some [("today", .null)] }

def tagging : List Field :=
  [{ aliasName := none, name := "person", arguments := [], directives := []
     selectionSet := some [.field none "posts" taggedPosts [] (some [plainField "title" none])] }]

/-- A day that is null stays, whatever comes after it. -/
theorem left_out_taggedPosts :
    (∃ entries, taggedSince.value? today.bindings = some (.object entries) ∧
      OrderedMap.keys entries = ["day", "tags"] ∧ OrderedMap.get? entries "day" = some .null ∧
      OrderedMap.get? entries "tags" = some (.list [.text "NEW", .null])) ∧
    (∃ entries, (forwardArguments taggedPosts today.bindings false relationArguments).result =
        .ok entries ∧ OrderedMap.keys entries = ["where", "skip"] ∧
      OrderedMap.get? entries "where" = taggedSince.value? today.bindings) ∧
    ∃ projection arguments given, today.StartsFrom Session.anyStep Memory.empty ∧
      (compileFields today tagging .empty).result = .ok projection ∧
      Passes "posts" arguments (selectOf projection) ∧ today.HasBranch tagging "posts" given ∧
      Collected today.bindings (given.filter fun argument => argument.1 ∈ relationArguments)
        arguments := by
  obtain ⟨hvalues, harguments, hprojections⟩ := unvalued_left_out today.bindings
  have hforwarded : ∃ entries, (forwardArguments taggedPosts today.bindings false
      relationArguments).result = .ok entries := ⟨_, rfl⟩
  obtain ⟨_, hforwarded⟩ := hforwarded
  have hshort : ∀ argument ∈ taggedPosts, argument.1 ∈ relationArguments → argument.2.Short :=
    short_of_forwardArguments hforwarded
  have htagged : taggedSince.Short :=
    hshort ("where", taggedSince) (by simp [taggedPosts]) (by decide)
  refine ⟨?_, ?_, ?_⟩
  · obtain ⟨-, -, -, hobject, -⟩ := hvalues taggedSince htagged
    obtain ⟨entries, hentries, hcollected⟩ := hobject _ rfl
    exact ⟨entries, hentries, hcollected.keys, hcollected.last "day", hcollected.last "tags"⟩
  · obtain ⟨entries, hentries, hcollected⟩ := harguments taggedPosts relationArguments hshort
    exact ⟨entries, hentries, hcollected.keys, hcollected.last "where"⟩
  · obtain ⟨projection, hresult, hpasses⟩ : ∃ projection,
        (compileFields today tagging .empty).result = .ok projection ∧
          ∃ arguments, Passes "posts" arguments (selectOf projection) :=
      ⟨_, rfl, _, .here (List.mem_cons_self ..) rfl⟩
    obtain ⟨arguments, hpasses⟩ := hpasses
    have hstarts := today.startsFrom_empty
    obtain ⟨given, hbranch, -, hcollected⟩ :=
      hprojections today tagging .empty projection hstarts rfl hresult "posts" arguments hpasses
    exact ⟨projection, arguments, given, hstarts, hresult, hpasses, hbranch, hcollected⟩

end Expansion

end QueryProjection
