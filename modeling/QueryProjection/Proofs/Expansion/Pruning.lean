import QueryProjection.Proofs.Expansion.Agreement

/-!
# Leaving names out first and removing them afterwards

Names may be left out while a query is compiled, or removed from the projection at the end, at
every level.  A relation from which everything is removed keeps its arguments, or is loaded as a
whole if there are none (`Node.prune`).  The two come to the same (`compileSelections_prune`),
which is not a matter of course: with a field everything below it is left out as well, so that
fewer fragments are expanded, fewer arguments converted and fewer types looked up.

Removing names commutes with writing nodes and with merging maps, and so each selection writes the
pruned nodes over the pruned map (`prunes_writeAll`).  The proof compares two walks that start from
a memory without filters.  From any other memory that tells the same of the types, they come
to the same (`agrees_compileSelections`).
-/

namespace QueryProjection

namespace Node

mutual

/-- A node without some names at all levels below it. -/
def prune (names : List String) : Node → Node
  | .leaf => .leaf
  | .relation select arguments => .ofParts (pruneMap names select) arguments

def pruneMap (names : List String) : List (String × Node) → List (String × Node)
  | [] => []
  | (name, node) :: rest =>
      if name ∈ names then pruneMap names rest
      else (name, node.prune names) :: pruneMap names rest

end

variable {names : List String}

theorem prune_ofParts (select : ProjectionMap) (arguments : OrderedMap String Datum) :
    (ofParts select arguments).prune names = ofParts (pruneMap names select) arguments := by
  cases select with
  | nil => cases arguments <;> simp [ofParts, prune, pruneMap]
  | cons entry rest => simp [ofParts, prune]

theorem pruneMap_insert (map : ProjectionMap) (name : String) (node : Node) :
    pruneMap names (OrderedMap.insert map name node) =
      if name ∈ names then pruneMap names map
      else OrderedMap.insert (pruneMap names map) name (node.prune names) := by
  induction map with
  | nil => by_cases hname : name ∈ names <;> simp [OrderedMap.insert, pruneMap, hname]
  | cons entry rest ih =>
      obtain ⟨key, value⟩ := entry
      by_cases hkey : key = name
      · subst hkey
        by_cases hname : key ∈ names <;> simp [OrderedMap.insert, pruneMap, hname]
      · by_cases hname : name ∈ names <;> by_cases hpruned : key ∈ names <;>
          simp [OrderedMap.insert, pruneMap, hkey, hname, hpruned, ih]

theorem pruneMap_merge (base update : ProjectionMap) :
    pruneMap names (OrderedMap.merge base update) =
      OrderedMap.merge (pruneMap names base) (pruneMap names update) := by
  induction update generalizing base with
  | nil => simp [pruneMap]
  | cons entry rest ih =>
      obtain ⟨name, node⟩ := entry
      rw [OrderedMap.merge_cons, ih, pruneMap_insert]
      by_cases hname : name ∈ names
      · simp [pruneMap, hname]
      · simp [pruneMap, hname, OrderedMap.merge_cons]

end Node

def Context.excluding (context : Context) (names : List String) : Context :=
  { context with options := { context.options with exclude := names } }

namespace Expansion

open Node (pruneMap)

variable {context : Context} {names exclude : List String} {memory : Memory}

/-- One filter lets through what the other does, but for some names. -/
def Tighter (names : List String) (filter filter' : FieldFilter) : Prop :=
  ∀ name, filter'.classify name = if name ∈ names then none else filter.classify name

/-- The second list of names has those of the first and some more. -/
def Union (context : Context) (names exclude : List String) : Prop :=
  ∀ name, name ∈ exclude ↔ name ∈ context.options.exclude ∨ name ∈ names

theorem tighter_of_union (hunion : Union context names exclude) (fields : Option ModelFields) :
    Tighter names { fields, exclude := context.options.exclude } { fields, exclude } := by
  intro name
  by_cases hname : name ∈ names
  · have hexcluded : exclude.contains name = true := by
      simpa using (hunion name).mpr (Or.inr hname)
    simp only [FieldFilter.classify, FieldFilter.skips, hexcluded, Bool.or_true, if_true, hname]
  · have hskips : ({ fields, exclude } : FieldFilter).skips name =
        ({ fields, exclude := context.options.exclude } : FieldFilter).skips name := by
      simp only [FieldFilter.skips, List.contains_eq_mem, hunion name, hname, or_false]
    rw [if_neg hname]
    simp only [FieldFilter.classify, hskips]

/-! ### The outlook with more names left out -/

section Outlook

variable (hunused : ∀ target, context.options.target = some target → memory.filters = [])

theorem steady_excluding (hsteady : context.Steady) : (context.excluding exclude).Steady := hsteady

theorem typeBelow_excluding :
    ((context.excluding exclude).outlook memory).typeBelow =
      (context.outlook memory).typeBelow := by
  simp only [Context.outlook, Context.excluding]
  cases context.options.target <;> rfl

theorem typeWithin_excluding :
    ((context.excluding exclude).outlook memory).typeWithin =
      (context.outlook memory).typeWithin := by
  have hknows : ((context.excluding exclude).outlook memory).knows =
      (context.outlook memory).knows := by
    simp only [Context.outlook, Context.excluding]
    cases context.options.target <;> rfl
  unfold Outlook.typeWithin
  rw [hknows]

theorem root_excluding :
    ((context.excluding exclude).outlook memory).root = (context.outlook memory).root := by
  simp only [Context.outlook, Context.excluding]
  cases context.options.target <;> rfl

include hunused

theorem filterAt_excluding (hunion : Union context names exclude) {type : Option TypeName}
    {filter : FieldFilter} (h : (context.outlook memory).filterAt type = .ok filter) :
    ∃ filter', ((context.excluding exclude).outlook memory).filterAt type = .ok filter' ∧
      Tighter names filter filter' := by
  cases htarget : context.options.target with
  | none =>
      simp only [Context.outlook, htarget] at h
      cases h
      refine ⟨{ fields := none, exclude }, ?_, tighter_of_union hunion none⟩
      simp only [Context.outlook, Context.excluding, htarget]
  | some target =>
      cases type with
      | none =>
          simp only [Context.outlook, htarget] at h
          cases h
          refine ⟨{ fields := none, exclude }, ?_, tighter_of_union hunion none⟩
          simp only [Context.outlook, Context.excluding, htarget]
      | some name =>
          simp only [Context.outlook, htarget, Memory.filterOf, Memory.filter?,
            hunused target htarget, List.find?_nil, Option.map_none] at h
          cases hfields : memory.fieldsOf target.source name with
          | error fault =>
              rw [hfields] at h
              cases h
          | ok fields =>
              rw [hfields] at h
              cases h
              refine ⟨{ fields := some fields, exclude }, ?_, tighter_of_union hunion (some fields)⟩
              simp only [Context.outlook, Context.excluding, htarget, Memory.filterOf,
                Memory.filter?, hunused target htarget, List.find?_nil, Option.map_none, hfields]

end Outlook

/-! ### Walks -/

/-- Whenever the first computation comes to a map, the second comes to the pruned map. -/
def Prunes (names : List String) (memory : Memory) (whole pruned : Compile ProjectionMap) : Prop :=
  ∀ map, (whole memory).result = .ok map → (pruned memory).result = .ok (pruneMap names map)

section Walks

variable {enter enter' : Enter}

/-- A field that is let through is written under its name. -/
theorem exists_insert_of_field (hsteady : context.Steady) (hsettled : SettledEnter context enter)
    {type : Option TypeName} {filter : FieldFilter} {name : String} {kind : FieldKind}
    (hkind : filter.classify name = some kind) {before map : ProjectionMap}
    {aliasName : Option String} {arguments : List Argument} {directives : List Directive}
    {selections : Option (List Selection)}
    (h : (writeOne context enter type filter before
      (.field aliasName name arguments directives selections) memory).result = .ok map) :
    ∃ node, map = OrderedMap.insert before name node := by
  cases selections with
  | none =>
      rw [writeOne_leaf before hkind] at h
      cases h
      exact ⟨_, rfl⟩
  | some selections =>
      rw [(gives_branch hsteady hsettled before hkind aliasName arguments directives
        selections).result] at h
      simp only [bind_eq_ok, Except.ok.injEq] at h
      obtain ⟨below, -, select, -, forwarded, -, rfl⟩ := h
      exact ⟨_, rfl⟩

variable (hunused : ∀ target, context.options.target = some target → memory.filters = [])
  (hsteady : context.Steady) (hunion : Union context names exclude)
  (hsettled : SettledEnter context enter)
  (hsettled' : SettledEnter (context.excluding exclude) enter')
  (henters : ∀ name fragment type,
    Prunes names memory (enter name fragment type) (enter' name fragment type))

include hunused hsteady hunion hsettled hsettled'

theorem prunes_selectionSet {type : Option TypeName} {selections : List Selection}
    (hwrites : ∀ filter filter', Tighter names filter filter' →
      Prunes names memory (writeAll context enter type filter [] selections)
        (writeAll (context.excluding exclude) enter' type filter' [] selections)) :
    Prunes names memory (selectionSet context enter type selections)
      (selectionSet (context.excluding exclude) enter' type selections) := by
  intro map h
  rw [(gives_selectionSet hsteady hsettled type selections).result, bind_eq_ok] at h
  obtain ⟨filter, hfilter, hmap⟩ := h
  obtain ⟨filter', hfilter', htighter⟩ := filterAt_excluding hunused hunion hfilter
  rw [(gives_selectionSet (steady_excluding hsteady) hsettled' type selections).result,
    bind_eq_ok]
  exact ⟨filter', hfilter', hwrites filter filter' htighter map hmap⟩

include henters

/-- Where one walk writes a selection over a map, the other writes what is left of it over what
is left of the map. -/
theorem prunes_writeOne (selection : Selection)
    (hnested : ∀ type filter filter', Tighter names filter filter' →
      Prunes names memory (writeAll context enter type filter [] selection.nested)
        (writeAll (context.excluding exclude) enter' type filter' [] selection.nested))
    (type : Option TypeName) {filter filter' : FieldFilter}
    (htighter : Tighter names filter filter') (before : ProjectionMap) :
    Prunes names memory (writeOne context enter type filter before selection)
      (writeOne (context.excluding exclude) enter' type filter' (pruneMap names before)
        selection) := by
  have hsteady' : (context.excluding exclude).Steady := steady_excluding hsteady
  intro map h
  cases selection with
  | field aliasName name arguments directives selections =>
      have hkind' := htighter name
      cases hkind : filter.classify name with
      | none =>
          rw [hkind, ite_self] at hkind'
          rw [writeOne_dropped before hkind] at h
          rw [writeOne_dropped _ hkind']
          cases h
          rfl
      | some kind =>
          rw [hkind] at hkind'
          by_cases hname : name ∈ names
          · -- the field is left out, with everything below it
            rw [if_pos hname] at hkind'
            obtain ⟨node, rfl⟩ := exists_insert_of_field hsteady hsettled hkind h
            rw [writeOne_dropped _ hkind', Node.pruneMap_insert, if_pos hname]
            rfl
          · rw [if_neg hname] at hkind'
            cases selections with
            | none =>
                rw [writeOne_leaf before hkind] at h
                cases h
                rw [writeOne_leaf _ hkind', Node.pruneMap_insert, if_neg hname]
                rfl
            | some selections =>
                rw [(gives_branch hsteady hsettled before hkind aliasName arguments directives
                  selections).result] at h
                simp only [bind_eq_ok, Except.ok.injEq] at h
                obtain ⟨below, hbelow, select, hselect, forwarded, hforwarded, rfl⟩ := h
                have hpruned := prunes_selectionSet hunused hsteady hunion hsettled hsettled'
                  (hnested below) select hselect
                -- the field stays, over what is left of the selection below it
                rw [(gives_branch hsteady' hsettled' _ hkind' aliasName arguments directives
                  selections).result]
                simp only [bind_eq_ok, Except.ok.injEq]
                refine ⟨below, typeBelow_excluding ▸ hbelow, _, hpruned, forwarded, hforwarded, ?_⟩
                rw [Node.pruneMap_insert, if_neg hname, Node.prune_ofParts]
  | spread name directives =>
      rw [(gives_spread hsteady hsettled before name directives).result] at h
      rw [(gives_spread hsteady' hsettled' _ name directives).result]
      have hsame : (context.excluding exclude).definition? name = context.definition? name := rfl
      rw [hsame]
      cases hdefined : context.definition? name with
      | none =>
          rw [hdefined] at h
          simp only at h ⊢
          split at h
          · cases h
          · rename_i hlenient
            cases h
            exact if_neg hlenient
      | some fragment =>
          rw [hdefined] at h
          simp only [bind_eq_ok, Except.ok.injEq] at h ⊢
          obtain ⟨within, hwithin, inner, hinner, rfl⟩ := h
          refine ⟨within, typeWithin_excluding ▸ hwithin, _,
            henters name fragment within inner hinner, ?_⟩
          rw [Node.pruneMap_merge]
  | inline condition directives selections =>
      rw [(gives_inline hsteady hsettled before condition directives selections).result] at h
      rw [(gives_inline hsteady' hsettled' _ condition directives selections).result]
      simp only [bind_eq_ok, Except.ok.injEq] at h ⊢
      obtain ⟨within, hwithin, inner, hinner, rfl⟩ := h
      have hpruned := prunes_selectionSet hunused hsteady hunion hsettled hsettled'
        (hnested within) inner hinner
      refine ⟨within, typeWithin_excluding ▸ hwithin, _, hpruned, ?_⟩
      rw [Node.pruneMap_merge]
  | other name =>
      rw [writeOne_other] at h
      cases h

theorem prunes_writeAll (selections : List Selection) :
    ∀ type filter filter', Tighter names filter filter' → ∀ before,
      Prunes names memory (writeAll context enter type filter before selections)
        (writeAll (context.excluding exclude) enter' type filter' (pruneMap names before)
          selections) := by
  induction selections using Selection.listInduction with
  | nil =>
      intro type filter filter' _ before map h
      rw [writeAll_nil] at h ⊢
      cases h
      rfl
  | cons selection rest ihNested ih =>
      intro type filter filter' htighter before map h
      rw [(gives_writeAll_cons hsteady hsettled before selection rest).result, bind_eq_ok] at h
      obtain ⟨written, hwritten, hrest⟩ := h
      have hone := prunes_writeOne hunused hsteady hunion hsettled hsettled' henters selection
        (fun type filter filter' htighter => ihNested type filter filter' htighter []) type htighter
        before written hwritten
      rw [(gives_writeAll_cons (steady_excluding hsteady) hsettled' _ selection rest).result,
        bind_eq_ok]
      exact ⟨_, hone, ih type filter filter' htighter written map hrest⟩

end Walks

section Compilations

variable (hunused : ∀ target, context.options.target = some target → memory.filters = [])
  (hsteady : context.Steady) (hunion : Union context names exclude)

include hunused hsteady hunion

theorem prunes_enterWithin (depth : Nat) :
    ∀ (active : List Entry) name fragment type,
      Prunes names memory (enterWithin context depth active name fragment type)
        (enterWithin (context.excluding exclude) depth active name fragment type) := by
  induction depth with
  | zero =>
      intro active name fragment type map h
      cases h
  | succ depth ih =>
      intro active name fragment type map h
      rw [enterWithin_succ] at h ⊢
      split at h
      · cases h
      · rename_i hcontains
        rw [if_neg hcontains]
        have hsettled := settled_enterWithin hsteady depth
          ((name, type.map TypeName.key) :: active)
        have hsteady' : (context.excluding exclude).Steady := steady_excluding hsteady
        have hsettled' := settled_enterWithin hsteady' depth
          ((name, type.map TypeName.key) :: active)
        exact prunes_selectionSet hunused hsteady hunion hsettled hsettled'
          (fun filter filter' htighter => prunes_writeAll hunused hsteady hunion hsettled
            hsettled' (ih _) fragment.selections type filter filter' htighter []) map h

omit hunused hsteady hunion in
theorem filters_checkRoot : (context.checkRoot memory).memory.filters = memory.filters := by
  cases htarget : context.options.target with
  | none => simp only [Context.checkRoot, htarget]; rfl
  | some target =>
      simp only [Context.checkRoot, htarget]
      have hlooked :
          ((Registry.modelFields target.source (.text target.model)).run memory).2.filters =
            memory.filters := Registry.filters_modelFields _ memory
      cases hr : (Compile.ofLookup (Registry.modelFields target.source (.text target.model))
        memory).result with
      | error fault =>
          rw [Compile.bind_of_error hr]
          exact hlooked
      | ok fields =>
          rw [Compile.bind_of_ok hr]
          exact hlooked

/-- From a memory without filters, names may be left out first or removed afterwards. -/
theorem prunes_compileSelections (selections : Option (List Selection)) :
    Prunes names memory (compileSelections context selections)
      (compileSelections (context.excluding exclude) selections) := by
  intro map h
  cases hroot : (context.outlook memory).root with
  | error fault =>
      rw [compileSelections, compileEntering_of_unrooted hsteady _ selections hroot] at h
      cases h
  | ok =>
      rw [compileSelections, compileEntering_of_root hsteady _ selections hroot] at h
      rw [compileSelections, compileEntering_of_root (steady_excluding hsteady) _ selections
        (root_excluding.trans hroot)]
      have hstill : ∀ target, context.options.target = some target →
          (context.checkRoot memory).memory.filters = [] :=
        fun target htarget => filters_checkRoot.trans (hunused target htarget)
      have hsettled := settled_enterWithin hsteady
        (budget context (context.checkRoot memory).memory) []
      have hsteady' : (context.excluding exclude).Steady := steady_excluding hsteady
      have hsettled' := settled_enterWithin hsteady'
        (budget context (context.checkRoot memory).memory) []
      exact prunes_selectionSet hstill hsteady hunion hsettled hsettled'
        (fun filter filter' htighter => prunes_writeAll hstill hsteady hunion hsettled hsettled'
          (prunes_enterWithin hstill hsteady hunion _ []) (selections.getD []) context.root filter
          filter' htighter []) map h

end Compilations

/-- Faithful memories give one result, whatever else they remember. -/
theorem result_of_faithful (hsteady : context.Steady)
    {view : TypeName → Except Fault (Option ModelFields)} {memory' : Memory}
    (hm : context.Faithful view memory) (hm' : context.Faithful view memory')
    (selections : Option (List Selection)) :
    (compileSelections context selections memory).result =
      (compileSelections context selections memory').result :=
  Likeness.eq_of_ends (agrees_compileSelections (Context.telling_faithful hsteady view) hsteady
    selections memory memory' hm hm').ends

/-- All that a registry remembers later is faithful to what it tells at the start, and so is the
start without its filters. -/
theorem exists_view (hsteady : context.Steady) {start : Memory}
    (hstarts : context.StartsFrom Session.addsOnly start) :
    ∃ view, (∀ memory, context.Served start memory → context.Faithful view memory) ∧
      context.Faithful view { start with filters := [] } := by
  cases htarget : context.options.target with
  | none =>
      -- nothing is looked up, so any view will do
      refine ⟨fun _ => .ok none, fun _ _ target hsome => ?_, fun target hsome => ?_⟩
      · rw [htarget] at hsome
        cases hsome
      · rw [htarget] at hsome
        cases hsome
  | some target =>
      obtain ⟨session, id, registry, harises, hregistry, -, rfl⟩ := hstarts target htarget
      refine ⟨(session.memoryOf registry).described target.source, fun memory hserved => ?_, ?_⟩
      · rw [Context.faithful_of_target htarget]
        exact (hserved target htarget).faithful (hsteady target htarget)
          (.of_matched (harises.keyed hregistry) (harises.matched hregistry))
      · rw [Context.faithful_of_target htarget]
        exact .of_unused (fun _ => rfl) rfl

/-- Excluding more names while a selection set is compiled comes to the same as removing them from
the map that it compiles to.  The registry, if there is one, may have served any requests before
and in between. -/
theorem compileSelections_prune (hsteady : context.Steady) {start memory' : Memory}
    (hstarts : context.StartsFrom Session.addsOnly start) (hserved : context.Served start memory)
    (hserved' : context.Served start memory') (hunion : Union context names exclude)
    {selections : Option (List Selection)} {map : ProjectionMap}
    (h : (compileSelections context selections memory).result = .ok map) :
    (compileSelections (context.excluding exclude) selections memory').result =
      .ok (pruneMap names map) := by
  obtain ⟨view, hfaithful, hunused⟩ := exists_view hsteady hstarts
  have hsteady' : (context.excluding exclude).Steady := steady_excluding hsteady
  have hpruned : (context.excluding exclude).Faithful view memory' := hfaithful memory' hserved'
  rw [result_of_faithful hsteady (hfaithful memory hserved) hunused] at h
  rw [result_of_faithful hsteady' hpruned hunused]
  exact prunes_compileSelections (fun _ _ => rfl) hsteady hunion selections map h

def withTitles : Context :=
  (aboutPeople [("Titles", "Person",
    [plainField "posts" (some [plainField "title" none]), plainField "name" none])]).excluding
      ["id"]

def friendsAndTitles : List Selection :=
  [.field none "friend" [("take", .int "3")] [] (some [plainField "name" none]),
    .spread "Titles" []]

/-- A registry that was asked for a filter of people without names, titles and numbers. -/
def afterNames : Memory :=
  ((Registry.fieldFilter people (.text "Person") ["name", "title", "id"]).run Memory.empty).2

theorem result_friendsAndTitles :
    (compileSelections withTitles (some friendsAndTitles) Memory.empty).result =
      .ok [("friend", .relation [("name", .leaf)] [("take", .int 3)]),
        ("posts", .relation [("title", .leaf)] []), ("name", .leaf)] := by
  rfl

/-- Without names and titles the friends keep their argument, and the posts are loaded as a
whole. -/
theorem prune_friendsAndTitles :
    withTitles.Steady ∧ withTitles.StartsFrom Session.addsOnly Memory.empty ∧
      withTitles.Served Memory.empty Memory.empty ∧ withTitles.Served Memory.empty afterNames ∧
      Union withTitles ["name", "title"] ["title", "id", "name"] ∧
      (compileSelections (withTitles.excluding ["title", "id", "name"]) (some friendsAndTitles)
          afterNames).result =
        .ok [("friend", .relation [] [("take", .int 3)]), ("posts", .leaf)] := by
  have hsteady : withTitles.Steady := steady_excluding (steady_aboutPeople _)
  have hstarts : withTitles.StartsFrom Session.addsOnly Memory.empty := by
    intro target htarget
    cases htarget
    refine ⟨(Session.start.perform (.openRegistry "people" people none)).2, "people", _,
      .step .start _ fun _ _ _ hput => ?_, rfl, rfl, rfl⟩
    cases hput
  have hserved : withTitles.Served Memory.empty Memory.empty := fun _ _ => .start
  have hserved' : withTitles.Served Memory.empty afterNames := by
    intro target htarget
    cases htarget
    exact .request .start (.fieldFilter (.text "Person") ["name", "title", "id"]) rfl
  have hunion : Union withTitles ["name", "title"] ["title", "id", "name"] := by
    intro name
    simp only [withTitles, Context.excluding, List.mem_cons, List.not_mem_nil, or_false]
    tauto
  exact ⟨hsteady, hstarts, hserved, hserved', hunion,
    compileSelections_prune hsteady hstarts hserved hserved' hunion result_friendsAndTitles⟩

end Expansion

end QueryProjection
