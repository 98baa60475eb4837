import QueryProjection.Proofs.Registry.Coherence

/-!
# Fields without selections

Whether a name is projected, and as what, is decided by a filter alone.  It is put to use in three
places: names are parted by kind (`FieldFilter.ofKind`), they are turned into a flat projection
(`FieldFilter.select`), and they are walked as the fields of a selection set.  All three say the
same (`select_agrees`).  The walk gets its filter from a registry, which may have made it earlier
for a list of the same names in another order, and it asks for it anew wherever fields are grouped
in an inline fragment.  So it has to be shown that what a registry gives it gives again
(`filterAt_again`), and that such a filter says what a new one would.
-/

namespace QueryProjection

/-! ### Parting names by kind -/

namespace FieldFilter

variable {filter filter' : FieldFilter}

/-- The names that are not left out, in order and with repetitions. -/
def kept (filter : FieldFilter) (names : List String) : List String :=
  names.filter fun name => (filter.classify name).isSome

theorem kept_append (filter : FieldFilter) (names names' : List String) :
    filter.kept (names ++ names') = filter.kept names ++ filter.kept names' :=
  List.filter_append ..

theorem Similar.kept (h : filter.Similar filter') (names : List String) :
    filter.kept names = filter'.kept names := by
  unfold FieldFilter.kept
  congr 1
  funext name
  rw [h name]

theorem mem_ofKind {kind : FieldKind} {names : List String} {name : String} :
    name ∈ filter.ofKind kind names ↔ name ∈ names ∧ filter.classify name = some kind := by
  simp only [ofKind, List.mem_filter, beq_iff_eq]

theorem count_ofKind (kind : FieldKind) (names : List String) (name : String) :
    (filter.ofKind kind names).count name =
      if filter.classify name = some kind then names.count name else 0 := by
  by_cases h : filter.classify name = some kind
  · rw [if_pos h]
    exact List.count_filter (beq_iff_eq.mpr h)
  · rw [if_neg h]
    exact List.count_eq_zero.mpr fun hmem => h (mem_ofKind.mp hmem).2

theorem disjoint_ofKind (names : List String) :
    List.Disjoint (filter.ofKind .scalar names) (filter.ofKind .relation names) := by
  intro name hscalar hrelation
  have hboth := (mem_ofKind.mp hscalar).2.symm.trans (mem_ofKind.mp hrelation).2
  cases hboth

/-- Scalars and relations are all that is kept. -/
theorem perm_kept (names : List String) :
    (filter.ofKind .scalar names ++ filter.ofKind .relation names).Perm (filter.kept names) := by
  rw [List.perm_iff_count]
  intro name
  rw [List.count_append, count_ofKind, count_ofKind]
  cases hkind : filter.classify name with
  | none =>
      have hleft : name ∉ filter.kept names := by
        intro hmem
        have hsome := (List.mem_filter.mp hmem).2
        rw [hkind] at hsome
        cases hsome
      rw [List.count_eq_zero.mpr hleft]
      rfl
  | some kind =>
      have hcount : (filter.kept names).count name = names.count name :=
        List.count_filter (by rw [hkind]; rfl)
      rw [hcount]
      cases kind with
      | scalar => simp
      | relation => simp

/-- What is written for fields without selections. -/
def leaves (filter : FieldFilter) (names : List String) : ProjectionMap :=
  (filter.kept names).map fun name => (name, .leaf)

theorem leaves_append (filter : FieldFilter) (names names' : List String) :
    filter.leaves (names ++ names') = filter.leaves names ++ filter.leaves names' := by
  simp only [leaves, kept_append, List.map_append]

theorem leaves_cons_of_some {name : String} {kind : FieldKind}
    (h : filter.classify name = some kind) (names : List String) :
    filter.leaves (name :: names) = (name, .leaf) :: filter.leaves names := by
  have hkept : filter.kept (name :: names) = name :: filter.kept names :=
    List.filter_cons_of_pos (by rw [h]; rfl)
  rw [leaves, hkept]
  rfl

theorem leaves_cons_of_none {name : String} (h : filter.classify name = none)
    (names : List String) : filter.leaves (name :: names) = filter.leaves names := by
  have hkept : filter.kept (name :: names) = filter.kept names :=
    List.filter_cons_of_neg (by rw [h]; exact Bool.false_ne_true)
  rw [leaves, hkept, leaves]

theorem keys_select (filter : FieldFilter) (names : List String) :
    OrderedMap.keys (filter.select names) = (filter.kept names).eraseDups := by
  rw [select, OrderedMap.keys_ofList, List.map_map]
  show ((filter.kept names).map id).eraseDups = _
  rw [List.map_id]

/-- A flat projection is the table of its leaves. -/
theorem mapValues_select (filter : FieldFilter) (names : List String) :
    OrderedMap.mapValues (fun _ => Node.leaf) (filter.select names) =
      OrderedMap.ofList (filter.leaves names) := by
  rw [select, OrderedMap.mapValues_ofList, OrderedMap.mapValues, List.map_map]
  rfl

end FieldFilter

/-! ### A filter that was given is given again -/

namespace Registry

theorem fieldFilter_again {source : Source} {type : TypeName} {exclude : List String}
    {memory after : Memory} {issued : IssuedFilter}
    (h : (fieldFilter source type exclude).run memory = (.ok issued, after)) :
    (fieldFilter source type exclude).run after = (.ok issued, after) := by
  have hrun : (fieldFilter source type exclude).run memory = _ := fieldFilter_run type exclude memory
  rw [h] at hrun
  cases hfound : memory.filter? { type := type.key, exclude } with
  | some known =>
      simp only [hfound] at hrun
      cases hrun
      exact h
  | none =>
      cases hfields : memory.fieldsOf source type with
      | error fault =>
          simp only [hfound, hfields] at hrun
          cases hrun
      | ok fields =>
          simp only [hfound, hfields] at hrun
          obtain ⟨hissued, hafter⟩ := Prod.mk.inj hrun
          rw [Except.ok.injEq] at hissued
          have hself : ({ type := type.key, exclude } : FilterKey).same
              { type := type.key, exclude } = true := by
            simp only [FilterKey.same, Memory.sameNames_refl, beq_self_eq_true, Bool.and_self]
          have hremembered : after.filter? { type := type.key, exclude } = some issued := by
            have hold : ((modelFields source type).run memory).2.filter?
                { type := type.key, exclude } = none := by
              simpa only [Memory.filter?, filters_modelFields] using hfound
            rw [hafter, Memory.filter?_issued, hold, if_pos hself, Option.none_or, hissued]
          rw [fieldFilter_run, hremembered]

end Registry

namespace Expansion

variable {context : Context} {enter : Enter} {type : Option TypeName} {filter : FieldFilter}
  {memory after : Memory}

/-- The filter of a place is at hand: it is given, and nothing is asked or remembered for it. -/
def AtHand (context : Context) (type : Option TypeName) (filter : FieldFilter) (memory : Memory) :
    Prop :=
  context.filterAt type memory = { result := .ok filter, notices := [], memory }

theorem filterAt_again (h : (context.filterAt type memory).result = .ok filter) :
    AtHand context type filter (context.filterAt type memory).memory := by
  unfold AtHand
  unfold Context.filterAt at h ⊢
  cases htarget : context.options.target with
  | none =>
      rw [htarget] at h
      cases h
      rfl
  | some target =>
      cases type with
      | none =>
          rw [htarget] at h
          cases h
          rfl
      | some name =>
          rw [htarget] at h
          simp only [Compile.ofLookup_map] at h ⊢
          cases hrun : (Registry.fieldFilter target.source name context.options.exclude).run
              memory with
          | mk result after =>
              rw [hrun, map_eq_ok] at h
              obtain ⟨issued, hissued, rfl⟩ := h
              cases hissued
              rw [Registry.fieldFilter_again hrun]
              rfl

/-! ### Walking fields without selections -/

/-- Fields of the names without selections, in their order, in any nesting of inline fragments
without a type condition. -/
inductive Grouped : List String → List Selection → Prop where
  | nil : Grouped [] []
  | leaf (aliasName : Option String) (name : String) (arguments : List Argument)
      (directives : List Directive) {names : List String} {rest : List Selection}
      (hrest : Grouped names rest) :
      Grouped (name :: names) (.field aliasName name arguments directives none :: rest)
  | inline (directives : List Directive) {inside names : List String}
      {selections rest : List Selection} (hinside : Grouped inside selections)
      (hrest : Grouped names rest) :
      Grouped (inside ++ names) (.inline none directives selections :: rest)

/-- Whatever the grouping, a leaf is written for each name that is kept, and no more is looked up. -/
theorem result_writeAll_of_grouped {names : List String} {selections : List Selection}
    (h : Grouped names selections) (hhand : AtHand context type filter memory)
    (before : ProjectionMap) :
    (writeAll context enter type filter before selections memory).result =
        .ok (OrderedMap.merge before (filter.leaves names)) ∧
      (writeAll context enter type filter before selections memory).memory = memory := by
  induction h generalizing before with
  | nil => exact ⟨rfl, rfl⟩
  | leaf aliasName name arguments directives _ ih =>
      rw [writeAll_cons]
      cases hkind : filter.classify name with
      | none =>
          rw [writeOne_dropped before hkind, FieldFilter.leaves_cons_of_none hkind]
          exact ih before
      | some kind =>
          rw [writeOne_leaf before hkind, FieldFilter.leaves_cons_of_some hkind, pure_bind]
          exact ih (OrderedMap.insert before name .leaf)
  | @inline directives inside names selections rest _ _ ihInside ih =>
      have hwalk : writeAll context enter type filter before
          (.inline none directives selections :: rest) = (do
            let written ← selectionSet context enter type selections
            writeAll context enter type filter (OrderedMap.merge before written) rest) := by
        have hwithin : context.typeWithin type none = pure type := by
          unfold Context.typeWithin
          cases context.options.target <;> cases type <;> rfl
        rw [writeAll_cons, writeOne_inline, hwithin]
        simp only [pure_bind, bind_assoc]
      have hset : selectionSet context enter type selections memory =
          { result := (writeAll context enter type filter [] selections memory).result
            notices := (writeAll context enter type filter [] selections memory).notices
            memory := (writeAll context enter type filter [] selections memory).memory } := by
        rw [selectionSet, Compile.bind_of_ok (congrArg Outcome.result hhand), hhand]
        rfl
      obtain ⟨hresult, hmemory⟩ := ihInside []
      have hfirst : (selectionSet context enter type selections memory).result =
          .ok (OrderedMap.ofList (filter.leaves inside)) := by
        rw [hset]
        exact hresult
      rw [hwalk, Compile.bind_of_ok hfirst, hset, hmemory, FieldFilter.leaves_append,
        OrderedMap.merge_append, ← OrderedMap.merge_ofList before (filter.leaves inside)]
      exact ih _

/-- What is known of the root: nothing without a model, and else what the registry would tell. -/
def RootHas (context : Context) (memory : Memory) (info : Option ModelFields) : Prop :=
  Option.Rel (fun target fields => memory.fieldsOf target.source (.text target.model) = .ok fields)
    context.options.target info

/-- The registry gives the root a filter that is as good as a new one. -/
theorem exists_filterAt_root {info : Option ModelFields} (hroot : RootHas context memory info)
    (hstarts : context.StartsFrom Session.addsOnly memory) :
    (context.checkRoot memory).result = .ok () ∧
      ∃ given, (context.filterAt context.root (context.checkRoot memory).memory).result = .ok given ∧
        given.Similar { fields := info, exclude := context.options.exclude } := by
  unfold RootHas at hroot
  unfold Context.StartsFrom at hstarts
  unfold Context.checkRoot Context.filterAt Context.root
  generalize context.options.target = target at hroot hstarts
  cases hroot with
  | none => exact ⟨rfl, _, rfl, fun _ => rfl⟩
  | @some target fields hfields =>
      obtain ⟨session, id, registry, harises, hregistry, -, rfl⟩ := hstarts target rfl
      have hcached := Registry.fields?_modelFields hfields
      have hkeyed := (lookups_keyed target.source).modelFields (.text target.model) _
        (harises.keyed hregistry)
      have hmatched := (lookups_matched target.source).modelFields (.text target.model) _
        (harises.matched hregistry)
      have hrun := Registry.modelFields_run_fst target.source (.text target.model)
        (session.memoryOf registry)
      simp only [Option.map_some, Compile.ofLookup_map]
      rw [Compile.ofLookup_apply] at hkeyed hmatched
      generalize (Registry.modelFields target.source (.text target.model)).run
        (session.memoryOf registry) = looked at hcached hkeyed hmatched hrun
      obtain ⟨result, known⟩ := looked
      cases hrun.trans hfields
      -- what was looked up to check the root is in the cache for the filter
      have hknown : known.fieldsOf target.source (.text target.model) = .ok fields := by
        rw [Memory.fieldsOf_eq_ok, Memory.described, hcached]
      refine ⟨rfl, ?_⟩
      rcases Registry.fieldFilter_of_matched target.source hkeyed hmatched (.text target.model)
        context.options.exclude with ⟨issued, found, hissued, hfound, hsimilar⟩ | ⟨fault, -, hfault⟩
      · cases hknown.symm.trans hfound
        exact ⟨issued.filter, by rw [hissued]; rfl, hsimilar⟩
      · cases hknown.symm.trans hfault

/-- The three uses of a filter agree.  Names are parted by kind in order, with their repetitions,
and what is not left out is what is selected.  Walking the names as fields without selections, in
any grouping, comes to the flat projection of them, if the same names are excluded and the
registry, if there is one, knows the same fields of the root. -/
theorem select_agrees (names : List String) (info : Option ModelFields) (exclude : List String) :
    let filter : FieldFilter := { fields := info, exclude }
    (∀ kind, (filter.ofKind kind names).Sublist names) ∧
      (∀ kind name, (filter.ofKind kind names).count name =
        if filter.classify name = some kind then names.count name else 0) ∧
      List.Disjoint (filter.ofKind .scalar names) (filter.ofKind .relation names) ∧
      (filter.ofKind .scalar names ++ filter.ofKind .relation names).Perm
        (names.filter fun name => (filter.classify name).isSome) ∧
      OrderedMap.keys (filter.select names) =
        (names.filter fun name => (filter.classify name).isSome).eraseDups ∧
      ∀ (context : Context) (memory : Memory) (selections : Option (List Selection)),
        Grouped names (selections.getD []) →
        (∀ name, name ∈ context.options.exclude ↔ name ∈ exclude) →
        RootHas context memory info → context.StartsFrom Session.addsOnly memory →
        (compileSelections context selections memory).result =
          .ok (OrderedMap.mapValues (fun _ => .leaf) (filter.select names)) := by
  intro filter
  refine ⟨fun _ => List.filter_sublist, fun kind => FieldFilter.count_ofKind kind names,
    FieldFilter.disjoint_ofKind names, FieldFilter.perm_kept names,
    FieldFilter.keys_select filter names, ?_⟩
  intro context memory selections hgrouped hexclude hroot hstarts
  obtain ⟨hchecked, given, hgiven, hsimilar⟩ := exists_filterAt_root hroot hstarts
  have hnames : FieldFilter.Similar { fields := info, exclude := context.options.exclude } filter :=
    FieldFilter.similar_of_names rfl hexclude
  have hsame : given.Similar filter := fun name => (hsimilar name).trans (hnames name)
  have hleaves : given.leaves names = filter.leaves names := by
    rw [FieldFilter.leaves, hsame.kept, FieldFilter.leaves]
  rw [compileSelections, compileEntering, Compile.bind_of_ok hchecked]
  show (selectionSet context (enterWithin context (budget context (context.checkRoot memory).memory)
    []) context.root (selections.getD []) (context.checkRoot memory).memory).result = _
  rw [selectionSet, Compile.bind_of_ok hgiven]
  simp only
  rw [(result_writeAll_of_grouped hgrouped (filterAt_again hgiven) []).1, hleaves,
    FieldFilter.mapValues_select]
  rfl

/-- What is stored of a pet.  The owner is stored with it and is a relation too, and a field goes by
the name of a pseudo-field. -/
def petFields : ModelFields where
  scalars := ["id", "name", "owner", "_count"]
  relations := [("owner", .type (.text "Person"))]

def petsKnown : Session :=
  [SessionStep.openRegistry "pets" (Source.ofTable [("Pet", petFields)]) none,
    .request "pets" (.fieldFilter (.text "Pet") ["weight", "id"])].foldl
      (fun session step => (session.perform step).2) Session.start

def aboutPets : Context where
  fragments := none
  bindings := none
  options :=
    { exclude := ["id", "weight"]
      target := some { source := Source.ofTable [("Pet", petFields)], model := "Pet" }
      strict := false }

/-- Names of fields of a pet in two groups, the one within the other. -/
def petSelections : List Selection :=
  [plainField "name" none,
    .inline none []
      [plainField "owner" none, .inline none [] [plainField "id" none, plainField "_count" none],
        .field (some "again") "name" [("take", .int "1")] [] none],
    plainField "age" none, plainField "owner" none]

/-- Two names are kept of five, one of them as a relation. -/
theorem select_agrees_pets :
    ∃ registry, OrderedMap.get? petsKnown.registries "pets" = some registry ∧
      Grouped ["name", "owner", "id", "_count", "name", "age", "owner"] petSelections ∧
      (∀ name, name ∈ aboutPets.options.exclude ↔ name ∈ ["weight", "id"]) ∧
      RootHas aboutPets (petsKnown.memoryOf registry) (some petFields) ∧
      aboutPets.StartsFrom Session.addsOnly (petsKnown.memoryOf registry) ∧
      (compileSelections aboutPets (some petSelections) (petsKnown.memoryOf registry)).result =
        .ok [("name", .leaf), ("owner", .leaf)] := by
  have hgrouped : Grouped (["name"] ++ (["owner"] ++ ["id", "_count"] ++ ["name"]) ++
      ["age", "owner"]) petSelections := by
    refine .leaf _ _ _ _ (.inline [] (.leaf _ _ _ _ (.inline [] ?_ (.leaf _ _ _ _ .nil)))
      (.leaf _ _ _ _ (.leaf _ _ _ _ .nil)))
    exact .leaf _ _ _ _ (.leaf _ _ _ _ .nil)
  have hexclude : ∀ name, name ∈ aboutPets.options.exclude ↔ name ∈ ["weight", "id"] :=
    fun name => by simp [aboutPets, or_comm]
  obtain ⟨registry, hregistry, hsource, hroot⟩ : ∃ registry,
      OrderedMap.get? petsKnown.registries "pets" = some registry ∧
        registry.source = Source.ofTable [("Pet", petFields)] ∧
        RootHas aboutPets (petsKnown.memoryOf registry) (some petFields) :=
    ⟨_, rfl, rfl, .some rfl⟩
  have harises : Session.Arises Session.addsOnly petsKnown :=
    .step (.step .start _ fun _ _ _ h => nomatch h) _ fun _ _ _ h => nomatch h
  have hstarts : aboutPets.StartsFrom Session.addsOnly (petsKnown.memoryOf registry) := by
    intro target htarget
    cases htarget
    exact ⟨petsKnown, "pets", registry, harises, hregistry, hsource, rfl⟩
  refine ⟨registry, hregistry, hgrouped, hexclude, hroot, hstarts, ?_⟩
  obtain ⟨-, -, -, -, -, hwalk⟩ := select_agrees
    ["name", "owner", "id", "_count", "name", "age", "owner"] (some petFields) ["weight", "id"]
  exact hwalk aboutPets _ (some petSelections) hgrouped hexclude hroot hstarts

end Expansion

end QueryProjection
