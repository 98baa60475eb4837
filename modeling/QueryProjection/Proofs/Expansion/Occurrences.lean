import QueryProjection.Proofs.Expansion.Results

/-!
# The flat list behind a projection

A projection can be told without a walk.  Replace every fragment by its selections, again
and again, until only fields are left; each of them then occurs at a place with an effective
type (`Expands`).  Leave out what the filter of that type leaves out (`kept`).  The keys of
the projection are the names that remain, in the order in which they first occur, and under
each name stands the node of its last occurrence (`Loads`).

The walk never makes this list.  It writes into one map for each selection set and merges
the maps of fragments as it comes to them, so a name may be written many times over and in
between be moved from map to map.  That all of this comes to "the last occurrence wins" is
`compileSelections_last_wins`.
-/

namespace QueryProjection

/-- A field as it occurs once fragments are replaced by their selections. -/
structure Occurrence where
  /-- the effective type of its place -/
  type : Option TypeName
  name : String
  arguments : List Argument
  selectionSet : Option (List Selection)

namespace Occurrence

/-- The kind under which the filter of its place projects it, if it does. -/
def kind (outlook : Outlook) (occurrence : Occurrence) : Option FieldKind :=
  match outlook.filterAt occurrence.type with
  | .ok filter => filter.classify occurrence.name
  | .error _ => none

end Occurrence

namespace Expansion

def kept (outlook : Outlook) (occurrences : List Occurrence) : List Occurrence :=
  occurrences.filter fun occurrence => (occurrence.kind outlook).isSome

def lastNamed (name : String) (occurrences : List Occurrence) : Option Occurrence :=
  (occurrences.filter fun occurrence => occurrence.name = name).getLast?

/-- Replaces fragments, spread or inline, by what they select.  A spread of a fragment that is
not defined is replaced by nothing. -/
inductive Expands (context : Context) (outlook : Outlook) :
    Option TypeName → List Selection → List Occurrence → Prop where
  | nil {type : Option TypeName} : Expands context outlook type [] []
  | field {type : Option TypeName} {aliasName : Option String} {name : String}
      {arguments : List Argument} {directives : List Directive}
      {selectionSet : Option (List Selection)} {rest : List Selection} {after : List Occurrence}
      (hrest : Expands context outlook type rest after) :
      Expands context outlook type
        (.field aliasName name arguments directives selectionSet :: rest)
        ({ type, name, arguments, selectionSet } :: after)
  | inline {type within : Option TypeName} {condition : Option String}
      {directives : List Directive} {selections rest : List Selection}
      {inside after : List Occurrence}
      (hwithin : outlook.typeWithin type condition = .ok within)
      (hinside : Expands context outlook within selections inside)
      (hrest : Expands context outlook type rest after) :
      Expands context outlook type (.inline condition directives selections :: rest)
        (inside ++ after)
  | spread {type within : Option TypeName} {name : String} {fragment : Fragment}
      {directives : List Directive} {rest : List Selection} {inside after : List Occurrence}
      (hdefined : context.definition? name = some fragment)
      (hwithin : outlook.typeWithin type (some fragment.condition) = .ok within)
      (hinside : Expands context outlook within fragment.selections inside)
      (hrest : Expands context outlook type rest after) :
      Expands context outlook type (.spread name directives :: rest) (inside ++ after)
  | undefined {type : Option TypeName} {name : String} {directives : List Directive}
      {rest : List Selection} {after : List Occurrence}
      (hundefined : context.definition? name = none)
      (hrest : Expands context outlook type rest after) :
      Expands context outlook type (.spread name directives :: rest) after

/-- The node of an occurrence: a leaf if nothing is selected below it, and otherwise what is
selected at the place below it, told in the same way, with the arguments that are passed on. -/
inductive Loads (context : Context) (outlook : Outlook) : Occurrence → Node → Prop where
  | leaf {occurrence : Occurrence} (hselection : occurrence.selectionSet = none) :
      Loads context outlook occurrence .leaf
  | branch {occurrence : Occurrence} {selections : List Selection} {kind : FieldKind}
      {below : Option TypeName} {inside : List Occurrence} {select : ProjectionMap}
      {forwarded : OrderedMap String Datum}
      (hselection : occurrence.selectionSet = some selections)
      (hkind : occurrence.kind outlook = some kind)
      (hbelow : outlook.typeBelow occurrence.type occurrence.name kind = .ok below)
      (hexpands : Expands context outlook below selections inside)
      (hkeys : OrderedMap.keys select = ((kept outlook inside).map Occurrence.name).eraseDups)
      (hnodes : ∀ name last node, lastNamed name (kept outlook inside) = some last →
        OrderedMap.get? select name = some node → Loads context outlook last node)
      (hforwarded : (forwardArguments occurrence.arguments context.bindings
        context.options.strict relationArguments).result = .ok forwarded) :
      Loads context outlook occurrence (.ofParts select forwarded)

variable {context : Context} {outlook : Outlook}

theorem Expands.unique {type : Option TypeName} {selections : List Selection}
    {first second : List Occurrence} (h : Expands context outlook type selections first)
    (h' : Expands context outlook type selections second) : first = second := by
  induction h generalizing second with
  | nil =>
      cases h'
      rfl
  | field _ ih =>
      cases h' with
      | field hrest => rw [ih hrest]
  | inline hwithin _ _ ihInside ih =>
      cases h' with
      | inline hwithin' hinside hrest =>
          rw [hwithin] at hwithin'
          cases hwithin'
          rw [ihInside hinside, ih hrest]
  | spread hdefined hwithin _ _ ihInside ih =>
      cases h' with
      | spread hdefined' hwithin' hinside hrest =>
          rw [hdefined] at hdefined'
          cases hdefined'
          rw [hwithin] at hwithin'
          cases hwithin'
          rw [ihInside hinside, ih hrest]
      | undefined hundefined hrest =>
          rw [hdefined] at hundefined
          cases hundefined
  | undefined hundefined _ ih =>
      cases h' with
      | spread hdefined _ _ _ =>
          rw [hdefined] at hundefined
          cases hundefined
      | undefined _ hrest => exact ih hrest

theorem exists_lastNamed {name : String} {occurrences : List Occurrence}
    (h : name ∈ occurrences.map Occurrence.name) :
    ∃ last, lastNamed name occurrences = some last := by
  obtain ⟨occurrence, hmem, hname⟩ := List.mem_map.mp h
  have hnot : occurrences.filter (fun occurrence => occurrence.name = name) ≠ [] := by
    intro hnil
    have hall := List.filter_eq_nil_iff.mp hnil occurrence hmem
    exact hall (decide_eq_true hname)
  exact ⟨_, List.getLast?_eq_some_getLast hnot⟩

theorem mem_of_lastNamed {name : String} {occurrences : List Occurrence} {last : Occurrence}
    (h : lastNamed name occurrences = some last) : last ∈ occurrences ∧ last.name = name := by
  have hmem := List.mem_filter.mp (List.mem_of_getLast? h)
  exact ⟨hmem.1, of_decide_eq_true hmem.2⟩

/-- An occurrence has one node at most: `Loads` says all there is to say about it. -/
theorem Loads.unique {occurrence : Occurrence} {node other : Node}
    (h : Loads context outlook occurrence node) (h' : Loads context outlook occurrence other) :
    node = other := by
  induction h generalizing other with
  | leaf hselection =>
      cases h' with
      | leaf => rfl
      | branch hselection' =>
          rw [hselection] at hselection'
          cases hselection'
  | @branch occurrence selections kind below inside select forwarded hselection hkind hbelow
      hexpands hkeys _ hforwarded ih =>
      cases h' with
      | leaf hselection' =>
          rw [hselection] at hselection'
          cases hselection'
      | @branch _ _ _ _ _ select' _ hselection' hkind' hbelow' hexpands' hkeys' hnodes'
          hforwarded' =>
          rw [hselection] at hselection'
          cases hselection'
          rw [hkind] at hkind'
          cases hkind'
          rw [hbelow] at hbelow'
          cases hbelow'
          cases hexpands.unique hexpands'
          rw [hforwarded] at hforwarded'
          cases hforwarded'
          have hsame : select = select' := by
            refine OrderedMap.eq_of_get?_eq (hkeys.trans hkeys'.symm) ?_ fun name hname => ?_
            · rw [hkeys]
              exact OrderedMap.nodup_eraseDups _
            · obtain ⟨last, hlast⟩ := exists_lastNamed
                (List.mem_eraseDups.mp (hkeys ▸ hname : name ∈ List.eraseDups _))
              obtain ⟨found, hfound⟩ := OrderedMap.exists_get?_of_mem hname
              obtain ⟨found', hfound'⟩ := OrderedMap.exists_get?_of_mem
                (hkeys.trans hkeys'.symm ▸ hname)
              have hloads := hnodes' name last found' hlast hfound'
              rw [hfound, hfound', ih name last found hlast hfound hloads]
          rw [hsame]

/-! ### From writes to the last occurrence -/

def Writes (context : Context) (outlook : Outlook) (occurrence : Occurrence)
    (entry : String × Node) : Prop :=
  entry.1 = occurrence.name ∧ Loads context outlook occurrence entry.2

theorem map_fst_of_writes {occurrences : List Occurrence} {entries : ProjectionMap}
    (h : List.Forall₂ (Writes context outlook) occurrences entries) :
    entries.map Prod.fst = occurrences.map Occurrence.name := by
  induction h with
  | nil => rfl
  | cons hwrites _ ih => rw [List.map_cons, List.map_cons, hwrites.1, ih]

theorem getLast?_of_forall₂ {α β : Type} {R : α → β → Prop} {as : List α} {bs : List β}
    (h : List.Forall₂ R as bs) {a : α} {b : β} (ha : as.getLast? = some a)
    (hb : bs.getLast? = some b) : R a b := by
  rw [List.getLast?_eq_head?_reverse] at ha hb
  have hreverse := List.rel_reverse h
  generalize as.reverse = as' at ha hreverse
  generalize bs.reverse = bs' at hb hreverse
  cases hreverse with
  | nil => cases ha
  | cons hab _ =>
      cases ha
      cases hb
      exact hab

/-- Under a name stands the node of the last occurrence that writes it. -/
theorem loads_of_writes {occurrences : List Occurrence} {entries : ProjectionMap}
    (h : List.Forall₂ (Writes context outlook) occurrences entries) {name : String}
    {last : Occurrence} {node : Node} (hlast : lastNamed name occurrences = some last)
    (hnode : OrderedMap.get? (OrderedMap.ofList entries) name = some node) :
    Loads context outlook last node := by
  rw [OrderedMap.get?_ofList, Option.map_eq_some_iff] at hnode
  obtain ⟨⟨key, found⟩, hfound, rfl⟩ := hnode
  have hfilter : List.Forall₂ (Writes context outlook)
      (occurrences.filter fun occurrence => occurrence.name = name)
      (entries.filter fun entry => entry.1 = name) := by
    refine List.rel_filter ?_ h
    intro occurrence entry hwrites
    simp only [decide_eq_true_eq, hwrites.1]
  exact (getLast?_of_forall₂ hfilter hlast hfound).2

theorem Expands.cons {type : Option TypeName} {selection : Selection} {rest : List Selection}
    {first after : List Occurrence} (h : Expands context outlook type [selection] first)
    (hrest : Expands context outlook type rest after) :
    Expands context outlook type (selection :: rest) (first ++ after) := by
  cases h with
  | field hnil =>
      cases hnil
      exact .field hrest
  | inline hwithin hinside hnil =>
      cases hnil
      rw [List.append_nil]
      exact .inline hwithin hinside hrest
  | spread hdefined hwithin hinside hnil =>
      cases hnil
      rw [List.append_nil]
      exact .spread hdefined hwithin hinside hrest
  | undefined hundefined hnil =>
      cases hnil
      exact .undefined hundefined hrest

/-- The occurrences of some selections that are kept make these writes, in order. -/
def Made (context : Context) (outlook : Outlook) (type : Option TypeName)
    (selections : List Selection) (entries : ProjectionMap) : Prop :=
  ∃ occurrences, Expands context outlook type selections occurrences ∧
    List.Forall₂ (Writes context outlook) (kept outlook occurrences) entries

theorem Made.cons {type : Option TypeName} {selection : Selection} {rest : List Selection}
    {first after : ProjectionMap} (h : Made context outlook type [selection] first)
    (hrest : Made context outlook type rest after) :
    Made context outlook type (selection :: rest) (first ++ after) := by
  obtain ⟨occurrences, hexpands, hwrites⟩ := h
  obtain ⟨others, hexpands', hwrites'⟩ := hrest
  refine ⟨occurrences ++ others, hexpands.cons hexpands', ?_⟩
  rw [kept, List.filter_append]
  exact List.rel_append hwrites hwrites'

section Walks

variable {enter : Enter} {memory : Memory} (hsteady : context.Steady)
  (hsettled : SettledEnter context enter)
  (henter : ∀ name fragment type map, (enter name fragment type memory).result = .ok map →
    ∃ entries, Made context (context.outlook memory) type fragment.selections entries ∧
      map = OrderedMap.ofList entries)

/-- What a walk of some selections writes is made by their occurrences. -/
def WritesMade (context : Context) (enter : Enter) (memory : Memory)
    (selections : List Selection) : Prop :=
  ∀ {type : Option TypeName} {filter : FieldFilter} {before map : ProjectionMap},
    (context.outlook memory).filterAt type = .ok filter →
    (writeAll context enter type filter before selections memory).result = .ok map →
    ∃ entries, Made context (context.outlook memory) type selections entries ∧
      map = OrderedMap.merge before entries

include hsteady hsettled

theorem selectionSet_made {selections : List Selection}
    (h : WritesMade context enter memory selections) {type : Option TypeName}
    {map : ProjectionMap}
    (hmap : (selectionSet context enter type selections memory).result = .ok map) :
    ∃ entries, Made context (context.outlook memory) type selections entries ∧
      map = OrderedMap.ofList entries := by
  rw [(gives_selectionSet hsteady hsettled type selections).result, bind_eq_ok] at hmap
  obtain ⟨filter, hfilter, hwritten⟩ := hmap
  exact h hfilter hwritten

theorem loads_of_branch {name : String} {kind : FieldKind} {type below : Option TypeName}
    {arguments : List Argument} {selections : List Selection} {select : ProjectionMap}
    {forwarded : OrderedMap String Datum} (hnested : WritesMade context enter memory selections)
    (hkind : Occurrence.kind (context.outlook memory)
      { type, name, arguments, selectionSet := some selections } = some kind)
    (hbelow : (context.outlook memory).typeBelow type name kind = .ok below)
    (hselect : (selectionSet context enter below selections memory).result = .ok select)
    (hforwarded : (context.forwarded arguments memory).result = .ok forwarded) :
    Loads context (context.outlook memory)
      { type, name, arguments, selectionSet := some selections } (.ofParts select forwarded) := by
  obtain ⟨entries, ⟨inside, hexpands, hwrites⟩, rfl⟩ :=
    selectionSet_made hsteady hsettled hnested hselect
  refine .branch rfl hkind hbelow hexpands ?_ (fun name last node => loads_of_writes hwrites)
    hforwarded
  rw [OrderedMap.keys_ofList, map_fst_of_writes hwrites]

include henter

theorem writeOne_made {selection : Selection}
    (hnested : WritesMade context enter memory selection.nested) {type : Option TypeName}
    {filter : FieldFilter} {before map : ProjectionMap}
    (hfilter : (context.outlook memory).filterAt type = .ok filter)
    (h : (writeOne context enter type filter before selection memory).result = .ok map) :
    ∃ entries, Made context (context.outlook memory) type [selection] entries ∧
      map = OrderedMap.merge before entries := by
  cases selection with
  | field aliasName name arguments directives selections =>
      let occurrence : Occurrence := { type, name, arguments, selectionSet := selections }
      have hexpands : Expands context (context.outlook memory) type
          [.field aliasName name arguments directives selections] [occurrence] := .field .nil
      have hkindOf : occurrence.kind (context.outlook memory) = filter.classify name := by
        simp only [Occurrence.kind, occurrence, hfilter]
      cases hkind : filter.classify name with
      | none =>
          rw [writeOne_dropped before hkind] at h
          cases h
          refine ⟨[], ⟨[occurrence], hexpands, ?_⟩, rfl⟩
          rw [kept, List.filter_singleton, hkindOf, hkind]
          exact .nil
      | some kind =>
          have hkept : kept (context.outlook memory) [occurrence] = [occurrence] := by
            rw [kept, List.filter_singleton, hkindOf, hkind]
            rfl
          cases selections with
          | none =>
              rw [writeOne_leaf before hkind] at h
              cases h
              refine ⟨[(name, .leaf)], ⟨[occurrence], hexpands, ?_⟩, rfl⟩
              rw [hkept]
              exact .cons ⟨rfl, .leaf rfl⟩ .nil
          | some selections =>
              rw [(gives_branch hsteady hsettled before hkind aliasName arguments directives
                selections).result] at h
              simp only [bind_eq_ok] at h
              obtain ⟨below, hbelow, select, hselect, forwarded, hforwarded, h⟩ := h
              cases h
              refine ⟨[(name, .ofParts select forwarded)], ⟨[occurrence], hexpands, ?_⟩, rfl⟩
              rw [hkept]
              have hloads := loads_of_branch hsteady hsettled hnested (hkindOf.trans hkind) hbelow
                hselect hforwarded
              exact .cons ⟨rfl, hloads⟩ .nil
  | spread name directives =>
      rw [(gives_spread hsteady hsettled before name directives).result] at h
      cases hdefined : context.definition? name with
      | none =>
          simp only [hdefined] at h
          split at h
          · cases h
          · cases h
            exact ⟨[], ⟨[], .undefined hdefined .nil, .nil⟩, rfl⟩
      | some fragment =>
          simp only [hdefined, bind_eq_ok] at h
          obtain ⟨within, hwithin, inner, hinner, h⟩ := h
          cases h
          -- the map of the fragment was made by writes, which may as well be made here
          obtain ⟨entries, ⟨inside, hexpands, hwrites⟩, rfl⟩ :=
            henter name fragment within inner hinner
          refine ⟨entries, ⟨inside, ?_, hwrites⟩, OrderedMap.merge_ofList before entries⟩
          have hspread : Expands context (context.outlook memory) type
              [.spread name directives] (inside ++ []) :=
            .spread hdefined hwithin hexpands .nil
          rwa [List.append_nil] at hspread
  | inline condition directives selections =>
      rw [(gives_inline hsteady hsettled before condition directives selections).result] at h
      simp only [bind_eq_ok] at h
      obtain ⟨within, hwithin, inner, hinner, h⟩ := h
      cases h
      obtain ⟨entries, ⟨inside, hexpands, hwrites⟩, rfl⟩ :=
        selectionSet_made hsteady hsettled hnested hinner
      refine ⟨entries, ⟨inside, ?_, hwrites⟩, OrderedMap.merge_ofList before entries⟩
      have hinline : Expands context (context.outlook memory) type
          [.inline condition directives selections] (inside ++ []) :=
        .inline hwithin hexpands .nil
      rwa [List.append_nil] at hinline
  | other name =>
      rw [writeOne_other] at h
      cases h

theorem writeAll_made (selections : List Selection) :
    WritesMade context enter memory selections := by
  induction selections using Selection.listInduction with
  | nil =>
      intro type filter before map hfilter h
      rw [writeAll_nil] at h
      cases h
      exact ⟨[], ⟨[], .nil, .nil⟩, rfl⟩
  | cons selection rest ihNested ih =>
      intro type filter before map hfilter h
      rw [(gives_writeAll_cons hsteady hsettled before selection rest).result, bind_eq_ok] at h
      obtain ⟨written, hone, hrest⟩ := h
      obtain ⟨first, hfirst, rfl⟩ :=
        writeOne_made hsteady hsettled henter ihNested hfilter hone
      obtain ⟨after, hafter, rfl⟩ := ih hfilter hrest
      exact ⟨first ++ after, hfirst.cons hafter, (OrderedMap.merge_append before first after).symm⟩

end Walks

/-! ### Whole compilations -/

theorem enterWithin_made {memory : Memory} (hsteady : context.Steady) (depth : Nat) :
    ∀ active name fragment type map,
      (enterWithin context depth active name fragment type memory).result = .ok map →
      ∃ entries, Made context (context.outlook memory) type fragment.selections entries ∧
        map = OrderedMap.ofList entries := by
  induction depth with
  | zero =>
      intro active name fragment type map h
      cases h
  | succ depth ih =>
      intro active name fragment type map h
      rw [enterWithin_succ] at h
      split at h
      · cases h
      · have hinner := settled_enterWithin hsteady depth ((name, type.map TypeName.key) :: active)
        exact selectionSet_made hsteady hinner
          (writeAll_made hsteady hinner (ih _) fragment.selections) h

theorem compileSelections_made (hsteady : context.Steady) {memory : Memory}
    {selections : Option (List Selection)} {map : ProjectionMap}
    (h : (compileSelections context selections memory).result = .ok map) :
    ∃ entries, Made context (context.outlook memory) context.root (selections.getD []) entries ∧
      map = OrderedMap.ofList entries := by
  obtain ⟨after, hsame, hwalk⟩ := exists_walk_of_ok hsteady h
  have hsettled := settled_enterWithin hsteady (budget context after) []
  rw [← hsame]
  exact selectionSet_made hsteady hsettled
    (writeAll_made hsteady hsettled (enterWithin_made hsteady _ []) _) hwalk

/-- What is compiled is the flat list of the kept occurrences: the names in the order in which
they first occur, and under each name the node of its last occurrence, which is the only node
that occurrence can have. -/
theorem compileSelections_last_wins (hsteady : context.Steady) {memory : Memory}
    {selections : Option (List Selection)} {map : ProjectionMap}
    (h : (compileSelections context selections memory).result = .ok map) :
    ∃ occurrences,
      Expands context (context.outlook memory) context.root (selections.getD []) occurrences ∧
      (∀ others, Expands context (context.outlook memory) context.root (selections.getD [])
        others → others = occurrences) ∧
      OrderedMap.keys map =
        ((kept (context.outlook memory) occurrences).map Occurrence.name).eraseDups ∧
      ∀ name last, lastNamed name (kept (context.outlook memory) occurrences) = some last →
        ∃ node, OrderedMap.get? map name = some node ∧
          Loads context (context.outlook memory) last node ∧
          ∀ other, Loads context (context.outlook memory) last other → other = node := by
  obtain ⟨entries, ⟨occurrences, hexpands, hwrites⟩, rfl⟩ := compileSelections_made hsteady h
  have hkeys : OrderedMap.keys (OrderedMap.ofList entries) =
      ((kept (context.outlook memory) occurrences).map Occurrence.name).eraseDups := by
    rw [OrderedMap.keys_ofList, map_fst_of_writes hwrites]
  refine ⟨occurrences, hexpands, fun others hothers => hothers.unique hexpands, hkeys, ?_⟩
  intro name last hlast
  have hname : name ∈ OrderedMap.keys (OrderedMap.ofList entries) := by
    rw [hkeys, List.mem_eraseDups]
    exact List.mem_map.mpr ⟨last, mem_of_lastNamed hlast⟩
  obtain ⟨node, hnode⟩ := OrderedMap.exists_get?_of_mem hname
  have hloads := loads_of_writes hwrites hlast hnode
  exact ⟨node, hnode, hloads, fun other hother => hother.unique hloads⟩

/-- A friend is selected twice, with a fragment in between that is not defined. -/
def friendTwice : List Selection :=
  [.spread "Named" [], plainField "friend" (some [plainField "name" none]),
    .spread "Missing" [], plainField "id" none,
    .inline (some "Person") [] [plainField "friend" (some [plainField "id" none])]]

def amongNamed : Context := aboutPeople [("Named", "Person", [plainField "name" none])]

theorem result_friendTwice :
    (compileSelections amongNamed (some friendTwice) Memory.empty).result =
      .ok [("name", .leaf), ("friend", .relation [("id", .leaf)] []), ("id", .leaf)] := by
  rfl

/-- The friend is selected as it was the second time, and stays in second place. -/
theorem last_wins_friendTwice :
    amongNamed.Steady ∧
      (compileSelections amongNamed (some friendTwice) Memory.empty).result =
        .ok [("name", .leaf), ("friend", .relation [("id", .leaf)] []), ("id", .leaf)] ∧
      ∃ occurrences,
        Expands amongNamed (amongNamed.outlook Memory.empty) amongNamed.root friendTwice
          occurrences ∧
        ["name", "friend", "id"] = ((kept (amongNamed.outlook Memory.empty)
          occurrences).map Occurrence.name).eraseDups := by
  have hsteady : amongNamed.Steady := steady_aboutPeople _
  obtain ⟨occurrences, hexpands, -, hkeys, -⟩ :=
    compileSelections_last_wins hsteady result_friendTwice
  exact ⟨hsteady, result_friendTwice, occurrences, hexpands, hkeys⟩

end Expansion

end QueryProjection
