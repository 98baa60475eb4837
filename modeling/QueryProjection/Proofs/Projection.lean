import QueryProjection.Projection
import QueryProjection.Proofs.Merging

/-!
# Merging projections

A projection has two maps, what to select and what to include, and either may be absent, which is
not the same as being empty.  Merging takes any number of projections and makes one of them, map by
map.  The merged map is the table of all that the maps write, one after the other, and it is there
if one of them is (`isSome_foldl_mergeMap`, `getD_foldl_mergeMap`).

It follows that merges may be merged.  In whatever way projections are grouped, and groups grouped
again, the last merge of all is the same as if the projections had been merged at once
(`MergedFrom`).  A projection without maps may be left out, and one merge over itself is the merge.
All of this is said of projections that are given as plain data, for which names other than those
of the two maps mean nothing.
-/

namespace QueryProjection

namespace OrderedMap

variable {α : Type u}

theorem ofList_append_self (entries : List (String × α)) :
    ofList (entries ++ entries) = ofList entries := by
  have hkeys : keys (ofList (entries ++ entries)) = keys (ofList entries) := by
    have hnone : (entries.map Prod.fst).removeAll (entries.map Prod.fst) = [] :=
      List.filter_eq_nil_iff.mpr fun key hkey => by simpa using hkey
    rw [keys_ofList, keys_ofList, List.map_append, List.eraseDups_append, hnone, List.eraseDups_nil,
      List.append_nil]
  refine eq_of_get?_eq hkeys (nodup_keys_ofList _) fun key _ => ?_
  rw [get?_ofList_append]
  cases get? (ofList entries) key <;> rfl

theorem merge_self {m : OrderedMap String α} (h : (keys m).Nodup) : merge m m = m := by
  have hself := ofList_append_self m
  rw [ofList, merge_append] at hself
  rwa [← ofList, ofList_of_nodup h] at hself

theorem mapValues_id (m : OrderedMap String α) : mapValues id m = m :=
  List.map_id m

end OrderedMap

namespace ProjectionParts

variable {α : Type u}

/-! ### One map of each projection -/

theorem getD_mergeMap (base update : Option (OrderedMap String α)) :
    (mergeMap base update).getD [] = OrderedMap.merge (base.getD []) (update.getD []) := by
  cases update <;> rfl

/-- There is a map in the end if there is one anywhere, be it empty. -/
theorem isSome_foldl_mergeMap (maps : List (Option (OrderedMap String α))) :
    (maps.foldl mergeMap none).isSome ↔ ∃ map ∈ maps, map.isSome := by
  induction maps using List.reverseRecOn with
  | nil => simp
  | append_singleton maps map ih =>
      rw [List.foldl_append, List.foldl_cons, List.foldl_nil]
      cases map with
      | none => simp [mergeMap, ih]
      | some entries => simp [mergeMap]

/-- The map in the end is the table of all that the maps write. -/
theorem getD_foldl_mergeMap (maps : List (Option (OrderedMap String α))) :
    (maps.foldl mergeMap none).getD [] =
      OrderedMap.ofList (maps.flatMap fun map => map.getD []) := by
  induction maps using List.reverseRecOn with
  | nil => rfl
  | append_singleton maps map ih =>
      rw [List.foldl_append, List.foldl_cons, List.foldl_nil, getD_mergeMap, ih,
        List.flatMap_append, List.flatMap_singleton, OrderedMap.ofList, OrderedMap.ofList,
        OrderedMap.merge_append]

theorem mergeMap_assoc (base : Option (OrderedMap String α)) {map : Option (OrderedMap String α)}
    (hmap : (OrderedMap.keys (map.getD [])).Nodup) (update : Option (OrderedMap String α)) :
    mergeMap base (mergeMap map update) = mergeMap (mergeMap base map) update := by
  cases update with
  | none => rfl
  | some written =>
      show some (OrderedMap.merge (base.getD []) (OrderedMap.merge (map.getD []) written)) =
        some (OrderedMap.merge ((mergeMap base map).getD []) written)
      rw [getD_mergeMap, OrderedMap.merge_assoc _ hmap]

theorem mergeMap_none_self {map : Option (OrderedMap String α)}
    (hmap : (OrderedMap.keys (map.getD [])).Nodup) : mergeMap none map = map := by
  cases map with
  | none => rfl
  | some entries => exact congrArg some (OrderedMap.ofList_of_nodup hmap)

theorem mergeMap_self {map : Option (OrderedMap String α)}
    (hmap : (OrderedMap.keys (map.getD [])).Nodup) : mergeMap map map = map := by
  cases map with
  | none => rfl
  | some entries => exact congrArg some (OrderedMap.merge_self hmap)

/-! ### Both maps -/

/-- Neither map holds anything twice. -/
structure Tidy (parts : ProjectionParts α) : Prop where
  select : (OrderedMap.keys (parts.select.getD [])).Nodup
  included : (OrderedMap.keys (parts.included.getD [])).Nodup

theorem Tidy.mergeOver {base : ProjectionParts α} (h : base.Tidy) (update : ProjectionParts α) :
    (base.mergeOver update).Tidy where
  select := by
    show (OrderedMap.keys ((mergeMap base.select update.select).getD [])).Nodup
    rw [getD_mergeMap]
    exact OrderedMap.nodup_keys_merge h.select _
  included := by
    show (OrderedMap.keys ((mergeMap base.included update.included).getD [])).Nodup
    rw [getD_mergeMap]
    exact OrderedMap.nodup_keys_merge h.included _

theorem tidy_merge (projections : List (ProjectionParts α)) : (merge projections).Tidy := by
  induction projections using List.reverseRecOn with
  | nil => exact ⟨List.nodup_nil, List.nodup_nil⟩
  | append_singleton projections projection ih =>
      rw [merge, List.foldl_append]
      exact ih.mergeOver projection

theorem mergeOver_assoc (base : ProjectionParts α) {middle : ProjectionParts α}
    (hmiddle : middle.Tidy) (update : ProjectionParts α) :
    base.mergeOver (middle.mergeOver update) = (base.mergeOver middle).mergeOver update := by
  simp only [mergeOver, mergeMap_assoc _ hmiddle.select, mergeMap_assoc _ hmiddle.included]

/-- Merging a merge over a projection is merging its projections over it. -/
theorem mergeOver_merge (base : ProjectionParts α) (projections : List (ProjectionParts α)) :
    base.mergeOver (merge projections) = projections.foldl mergeOver base := by
  induction projections using List.reverseRecOn with
  | nil => rfl
  | append_singleton projections projection ih =>
      have hmerge : merge (projections ++ [projection]) =
          (merge projections).mergeOver projection := by
        rw [merge, List.foldl_append]
        rfl
      rw [hmerge, mergeOver_assoc base (tidy_merge projections), ih, List.foldl_append]
      rfl

theorem merge_append (first second : List (ProjectionParts α)) :
    merge (first ++ second) = merge [merge first, merge second] := by
  calc merge (first ++ second)
    _ = second.foldl mergeOver (merge first) := by rw [merge, List.foldl_append]; rfl
    _ = second.foldl mergeOver (empty.mergeOver (merge first)) := by rw [mergeOver_merge]; rfl
    _ = merge [merge first, merge second] := by rw [← mergeOver_merge]; rfl

theorem merge_self {parts : ProjectionParts α} (h : parts.Tidy) : merge [parts, parts] = parts := by
  have hfirst : empty.mergeOver parts = parts := by
    simp only [mergeOver, empty, mergeMap_none_self h.select, mergeMap_none_self h.included]
  show (empty.mergeOver parts).mergeOver parts = parts
  rw [hfirst]
  simp only [mergeOver, mergeMap_self h.select, mergeMap_self h.included]

theorem select_merge (projections : List (ProjectionParts α)) :
    (merge projections).select = (projections.map select).foldl mergeMap none := by
  induction projections using List.reverseRecOn with
  | nil => rfl
  | append_singleton projections projection ih =>
      rw [merge, List.foldl_append, List.map_append, List.foldl_append, ← ih]
      rfl

theorem included_merge (projections : List (ProjectionParts α)) :
    (merge projections).included = (projections.map included).foldl mergeMap none := by
  induction projections using List.reverseRecOn with
  | nil => rfl
  | append_singleton projections projection ih =>
      rw [merge, List.foldl_append, List.map_append, List.foldl_append, ← ih]
      rfl

/-! ### Projections as plain data -/

def mapNames : List String := ["select", "include"]

def map? (d : Datum) (name : String) : Option (OrderedMap String Datum) :=
  (d.field? name).bind Datum.fields?

/-- A projection in the shape in which it is given: an object, in which a map is an object or null,
and neither names anything twice. -/
structure Given (d : Datum) : Prop where
  object : ∃ entries, d = .object entries ∧ (OrderedMap.keys entries).Nodup
  maps : ∀ name ∈ mapNames, ∀ value, d.field? name = some value →
    value = .null ∨ ∃ nodes, value = .object nodes ∧ (OrderedMap.keys nodes).Nodup

theorem Given.of_entries {entries : OrderedMap String Datum}
    (hnames : (OrderedMap.keys entries).Nodup)
    (hmaps : ∀ entry ∈ entries, entry.1 ∈ mapNames →
      entry.2 = .null ∨ ∃ nodes, entry.2 = .object nodes ∧ (OrderedMap.keys nodes).Nodup) :
    Given (.object entries) where
  object := ⟨entries, rfl, hnames⟩
  maps name hname value hvalue := hmaps (name, value) (OrderedMap.mem_of_get? hvalue) hname

/-- What is written can be read. -/
theorem ofDatum_toDatum (parts : ProjectionParts Datum) : ofDatum (parts.toDatum id) = parts := by
  obtain ⟨select, included⟩ := parts
  cases select <;> cases included <;>
    simp [ofDatum, toDatum, Datum.field?, Datum.fields?, OrderedMap.get?, OrderedMap.mapValues_id]

theorem ofDatum_mergeData (projections : List Datum) :
    ofDatum (mergeData projections) = merge (projections.map ofDatum) :=
  ofDatum_toDatum _

theorem mergeData_append (first second : List Datum) :
    mergeData (first ++ second) = mergeData [mergeData first, mergeData second] := by
  have h := merge_append (first.map ofDatum) (second.map ofDatum)
  rw [← List.map_append] at h
  show (merge _).toDatum id = (merge [ofDatum _, ofDatum _]).toDatum id
  rw [h, ofDatum_mergeData, ofDatum_mergeData]

theorem mergeData_self (projections : List Datum) :
    mergeData [mergeData projections, mergeData projections] = mergeData projections := by
  show (merge [ofDatum _, ofDatum _]).toDatum id = _
  rw [ofDatum_mergeData, merge_self (tidy_merge _)]
  rfl

/-- A projection without maps may stand anywhere. -/
theorem mergeData_empty (first second : List Datum) :
    mergeData (first ++ .object [] :: second) = mergeData (first ++ second) := by
  have hempty : ∀ base : ProjectionParts Datum, base.mergeOver (ofDatum (.object [])) = base :=
    fun _ => rfl
  simp only [mergeData, merge, List.map_append, List.map_cons, List.foldl_append, List.foldl_cons,
    hempty]

/-- The projections are merged into one, in groups, which may be merged in groups in turn. -/
inductive MergedFrom : List Datum → Datum → Prop where
  | given (projection : Datum) : MergedFrom [projection] projection
  | merged {groups : List (List Datum × Datum)} (h : ∀ group ∈ groups, MergedFrom group.1 group.2) :
      MergedFrom (groups.flatMap Prod.fst) (mergeData (groups.map Prod.snd))

theorem MergedFrom.mergeOver {projections : List Datum} {merged : Datum}
    (h : MergedFrom projections merged) (base : ProjectionParts Datum) :
    base.mergeOver (ofDatum merged) = (projections.map ofDatum).foldl mergeOver base := by
  induction h generalizing base with
  | given projection => rfl
  | @merged groups _ ih =>
      rw [ofDatum_mergeData, mergeOver_merge]
      clear * - ih
      induction groups generalizing base with
      | nil => rfl
      | cons group rest ihRest =>
          rw [List.forall_mem_cons] at ih
          rw [List.map_cons, List.map_cons, List.foldl_cons, List.flatMap_cons, List.map_append,
            List.foldl_append, ih.1 base]
          exact ihRest ih.2 _

theorem mergeData_of_mergedFrom {projections : List Datum} {merged : Datum}
    (h : MergedFrom projections merged) : mergeData [merged] = mergeData projections :=
  congrArg (toDatum id) (h.mergeOver empty)

/-! ### What a merge holds -/

theorem exists_entries_mergeData (projections : List Datum) :
    ∃ entries, mergeData projections = .object entries ∧ (OrderedMap.keys entries).Nodup ∧
      ∀ name ∈ OrderedMap.keys entries, name ∈ mapNames := by
  unfold mergeData
  generalize merge (projections.map ofDatum) = parts
  obtain ⟨select, included⟩ := parts
  refine ⟨_, rfl, ?_⟩
  cases select <;> cases included <;> simp [OrderedMap.keys, mapNames]

theorem map?_mergeData {name : String} (hname : name ∈ mapNames) (projections : List Datum) :
    map? (mergeData projections) name =
      (projections.map fun projection => map? projection name).foldl mergeMap none := by
  have h := ofDatum_mergeData projections
  simp only [mapNames, List.mem_cons, List.not_mem_nil, or_false] at hname
  rcases hname with rfl | rfl
  · have hselect := congrArg select h
    rwa [select_merge, List.map_map] at hselect
  · have hincluded := congrArg included h
    rwa [included_merge, List.map_map] at hincluded

/-- A map is what stands under its name. -/
theorem field?_mergeData {name : String} {projections : List Datum} {value : Datum}
    (h : (mergeData projections).field? name = some value) :
    ∃ nodes, value = .object nodes ∧ map? (mergeData projections) name = some nodes := by
  have hobject : ∀ entry ∈ ((mergeData projections).fields?).getD [], ∃ nodes,
      entry.2 = .object nodes := by
    unfold mergeData
    generalize merge (projections.map ofDatum) = parts
    obtain ⟨select, included⟩ := parts
    cases select <;> cases included <;> simp [toDatum, Datum.fields?]
  obtain ⟨entries, hentries, -⟩ := exists_entries_mergeData projections
  rw [hentries] at h hobject ⊢
  obtain ⟨nodes, rfl⟩ := hobject (name, value) (OrderedMap.mem_of_get? h)
  exact ⟨nodes, rfl, by rw [map?, h]; rfl⟩

theorem isSome_map?_mergeData (name : String) (projections : List Datum) :
    (map? (mergeData projections) name).isSome ↔
      ∃ value, (mergeData projections).field? name = some value := by
  constructor
  · intro hsome
    obtain ⟨nodes, hnodes⟩ := Option.isSome_iff_exists.mp hsome
    obtain ⟨value, hvalue, -⟩ := Option.bind_eq_some_iff.mp hnodes
    exact ⟨value, hvalue⟩
  · rintro ⟨value, hvalue⟩
    obtain ⟨nodes, -, hnodes⟩ := field?_mergeData hvalue
    rw [hnodes]
    rfl

section Given

variable {name : String} (hname : name ∈ mapNames)

include hname

theorem Given.isSome_map? {d : Datum} (h : Given d) :
    (map? d name).isSome ↔ ∃ value, d.field? name = some value ∧ value ≠ .null := by
  unfold map?
  cases hfield : d.field? name with
  | none => simp
  | some value =>
      rcases h.maps name hname value hfield with rfl | ⟨nodes, rfl, -⟩ <;> simp [Datum.fields?]

theorem Given.nodup_map? {d : Datum} (h : Given d) :
    (OrderedMap.keys ((map? d name).getD [])).Nodup := by
  unfold map?
  cases hfield : d.field? name with
  | none => exact List.nodup_nil
  | some value =>
      rcases h.maps name hname value hfield with rfl | ⟨nodes, rfl, hnodes⟩
      · exact List.nodup_nil
      · exact hnodes

variable {projections : List Datum} (hgiven : ∀ projection ∈ projections, Given projection)

include hgiven

/-- A merge has a map if one of the projections has it. -/
theorem has_map_mergeData_iff :
    (∃ value, (mergeData projections).field? name = some value) ↔
      ∃ projection ∈ projections, ∃ value,
        projection.field? name = some value ∧ value ≠ .null := by
  rw [← isSome_map?_mergeData, map?_mergeData hname, isSome_foldl_mergeMap]
  constructor
  · rintro ⟨_, hmap, hsome⟩
    obtain ⟨projection, hprojection, rfl⟩ := List.mem_map.mp hmap
    exact ⟨projection, hprojection, ((hgiven projection hprojection).isSome_map? hname).mp hsome⟩
  · rintro ⟨projection, hprojection, hsome⟩
    exact ⟨_, List.mem_map_of_mem hprojection,
      ((hgiven projection hprojection).isSome_map? hname).mpr hsome⟩

/-- What stands in a map comes from the last projection in whose map the name appears. -/
theorem exists_nodes_mergeData {value : Datum}
    (h : (mergeData projections).field? name = some value) :
    ∃ nodes, value = .object nodes ∧
      OrderedMap.keys nodes = (projections.flatMap fun projection =>
        OrderedMap.keys ((map? projection name).getD [])).eraseDups ∧
      ∀ field node, OrderedMap.get? nodes field = some node ↔
        ∃ before projection after, projections = before ++ projection :: after ∧
          OrderedMap.get? ((map? projection name).getD []) field = some node ∧
          ∀ later ∈ after, field ∉ OrderedMap.keys ((map? later name).getD []) := by
  obtain ⟨nodes, rfl, hnodes⟩ := field?_mergeData h
  have htable : nodes = OrderedMap.ofList
      (projections.flatMap fun projection => (map? projection name).getD []) := by
    have hwritten := getD_foldl_mergeMap (projections.map fun projection => map? projection name)
    rwa [← map?_mergeData hname, hnodes, Option.getD_some, List.flatMap_map] at hwritten
  have hsame : ∀ projection ∈ projections, OrderedMap.ofList ((map? projection name).getD []) =
      (map? projection name).getD [] := fun projection hprojection =>
    OrderedMap.ofList_of_nodup ((hgiven projection hprojection).nodup_map? hname)
  refine ⟨nodes, rfl, ?_, fun field node => ?_⟩
  · rw [htable, OrderedMap.keys_ofList, List.map_flatMap]
    rfl
  · rw [htable, OrderedMap.get?_ofList_flatMap]
    refine exists_congr fun before => exists_congr fun projection => exists_congr fun after =>
      and_congr_right fun hsplit => ?_
    rw [hsame projection (hsplit ▸ List.mem_append_right before (List.mem_cons_self ..))]
    rfl

end Given

/-- Merging projections is associative, has the projection without maps as its unit, and is
idempotent.  A merge has a map exactly if one of the projections has it.  In the map stands, for
each name that appears in theirs, the node of the last of them, and the names stand in the order in
which they first appear. -/
theorem mergeData_last_wins (first second : List Datum) {projections : List Datum}
    (hgiven : ∀ projection ∈ projections, Given projection) :
    mergeData (first ++ second) = mergeData [mergeData first, mergeData second] ∧
    (∀ merged, MergedFrom projections merged → mergeData [merged] = mergeData projections) ∧
    mergeData [] = .object [] ∧
    mergeData (first ++ .object [] :: second) = mergeData (first ++ second) ∧
    mergeData [mergeData first, mergeData first] = mergeData first ∧
    (∃ entries, mergeData projections = .object entries ∧ (OrderedMap.keys entries).Nodup ∧
      ∀ name ∈ OrderedMap.keys entries, name ∈ mapNames) ∧
    ∀ name ∈ mapNames,
      ((∃ value, (mergeData projections).field? name = some value) ↔
        ∃ projection ∈ projections, ∃ value,
          projection.field? name = some value ∧ value ≠ .null) ∧
      ∀ value, (mergeData projections).field? name = some value → ∃ nodes, value = .object nodes ∧
        OrderedMap.keys nodes = (projections.flatMap fun projection =>
          OrderedMap.keys ((map? projection name).getD [])).eraseDups ∧
        ∀ field node, OrderedMap.get? nodes field = some node ↔
          ∃ before projection after, projections = before ++ projection :: after ∧
            OrderedMap.get? ((map? projection name).getD []) field = some node ∧
            ∀ later ∈ after, field ∉ OrderedMap.keys ((map? later name).getD []) := by
  refine ⟨mergeData_append first second, fun merged => mergeData_of_mergedFrom, rfl,
    mergeData_empty first second, mergeData_self first, exists_entries_mergeData projections,
    fun name hname => ⟨has_map_mergeData_iff hname hgiven, fun value hvalue => ?_⟩⟩
  exact exists_nodes_mergeData hname hgiven hvalue

def wholePosts : Datum :=
  .object [("select", .object [("id", .bool true), ("posts", .bool true)]), ("take", .int 5)]

def withProfile : Datum :=
  .object [("include", .object [("profile", .bool true)]), ("select", .null)]

def titledPosts : Datum :=
  .object [("select", .object [("posts", .object [("select", .object [("title", .bool true)])]),
    ("name", .bool true)])]

/-- The posts are selected as they were the last time, and stay in second place. -/
theorem last_wins_posts :
    (∀ projection ∈ [wholePosts, withProfile, titledPosts], Given projection) ∧
      ∃ nodes, (mergeData [wholePosts, withProfile, titledPosts]).field? "select" =
          some (.object nodes) ∧
        OrderedMap.keys nodes = ["id", "posts", "name"] ∧
        OrderedMap.get? nodes "posts" =
          some (.object [("select", .object [("title", .bool true)])]) := by
  have hmap : ∀ {nodes : OrderedMap String Datum}, (OrderedMap.keys nodes).Nodup →
      Datum.object nodes = .null ∨ ∃ found, Datum.object nodes = .object found ∧
        (OrderedMap.keys found).Nodup := fun hnodes => Or.inr ⟨_, rfl, hnodes⟩
  have hgiven : ∀ projection ∈ [wholePosts, withProfile, titledPosts], Given projection := by
    simp only [List.forall_mem_cons]
    refine ⟨.of_entries (by decide) ?_, .of_entries (by decide) ?_, .of_entries (by decide) ?_,
      nofun⟩
    · simp only [List.forall_mem_cons]
      exact ⟨fun _ => hmap (by decide), fun hname => absurd hname (by decide), nofun⟩
    · simp only [List.forall_mem_cons]
      exact ⟨fun _ => hmap (by decide), fun _ => Or.inl trivial, nofun⟩
    · simp only [List.forall_mem_cons]
      exact ⟨fun _ => hmap (by decide), nofun⟩
  obtain ⟨-, -, -, -, -, -, hmaps⟩ := mergeData_last_wins [] [] hgiven
  obtain ⟨hhas, hholds⟩ := hmaps "select" (List.mem_cons_self ..)
  obtain ⟨value, hvalue⟩ := hhas.mpr
    ⟨titledPosts, by simp, _, rfl, by simp⟩
  obtain ⟨nodes, rfl, hkeys, hnodes⟩ := hholds value hvalue
  refine ⟨hgiven, nodes, hvalue, hkeys.trans (by decide), (hnodes "posts" _).mpr ?_⟩
  exact ⟨[wholePosts, withProfile], titledPosts, [], rfl, rfl, nofun⟩

end ProjectionParts

end QueryProjection
