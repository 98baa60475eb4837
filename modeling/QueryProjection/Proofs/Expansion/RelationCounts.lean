import QueryProjection.Proofs.Aggregate
import QueryProjection.Proofs.Expansion.WellFormed
import QueryProjection.Proofs.Projection

/-!
# Counts of relations beside a projection

The selections of a model are gone through twice.  One time they are compiled: fragments are
expanded, and a filter decides about each name.  The other time the relations to count are
collected, from the fields that stand below the counts and from nothing else.  Both come to a map,
and the two are merged.

They never get into each other's way.  A filter leaves out every pseudo-field, and the count is
one, whichever way a name comes into a projection and whatever the fields of the model are called
(`Level.names`).  So merging the two maps puts the entries of one behind those of the other.
-/

namespace QueryProjection

namespace Aggregate

/-! ### Which relations are counted -/

/-- The names below the counts among some fields, but for the name of the type. -/
def countedBelow (fields : List Field) : List String :=
  ((fields.filter fun field => field.name = AggregateKind.count.fieldName).flatMap
    namesBelow).filter fun name => name ≠ typenameField

def leaves (names : List String) : List (String × Node) := names.map fun name => (name, .leaf)

theorem countOver_eq (names : List String) : ∀ before, countOver before names =
    OrderedMap.merge before (leaves (names.filter fun name => name ≠ typenameField)) := by
  induction names with
  | nil => exact fun before => rfl
  | cons name rest ih =>
      intro before
      rw [countOver, List.foldl_cons]
      by_cases htypename : name = typenameField
      · rw [if_pos htypename, List.filter_cons_of_neg (by simpa using htypename)]
        exact ih before
      · rw [if_neg htypename, List.filter_cons_of_pos (by simpa using htypename)]
        exact ih _

theorem result_countsOver (fields : List Field) : ∀ before, (countsOver before fields).result =
    .ok (OrderedMap.merge before (leaves (countedBelow fields))) := by
  induction fields with
  | nil => exact fun before => rfl
  | cons field rest ih =>
      intro before
      rw [countsOver]
      split
      · rename_i hcount
        have hbelow : countedBelow (field :: rest) =
            ((namesBelow field).filter fun name => name ≠ typenameField) ++ countedBelow rest := by
          rw [countedBelow, List.filter_cons_of_pos (by simpa using hcount), List.flatMap_cons,
            List.filter_append]
          rfl
        rw [Logged.result_bind, result_directFields, ok_bind, ih, countOver_eq, hbelow, leaves,
          leaves, leaves, List.map_append, OrderedMap.merge_append]
        rfl
      · rename_i hother
        have hbelow : countedBelow (field :: rest) = countedBelow rest := by
          rw [countedBelow, List.filter_cons_of_neg (by simpa using hother)]
          rfl
        rw [ih, hbelow]

theorem mapToData_leaves (names : List String) :
    Node.mapToData (leaves names) = names.map fun name => (name, .bool true) := by
  rw [Expansion.mapToData_eq_mapValues, OrderedMap.mapValues, leaves, List.map_map]
  rfl

/-- The relations that are counted, each once, under the count; nothing, if there are none. -/
theorem exists_relationCounts (selections : Option (List Selection)) :
    ∃ counts, (relationCounts selections).result = .ok counts ∧
      Node.mapToData counts =
        if countedBelow (Selection.fields (selections.getD [])) = [] then []
        else [("_count", .object
          [("select", allTrue (countedBelow (Selection.fields (selections.getD []))))])] := by
  generalize hnames : countedBelow (Selection.fields (selections.getD [])) = names
  have htable : OrderedMap.merge [] (leaves names) = leaves names.eraseDups :=
    OrderedMap.ofList_const names Node.leaf
  rw [relationCounts, Logged.result_bind, result_directFields, ok_bind, Logged.result_bind,
    result_countsOver, ok_bind, hnames, htable]
  cases names with
  | nil => exact ⟨_, rfl, rfl⟩
  | cons name rest =>
      rw [List.eraseDups_cons]
      refine ⟨_, rfl, ?_⟩
      rw [if_neg (List.cons_ne_nil _ _), Node.mapToData, Node.toDatum, mapToData_leaves, allTrue,
        List.eraseDups_cons]
      rfl

end Aggregate

namespace Expansion

/-! ### Two maps with no name in common -/

theorem mergeData_of_disjoint {first second : OrderedMap String Datum}
    (hfirst : (OrderedMap.keys first).Nodup) (hsecond : (OrderedMap.keys second).Nodup)
    (hdisjoint : ∀ name ∈ OrderedMap.keys first, name ∉ OrderedMap.keys second) :
    ProjectionParts.mergeData
        [.object [("select", .object first)], .object [("select", .object second)]] =
      .object [("select", .object (first ++ second))] := by
  have hboth : (OrderedMap.keys (first ++ second)).Nodup := by
    rw [OrderedMap.keys, List.map_append]
    exact hfirst.append hsecond hdisjoint
  have hmerged : OrderedMap.merge (OrderedMap.merge [] first) second = first ++ second := by
    rw [← OrderedMap.ofList, OrderedMap.ofList_of_nodup hfirst, OrderedMap.merge_eq_append hboth]
  show Datum.object [("select", .object (OrderedMap.mapValues id
    (OrderedMap.merge (OrderedMap.merge [] first) second)))] = _
  rw [OrderedMap.mapValues_id, hmerged]

/-- Counting the relations of a field comes to a map of the names below its counts, or to nothing.
Whatever the field compiles to, the two maps have no name in common, and merged in either order
they keep all their entries. -/
theorem relationCounts_beside (node : Field) :
    ∃ counts, (Aggregate.relationCounts node.selectionSet).result = .ok counts ∧
      Node.mapToData counts =
        (if Aggregate.countedBelow (Aggregate.fieldsBelow node) = [] then []
        else [("_count", .object
          [("select", Aggregate.allTrue (Aggregate.countedBelow (Aggregate.fieldsBelow node)))])]) ∧
      ∀ (context : Context) (memory : Memory) (projection : Projection),
        context.StartsFrom Session.anyStep memory →
        (compileFields context [node] memory).result = .ok projection →
        (∀ name ∈ OrderedMap.keys (selectOf projection),
            name ∉ OrderedMap.keys (Node.mapToData counts)) ∧
          ProjectionParts.mergeData [.object [("select", .object (selectOf projection))],
              .object [("select", .object (Node.mapToData counts))]] =
            .object [("select", .object (selectOf projection ++ Node.mapToData counts))] ∧
          ProjectionParts.mergeData [.object [("select", .object (Node.mapToData counts))],
              .object [("select", .object (selectOf projection))]] =
            .object [("select", .object (Node.mapToData counts ++ selectOf projection))] := by
  obtain ⟨counts, hresult, hcounts⟩ := Aggregate.exists_relationCounts node.selectionSet
  refine ⟨counts, hresult, hcounts, fun context memory projection hstarts hprojection => ?_⟩
  have hcounted : (OrderedMap.keys (Node.mapToData counts)).Nodup ∧
      ∀ name ∈ OrderedMap.keys (Node.mapToData counts), name ∈ pseudoFields := by
    rw [hcounts]
    split
    · exact ⟨List.nodup_nil, nofun⟩
    · have hcount : "_count" ∈ pseudoFields := by decide
      exact ⟨List.nodup_singleton _, List.forall_mem_singleton.mpr hcount⟩
  obtain ⟨hselected, hpseudo⟩ := (level_of_compileFields hstarts hprojection).names
  have hdisjoint : ∀ name ∈ OrderedMap.keys (selectOf projection),
      name ∉ OrderedMap.keys (Node.mapToData counts) :=
    fun name hname hcount => hpseudo name hname (hcounted.2 name hcount)
  exact ⟨hdisjoint, mergeData_of_disjoint hselected hcounted.1 hdisjoint,
    mergeData_of_disjoint hcounted.1 hselected fun name hcount hname =>
      hdisjoint name hname hcount⟩

def totals : Fragment where
  description := none
  name := "Totals"
  condition := "Account"
  directives := []
  selections := [plainField "_count" (some [plainField "owners" none]), plainField "id" none]

/-- Accounts have a field that is called like the count. -/
def accounts : Context where
  fragments := some [("Totals", totals)]
  bindings := none
  options :=
    { exclude := []
      target := some
        { source := Source.ofTable [("Account", { scalars := ["id", "_count"], relations := [] })]
          model := "Account" }
      strict := false }

/-- An account whose owners and payments are counted, in two places. -/
def countedAccount : Field where
  aliasName := none
  name := "account"
  arguments := []
  directives := []
  selectionSet := some
    [plainField "_count" (some [plainField "payments" none, plainField "__typename" none]),
      .spread "Totals" [],
      plainField "_count" (some [plainField "owners" none, plainField "payments" none])]

theorem beside_countedAccount :
    ∃ counts projection,
      (Aggregate.relationCounts countedAccount.selectionSet).result = .ok counts ∧
      accounts.StartsFrom Session.anyStep Memory.empty ∧
      (compileFields accounts [countedAccount] .empty).result = .ok projection ∧
      ProjectionParts.mergeData [.object [("select", .object (Node.mapToData counts))],
          .object [("select", .object (selectOf projection))]] =
        .object [("select", .object
          [("_count", .object [("select", Aggregate.allTrue ["payments", "owners"])]),
            ("id", .bool true)])] := by
  have hresult : (compileFields accounts [countedAccount] .empty).result =
      .ok (.ofSelect [("id", .leaf)]) := by
    rfl
  obtain ⟨counts, hcounts, hdata, hbeside⟩ := relationCounts_beside countedAccount
  obtain ⟨-, -, hmerged⟩ := hbeside accounts .empty _ accounts.startsFrom_empty hresult
  refine ⟨counts, _, hcounts, accounts.startsFrom_empty, hresult, hmerged.trans ?_⟩
  rw [hdata]
  rfl

end Expansion

end QueryProjection
