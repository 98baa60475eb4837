import QueryProjection.Proofs.Aggregate
import QueryProjection.Proofs.Command.Entries
import QueryProjection.Proofs.Expansion.Admissible
import QueryProjection.Proofs.Json.RoundTrip

/-!
# Nothing is lost in writing

What a run writes is JSON, and whoever reads it has the projections again: the same entries in the
same order at every level, the same whole numbers, and the same texts, whatever characters they
hold.  For this the projections must be data that JSON admits, and they always are: bindings come
from JSON themselves, and values of the document are legible.

Floating-point numbers are left out.  Projections that have one are written as well, but what is
read back then depends on how numbers are rounded.
-/

namespace QueryProjection.Command

/-! ### Aggregates -/

theorem admissible_aggregated {aggregated : Aggregated}
    (h : ∀ names, aggregated = .fields names → names.Nodup) : aggregated.toDatum.Admissible := by
  cases aggregated with
  | allRecords => exact .atom trivial rfl
  | fields names =>
      refine .object ?_ fun field hfield => ?_
      · rw [OrderedMap.keys, List.map_map]
        exact (List.map_id names).symm ▸ h names rfl
      · obtain ⟨name, -, rfl⟩ := List.mem_map.mp hfield
        exact .atom trivial rfl

theorem admissible_ofField {kind : AggregateKind} {field : Field} {aggregated : Aggregated}
    (h : (Aggregate.ofField kind field).result = .ok (some aggregated)) :
    aggregated.toDatum.Admissible := by
  refine admissible_aggregated fun names hnames => ?_
  subst hnames
  unfold Aggregate.ofField at h
  split at h
  · split at h
    · cases h
    · cases h
  · rw [Logged.result_bind] at h
    obtain ⟨nested, -, h⟩ := bind_eq_ok.mp h
    exact Aggregate.nodup_of_ofNames (Except.ok.inj h)

theorem admissible_noAggregates : (Aggregate.toDatum []).Admissible := Datum.Admissible.empty

theorem admissible_writeAll {fields : List Field} :
    ∀ {before after : AggregateProjection}, (Aggregate.toDatum before).Admissible →
      (Aggregate.writeAll before fields).result = .ok after →
      (Aggregate.toDatum after).Admissible := by
  induction fields with
  | nil =>
      intro before after hbefore h
      cases h
      exact hbefore
  | cons field rest ih =>
      intro before after hbefore h
      rw [Aggregate.writeAll] at h
      split at h
      · exact ih hbefore h
      · rw [Logged.result_bind] at h
        obtain ⟨aggregated, haggregated, h⟩ := bind_eq_ok.mp h
        cases aggregated with
        | none => exact ih hbefore h
        | some aggregated =>
            refine ih ?_ h
            show (Datum.object (OrderedMap.mapValues Aggregated.toDatum
              (OrderedMap.insert before field.name aggregated))).Admissible
            rw [OrderedMap.mapValues_insert]
            exact hbefore.insert field.name (admissible_ofField haggregated)

theorem admissible_ofNodesOver {nodes : List Field} :
    ∀ {before after : AggregateProjection}, (Aggregate.toDatum before).Admissible →
      (Aggregate.ofNodesOver before nodes).result = .ok after →
      (Aggregate.toDatum after).Admissible := by
  induction nodes with
  | nil =>
      intro before after hbefore h
      cases h
      exact hbefore
  | cons node rest ih =>
      intro before after hbefore h
      rw [Aggregate.ofNodesOver, Logged.result_bind] at h
      obtain ⟨written, hwritten, h⟩ := bind_eq_ok.mp h
      rw [Aggregate.ofSelections, Logged.result_bind] at hwritten
      obtain ⟨fields, -, hwritten⟩ := bind_eq_ok.mp hwritten
      have hnew := admissible_writeAll admissible_noAggregates hwritten
      refine ih ?_ h
      show (Datum.object (OrderedMap.mapValues Aggregated.toDatum
        (OrderedMap.merge before written))).Admissible
      rw [OrderedMap.mapValues_merge]
      exact Datum.Admissible.merge hbefore hnew.field

/-! ### Projections -/

theorem admissible_projectNodes {aggregate : Bool} {context : Context} {nodes : List Field}
    {datum : Datum} (htarget : context.options.target = none) (hcontext : context.Legible)
    (hnodes : Selection.Legible (Expansion.selectionsOf nodes))
    (h : (projectNodes aggregate context nodes).result = .ok datum) : datum.Admissible := by
  cases aggregate with
  | true =>
      rw [projectNodes, if_pos rfl, Logged.result_map] at h
      obtain ⟨projection, hprojection, rfl⟩ := map_eq_ok.mp h
      exact admissible_ofNodesOver admissible_noAggregates hprojection
  | false =>
      have hkeyed : Expansion.Keyed context .empty := fun target hsome => by
        rw [htarget] at hsome
        cases hsome
      rw [projectNodes, if_neg Bool.false_ne_true, Logged.result_map] at h
      obtain ⟨projection, hprojection, rfl⟩ := map_eq_ok.mp h
      obtain ⟨map, hlevel, rfl⟩ :=
        (Expansion.yields_compileFields nodes .empty hkeyed).2 projection hprojection
      have hmap := Expansion.admissible_of_level hcontext hnodes hlevel
      rw [toDatum_ofSelect, ← Expansion.mapToData_eq_mapValues, projectionOf,
        if_neg Bool.false_ne_true]
      split
      · exact .empty
      · exact Datum.Admissible.empty.cons List.not_mem_nil hmap

theorem admissible_projectOver {aggregate : Bool} {context : Context}
    (htarget : context.options.target = none) (hcontext : context.Legible) {fields : List Field}
    (hfields : ∀ field ∈ fields, Selection.Legible (field.selectionSet.getD []))
    {projections : OrderedMap String Datum}
    (h : (projectOver aggregate context [] fields).result = .ok projections) :
    (Datum.object projections).Admissible := by
  obtain ⟨entries, hentries, rfl⟩ := projectOver_eq_ok.mp h
  refine Datum.Admissible.empty.merge ?_
  clear h
  induction hentries with
  | nil => exact nofun
  | @cons field entry rest entries hentry _ ih =>
      rw [List.forall_mem_cons] at hfields
      refine List.forall_mem_cons.mpr ⟨?_, ih hfields.2⟩
      refine admissible_projectNodes htarget hcontext ?_ hentry.2
      rw [Expansion.selectionsOf, List.flatMap_singleton]
      exact hfields.1

/-! ### The task -/

theorem admissible_readBindings {given : Given} {bindings : Bindings}
    (h : readBindings given = .ok bindings) : (Datum.object bindings).Admissible := by
  cases given with
  | emptyList => cases h
  | text written =>
      unfold readBindings at h
      dsimp only at h
      split at h
      · rename_i hread
        cases h
        exact Json.admissible_of_read hread
      · cases h
      · cases h
      · cases h

theorem operation_of_operation {document : Document} {name : Option String}
    {operation : Operation} (h : document.operation name = .ok operation) :
    .operation operation ∈ document.definitions := by
  have hmem : operation ∈ document.operations := by
    unfold Document.operation at h
    split at h
    · split at h
      · rename_i honly
        cases h
        rw [honly]
        exact List.mem_singleton_self _
      · cases h
    · split at h
      · rename_i hfound
        cases h
        exact List.mem_of_find?_eq_some hfound
      · cases h
  obtain ⟨definition, hdefinition, hoperation⟩ := List.mem_filterMap.mp hmem
  cases definition with
  | operation defined =>
      cases hoperation
      exact hdefinition
  | fragment _ | typeSystem _ _ | typeExtension _ => cases hoperation

theorem operation_of_chooseOperation {document : Document} {name : Option Given}
    {operation : Operation} (h : chooseOperation document name = .ok operation) :
    .operation operation ∈ document.definitions := by
  have hchosen := mapError_eq_ok.mp h
  split at hchosen
  · exact operation_of_operation hchosen
  · exact operation_of_operation hchosen
  · cases hchosen

namespace Task.Read

variable {arguments : List String} {text : List Char} {task : Task}
  (h : task.Read arguments text)

include h

theorem legible : task.context.Legible where
  bindings table htable := by
    cases htable
    exact admissible_readBindings h.bindings
  fragments name fragment hfragment :=
    Document.legible_of_read h.document _ (Document.fragment_of_fragments hfragment)

theorem legible_rootFields :
    ∀ field ∈ task.operation.rootFields, Selection.Legible (field.selectionSet.getD []) := by
  intro field hfield
  have hselections : Selection.Legible task.operation.selections :=
    Document.legible_of_read h.document _ (operation_of_chooseOperation h.operation)
  obtain ⟨selection, hselection, hsome⟩ := List.mem_filterMap.mp hfield
  cases selection with
  | field aliasName name arguments directives selections =>
      cases hsome
      cases selections with
      | none => exact .nil
      | some selections => exact hselections.nested_of_mem hselection
  | spread _ _ | inline _ _ _ | other _ => cases hsome

end Task.Read

/-- What a run writes is read as what it projected. -/
theorem written_reads_back {arguments : List String} {input text : String}
    (h : (run arguments input).ending = .written text) :
    ∃ (task : Task) (projections : OrderedMap String Datum),
      task.Read arguments (joinLines (Text.unifyBreaks input.toList)) ∧
      (projectOver task.settings.aggregate task.context [] task.operation.rootFields).result =
        .ok projections ∧
      text = String.ofList (Json.write (.object projections)) ∧
      (Datum.object projections).Admissible ∧
      ((Datum.object projections).Exact →
        Json.IsAscii text.toList ∧
        (∃ body, text.toList = body ++ ['\n'] ∧ body.getLast? ≠ some '\n') ∧
        Json.read text.toList = .ok (.object projections) ∧
        readBindings (.text text) = .ok projections) := by
  obtain ⟨task, projections, hread, hresult, rfl⟩ := ending_eq_written.mp h
  have hadmissible := admissible_projectOver rfl hread.legible hread.legible_rootFields hresult
  refine ⟨task, projections, hread, hresult, rfl, hadmissible, fun hexact => ?_⟩
  have hback := Json.read_write hadmissible hexact
  rw [String.toList_ofList]
  refine ⟨?_, ⟨_, rfl, ?_⟩, hback, ?_⟩
  · exact (Json.isAscii_writeValue hexact 0).append (by decide)
  · rw [Json.getLast?_writeObject]
    decide
  · rw [readBindings, String.toList_ofList, hback]

/-- Posts are selected by a title with a quote, a backslash, a bell and a face in it. -/
def postsByTitle : List Selection :=
  [.field none "users" [] [] (some
    [.field none "posts"
      [("where", .object [("title", .text "\"\\\u0007😀" false)]),
        ("take", .int "-12345678901234567890")]
      [] (some [Expansion.plainField "id" none])])]

def projectPosts : Task where
  settings := .default
  bindings := []
  document :=
    { definitions :=
        [.operation
          { description := none, kind := .query, name := none, variableDefinitions := []
            directives := [], selections := postsByTitle }] }
  exclude := []
  operation :=
    { description := none, kind := .query, name := none, variableDefinitions := []
      directives := [], selections := postsByTitle }

def projectedPosts : OrderedMap String Datum :=
  [("users", .object
    [("select", .object
      [("posts", .object
        [("select", .object [("id", .bool true)]),
          ("where", .object [("title", .text "\"\\\u0007😀")]),
          ("take", .int (-12345678901234567890))])])])]

def postsInput : String :=
  "\x7b users \x7b posts(where: \x7btitle: \"\\\"\\\\\\u0007\\ud83d\\ude00\"\x7d, take: -12345678901234567890) \x7b id \x7d \x7d \x7d"

theorem read_projectPosts :
    projectPosts.Read [] (joinLines (Text.unifyBreaks postsInput.toList)) where
  settings := rfl
  bindings := rfl
  document := rfl
  exclude := rfl
  operation := rfl

theorem exact_projectedPosts : (Datum.object projectedPosts).Exact := by
  have hempty : (Datum.object []).Exact := .atom nofun rfl
  have hcons {name : String} {value : Datum} {rest : OrderedMap String Datum}
      (hvalue : value.Exact) (hrest : (Datum.object rest).Exact) :
      (Datum.object ((name, value) :: rest)).Exact := by
    cases hrest with
    | intro _ hparts => exact .intro nofun (List.forall_mem_cons.mpr ⟨hvalue, hparts⟩)
  have htrue : (Datum.bool true).Exact := .atom nofun rfl
  have htext : (Datum.text "\"\\\u0007😀").Exact := .atom nofun rfl
  have hint : (Datum.int (-12345678901234567890)).Exact := .atom nofun rfl
  refine hcons (hcons (hcons ?_ hempty) hempty) hempty
  exact hcons (hcons htrue hempty) (hcons (hcons htext hempty) (hcons hint hempty))

/-- The posts are projected, and read back from the text that is written. -/
theorem posts_read_back :
    ∃ text, (run [] postsInput).ending = .written text ∧
      Json.read text.toList = .ok (.object projectedPosts) := by
  have hresult : (projectOver projectPosts.settings.aggregate projectPosts.context []
      projectPosts.operation.rootFields).result = .ok projectedPosts := rfl
  have hending := ending_eq_written.mpr ⟨projectPosts, _, read_projectPosts, hresult, rfl⟩
  obtain ⟨task, projections, hread, hprojected, -, -, hback⟩ := written_reads_back hending
  obtain rfl := hread.unique read_projectPosts
  cases hprojected.symm.trans hresult
  exact ⟨_, hending, (hback exact_projectedPosts).2.2.1⟩

end QueryProjection.Command
