import QueryProjection.Command.Run
import QueryProjection.Proofs.Expansion.Joining

/-!
# What a run of the command writes

A run that writes something has read a `Task`: an operation of a document, and what to compile it
with.  It projects one root field after another and writes each projection over what stands under
the response name of its field.  So there is an entry for each response name, in the order in which
the names first appear, and it holds the projection of the last root field of that name
(`run_written_entries`).

Where several root fields answer to one name, a resolver of that name projects all of them
together.  Then the two may differ, since an entry has nothing of the earlier fields
(`users_overwritten`).
-/

namespace QueryProjection.Command

/-- What a run is to project: the root fields of an operation of a document. -/
structure Task where
  settings : Settings
  bindings : Bindings
  document : Document
  exclude : List String
  operation : Operation

namespace Task

structure Read (arguments : List String) (text : List Char) (task : Task) : Prop where
  settings : Settings.ofArguments arguments = .ok task.settings
  bindings : readBindings task.settings.bindings = .ok task.bindings
  document : Document.read text = .ok task.document
  exclude : readExclusions task.settings.exclude = .ok task.exclude
  operation : chooseOperation task.document task.settings.operationName = .ok task.operation

def context (task : Task) : Context :=
  contextOf task.document task.bindings task.exclude task.settings.strict

theorem Read.unique {arguments : List String} {text : List Char} {task task' : Task}
    (h : task.Read arguments text) (h' : task'.Read arguments text) : task = task' := by
  obtain ⟨settings, bindings, document, exclude, operation⟩ := task
  obtain ⟨settings', bindings', document', exclude', operation'⟩ := task'
  cases h.settings.symm.trans h'.settings
  cases h.bindings.symm.trans h'.bindings
  cases h.document.symm.trans h'.document
  cases h.exclude.symm.trans h'.exclude
  cases h.operation.symm.trans h'.operation
  rfl

def project (task : Task) (nodes : List Field) : Logged Datum :=
  projectNodes task.settings.aggregate task.context nodes

/-- The root fields that answer to a name. -/
def nodes (task : Task) (name : String) : List Field :=
  task.operation.rootFields.filter fun field => field.responseName = name

end Task

/-! ### Reading the task -/

section Reading

variable {ε α : Type}

/-- Does the ending have one cause only?  Something is written, help is asked for, or the text is not a
document; all that is left is a fault, and there are many. -/
def Ending.hasOneCause : Ending → Bool
  | .written _ | .helped | .failed (.notADocument _) => true
  | .misused _ | .failed _ => false

/-- What goes wrong here leads to no ending that has another cause. -/
def Refuses (result : Except Ending α) : Prop :=
  ∀ ending, result = .error ending → ending.hasOneCause = false

theorem Refuses.mapError {f : ε → Ending} (hf : ∀ found, (f found).hasOneCause = false)
    (result : Except ε α) : Refuses (result.mapError f) := by
  intro ending h
  cases result with
  | error found =>
      cases h
      exact hf found
  | ok value => cases h

theorem Refuses.step {β : Type} {first : Except Ending α} {second : α → Except Ending β}
    (hfirst : Refuses first) (hsecond : ∀ a, Refuses (second a)) : Refuses (first >>= second) := by
  intro ending h
  rcases bind_eq_error.mp h with herror | ⟨a, -, herror⟩
  · exact hfirst ending herror
  · exact hsecond a ending herror

theorem refuses_readBindings (given : Given) : Refuses (readBindings given) := by
  intro ending h
  cases given with
  | emptyList =>
      cases h
      rfl
  | text value =>
      simp only [readBindings] at h
      split at h
      · cases h
      · cases h
        rfl
      · cases h
        rfl
      · cases h
        rfl

theorem refuses_readExclusions (given : List Given) : Refuses (readExclusions given) := by
  induction given with
  | nil =>
      intro ending h
      cases h
  | cons value rest ih =>
      rw [readExclusions, List.mapM_cons]
      refine .step (fun ending h => ?_) fun name => .step ih fun names ending h => nomatch h
      cases value with
      | text name => cases h
      | emptyList =>
          cases h
          rfl

theorem refuses_chooseOperation (document : Document) (name : Option Given) :
    Refuses (chooseOperation document name) :=
  .mapError (fun _ => rfl) _

/-- While the task is read, help is given if the arguments ask for it, and the text is found not to be
a document if the settings and the bindings are in order. -/
theorem prepareText_eq_error {arguments : List String} {text : List Char} {ending : Ending}
    (hone : ending.hasOneCause = true) :
    prepareText arguments text = .error ending ↔
      (Settings.ofArguments arguments = .error .helped ∧ ending = .helped) ∨
      ∃ (settings : Settings) (bindings : Bindings) (found : SyntaxError),
        Settings.ofArguments arguments = .ok settings ∧
        readBindings settings.bindings = .ok bindings ∧ Document.read text = .error found ∧
        ending = .failed (.notADocument found) := by
  have hnever {α : Type} {result : Except Ending α} (hrefuses : Refuses result) :
      result ≠ .error ending := by
    intro h
    rw [hrefuses ending h] at hone
    cases hone
  constructor
  · intro h
    rcases bind_eq_error.mp h with herror | ⟨settings, hsettings, h⟩
    · cases hhalt : Settings.ofArguments arguments with
      | ok settings =>
          rw [hhalt] at herror
          cases herror
      | error halt =>
          rw [hhalt] at herror
          cases herror
          cases halt with
          | helped => exact Or.inl ⟨rfl, rfl⟩
          | refused found => cases hone
    rcases bind_eq_error.mp h with herror | ⟨bindings, hbindings, h⟩
    · exact absurd herror (hnever (refuses_readBindings _))
    rcases bind_eq_error.mp h with herror | ⟨document, -, h⟩
    · cases hread : Document.read text with
      | error found =>
          rw [hread] at herror
          exact Or.inr ⟨settings, bindings, found, mapError_eq_ok.mp hsettings, hbindings, rfl,
            (Except.error.inj herror).symm⟩
      | ok document =>
          rw [hread] at herror
          cases herror
    · refine absurd h (hnever (.step (refuses_readExclusions _) fun exclude => ?_))
      exact .step (refuses_chooseOperation document _) fun operation ending h => nomatch h
  · rintro (⟨hhalt, rfl⟩ | ⟨settings, bindings, found, hsettings, hbindings, hread, rfl⟩)
    · refine bind_eq_error.mpr (Or.inl ?_)
      rw [hhalt]
      rfl
    · refine bind_eq_error.mpr (Or.inr ⟨settings, mapError_eq_ok.mpr hsettings, ?_⟩)
      refine bind_eq_error.mpr (Or.inr ⟨bindings, hbindings, bind_eq_error.mpr (Or.inl ?_)⟩)
      rw [hread]
      rfl

theorem prepareText_eq_ok {arguments : List String} {text : List Char}
    {projected : Logged (OrderedMap String Datum)} :
    prepareText arguments text = .ok projected ↔ ∃ task : Task, task.Read arguments text ∧
      projected =
        projectOver task.settings.aggregate task.context [] task.operation.rootFields := by
  constructor
  · intro h
    obtain ⟨settings, hsettings, h⟩ := bind_eq_ok.mp h
    obtain ⟨bindings, hbindings, h⟩ := bind_eq_ok.mp h
    obtain ⟨document, hdocument, h⟩ := bind_eq_ok.mp h
    obtain ⟨exclude, hexclude, h⟩ := bind_eq_ok.mp h
    obtain ⟨operation, hoperation, h⟩ := bind_eq_ok.mp h
    refine ⟨⟨settings, bindings, document, exclude, operation⟩, ?_, (Except.ok.inj h).symm⟩
    exact ⟨mapError_eq_ok.mp hsettings, hbindings, mapError_eq_ok.mp hdocument, hexclude,
      hoperation⟩
  · rintro ⟨task, ⟨hsettings, hbindings, hdocument, hexclude, hoperation⟩, rfl⟩
    refine bind_eq_ok.mpr ⟨_, mapError_eq_ok.mpr hsettings, ?_⟩
    refine bind_eq_ok.mpr ⟨_, hbindings, bind_eq_ok.mpr ⟨_, mapError_eq_ok.mpr hdocument, ?_⟩⟩
    exact bind_eq_ok.mpr ⟨_, hexclude, bind_eq_ok.mpr ⟨_, hoperation, rfl⟩⟩

/-- An ending that has one cause, and is not that something is written, comes about before anything is
projected. -/
theorem ending_eq_of_prepare {arguments : List String} {input : String} {ending : Ending}
    (hone : ending.hasOneCause = true) (hunwritten : ∀ text, ending ≠ .written text) :
    (run arguments input).ending = ending ↔ prepare arguments input = .error ending := by
  unfold run
  cases hprepare : prepare arguments input with
  | error found => exact ⟨congrArg Except.error, Except.error.inj⟩
  | ok projected =>
      refine ⟨fun h => ?_, fun h => nomatch h⟩
      change Ending.ofResult projected.result = ending at h
      cases hresult : projected.result with
      | error fault =>
          rw [← h, hresult] at hone
          cases hone
      | ok projections =>
          rw [hresult] at h
          exact absurd h.symm (hunwritten _)

/-- A run writes something only if its task can be read and all root fields can be projected. -/
theorem ending_eq_written {arguments : List String} {input text : String} :
    (run arguments input).ending = .written text ↔
      ∃ (task : Task) (projections : OrderedMap String Datum),
        task.Read arguments (joinLines (Text.unifyBreaks input.toList)) ∧
        (projectOver task.settings.aggregate task.context []
          task.operation.rootFields).result = .ok projections ∧
        text = String.ofList (Json.write (.object projections)) := by
  unfold run
  cases hprepare : prepare arguments input with
  | error ending =>
      constructor
      · intro h
        cases h
        rcases (prepareText_eq_error rfl).mp hprepare with ⟨-, hending⟩ |
          ⟨_, _, _, -, -, -, hending⟩
        · cases hending
        · cases hending
      · rintro ⟨task, projections, hread, -, -⟩
        rw [prepare, prepareText_eq_ok.mpr ⟨task, hread, rfl⟩] at hprepare
        cases hprepare
  | ok projected =>
      constructor
      · intro h
        obtain ⟨task, hread, rfl⟩ := prepareText_eq_ok.mp hprepare
        cases hresult : (projectOver task.settings.aggregate task.context []
            task.operation.rootFields).result with
        | error fault =>
            simp only [hresult, Ending.ofResult] at h
            cases h
        | ok projections =>
            simp only [hresult, Ending.ofResult, Ending.written.injEq] at h
            exact ⟨task, projections, hread, hresult, h.symm⟩
      · rintro ⟨task, projections, hread, hresult, rfl⟩
        rw [prepare, prepareText_eq_ok.mpr ⟨task, hread, rfl⟩] at hprepare
        cases hprepare
        simp only [hresult, Ending.ofResult]

end Reading

/-! ### One root field after another -/

section Projecting

variable {aggregate : Bool} {context : Context}

def EntryOf (aggregate : Bool) (context : Context) (field : Field) (entry : String × Datum) : Prop :=
  entry.1 = field.responseName ∧ (projectNodes aggregate context [field]).result = .ok entry.2

theorem projectOver_eq_ok {fields : List Field} {before projections : OrderedMap String Datum} :
    (projectOver aggregate context before fields).result = .ok projections ↔
      ∃ entries, List.Forall₂ (EntryOf aggregate context) fields entries ∧
        projections = OrderedMap.merge before entries := by
  induction fields generalizing before with
  | nil =>
      constructor
      · intro h
        cases h
        exact ⟨[], .nil, rfl⟩
      · rintro ⟨entries, hentries, rfl⟩
        cases hentries
        rfl
  | cons field rest ih =>
      rw [projectOver, Logged.result_bind, bind_eq_ok]
      constructor
      · rintro ⟨datum, hdatum, h⟩
        obtain ⟨entries, hentries, rfl⟩ := ih.mp h
        exact ⟨(field.responseName, datum) :: entries, .cons ⟨rfl, hdatum⟩ hentries, rfl⟩
      · rintro ⟨entries, hentries, rfl⟩
        cases hentries with
        | @cons _ entry _ entries hentry hentries =>
            obtain ⟨name, datum⟩ := entry
            obtain ⟨rfl, hdatum⟩ := hentry
            exact ⟨datum, hdatum, ih.mpr ⟨entries, hentries, rfl⟩⟩

theorem map_fst_of_entries {fields : List Field} {entries : List (String × Datum)}
    (h : List.Forall₂ (EntryOf aggregate context) fields entries) :
    entries.map Prod.fst = fields.map Field.responseName := by
  induction h with
  | nil => rfl
  | cons hentry _ ih => rw [List.map_cons, List.map_cons, hentry.1, ih]

theorem forall₂_of_name {fields : List Field} {entries : List (String × Datum)}
    (h : List.Forall₂ (EntryOf aggregate context) fields entries) (name : String) :
    List.Forall₂ (EntryOf aggregate context)
      (fields.filter fun field => field.responseName = name)
      (entries.filter fun entry => entry.1 = name) := by
  refine List.rel_filter ?_ h
  rintro field entry ⟨hname, -⟩
  simp only [hname, decide_eq_true_eq]

end Projecting

/-! ### All nodes of a name together -/

section Together

/-- The projection with some entries: they are aggregates, or else they are selected. -/
def projectionOf (aggregate : Bool) (entries : OrderedMap String Datum) : Datum :=
  if aggregate then .object entries
  else if entries.isEmpty then .object []
  else .object [("select", .object entries)]

variable {context : Context} {nodes : List Field} {data : List Datum}

theorem toDatum_ofSelect (map : ProjectionMap) :
    ProjectionParts.toDatum Node.toDatum (.ofSelect map) =
      projectionOf false (OrderedMap.mapValues Node.toDatum map) := by
  cases map with
  | nil => rfl
  | cons entry rest => rfl

theorem foldl_merge_mapValues {α : Type} (f : α → Datum) (maps : List (OrderedMap String α)) :
    ∀ before, (maps.map (OrderedMap.mapValues f)).foldl OrderedMap.merge
        (OrderedMap.mapValues f before) =
      OrderedMap.mapValues f (maps.foldl OrderedMap.merge before) := by
  induction maps with
  | nil => exact fun before => rfl
  | cons map rest ih =>
      intro before
      rw [List.map_cons, List.foldl_cons, List.foldl_cons, ← OrderedMap.mapValues_merge, ih]

theorem exists_pieces_of_selections (htarget : context.options.target = none)
    (h : List.Forall₂ (fun node datum => (projectNodes false context [node]).result = .ok datum)
      nodes data) :
    ∃ pieces : List (OrderedMap String Datum), data = pieces.map (projectionOf false) ∧
      (projectNodes false context nodes).result =
        .ok (projectionOf false (pieces.foldl OrderedMap.merge [])) := by
  have hsteady : context.Steady := fun target hsome => by
    rw [htarget] at hsome
    cases hsome
  have hserved : context.Served .empty .empty := fun target hsome => by
    rw [htarget] at hsome
    cases hsome
  have hprojections : ∃ projections : List Projection,
      data = projections.map (ProjectionParts.toDatum Node.toDatum) ∧
        List.Forall₂ (fun node projection => ∃ memory, context.Served .empty memory ∧
          (compileFields context [node] memory).result = .ok projection) nodes projections := by
    induction h with
    | nil => exact ⟨[], rfl, .nil⟩
    | cons hnode _ ih =>
        obtain ⟨projections, rfl, hprojections⟩ := ih
        rw [projectNodes, if_neg Bool.false_ne_true, Logged.result_map, map_eq_ok] at hnode
        obtain ⟨projection, hresult, rfl⟩ := hnode
        exact ⟨projection :: projections, rfl, .cons ⟨_, hserved, hresult⟩ hprojections⟩
  obtain ⟨projections, rfl, hprojections⟩ := hprojections
  obtain ⟨maps, rfl, hmaps⟩ := Expansion.exists_maps_of_singles hsteady hprojections
  refine ⟨maps.map (OrderedMap.mapValues Node.toDatum), ?_, ?_⟩
  · simp only [List.map_map, Function.comp_def, toDatum_ofSelect]
  · have hover := Expansion.result_compileOver (Context.telling_echoes hsteady .empty) hsteady hmaps
      [] (Expansion.echoes_of_served hsteady hserved)
    rw [projectNodes, if_neg Bool.false_ne_true, Logged.result_map, Outcome.logged,
      Expansion.compileFields_eq, Compile.result_map, hover]
    show Except.ok (ProjectionParts.toDatum Node.toDatum (.ofSelect _)) = _
    rw [toDatum_ofSelect, ← foldl_merge_mapValues]
    rfl

theorem exists_pieces_of_aggregates
    (h : List.Forall₂ (fun node datum => (projectNodes true context [node]).result = .ok datum)
      nodes data) :
    ∃ pieces : List (OrderedMap String Datum), data = pieces.map (projectionOf true) ∧
      (projectNodes true context nodes).result =
        .ok (projectionOf true (pieces.foldl OrderedMap.merge [])) := by
  have hover : ∃ pieces : List AggregateProjection,
      data = pieces.map (fun piece =>
        projectionOf true (OrderedMap.mapValues Aggregated.toDatum piece)) ∧
        ∀ before, (Aggregate.ofNodesOver before nodes).result =
          .ok (pieces.foldl OrderedMap.merge before) := by
    induction h with
    | nil => exact ⟨[], rfl, fun before => rfl⟩
    | cons hnode _ ih =>
        obtain ⟨pieces, rfl, hpieces⟩ := ih
        rw [projectNodes, if_pos rfl, Logged.result_map, map_eq_ok] at hnode
        obtain ⟨piece, hpiece, rfl⟩ := hnode
        rw [Aggregate.ofNodes, Aggregate.ofNodesOver, Logged.result_bind, bind_eq_ok] at hpiece
        obtain ⟨written, hwritten, hpiece⟩ := hpiece
        cases hpiece
        refine ⟨OrderedMap.ofList written :: pieces, rfl, fun before => ?_⟩
        rw [Aggregate.ofNodesOver, Logged.result_bind, hwritten, ok_bind, hpieces, List.foldl_cons,
          OrderedMap.merge_ofList]
  obtain ⟨pieces, rfl, hpieces⟩ := hover
  refine ⟨pieces.map (OrderedMap.mapValues Aggregated.toDatum), ?_, ?_⟩
  · rw [List.map_map]
    rfl
  · rw [projectNodes, if_pos rfl, Logged.result_map, Aggregate.ofNodes, hpieces,
      show ([] : OrderedMap String Datum) = OrderedMap.mapValues Aggregated.toDatum [] from rfl,
      foldl_merge_mapValues]
    rfl

/-- If each of some nodes can be projected on its own, then all together are projected to the merge
of what the nodes are projected to. -/
theorem exists_pieces {aggregate : Bool} (htarget : context.options.target = none)
    (h : List.Forall₂ (fun node datum => (projectNodes aggregate context [node]).result = .ok datum)
      nodes data) :
    ∃ pieces : List (OrderedMap String Datum), data = pieces.map (projectionOf aggregate) ∧
      (projectNodes aggregate context nodes).result =
        .ok (projectionOf aggregate (pieces.foldl OrderedMap.merge [])) := by
  cases aggregate with
  | false => exact exists_pieces_of_selections htarget h
  | true => exact exists_pieces_of_aggregates h

end Together

/-- What a run writes: an entry for each response name of the root fields, in the order in which
they first appear.  It is what the last root field of the name is projected to.  All root fields of
the name together are projected to the merge of what they are projected to, which is the same if
there is just one. -/
theorem run_written_entries {arguments : List String} {input text : String}
    (h : (run arguments input).ending = .written text) :
    ∃ (task : Task) (projections : OrderedMap String Datum),
      task.Read arguments (joinLines (Text.unifyBreaks input.toList)) ∧
      text = String.ofList (Json.write (.object projections)) ∧
      OrderedMap.keys projections =
        (task.operation.rootFields.map Field.responseName).eraseDups ∧
      ∀ name datum, OrderedMap.get? projections name = some datum →
        ∃ (pieces : List (OrderedMap String Datum)) (last : OrderedMap String Datum),
          List.Forall₂ (fun node piece => (task.project [node]).result =
            .ok (projectionOf task.settings.aggregate piece)) (task.nodes name) pieces ∧
          pieces.getLast? = some last ∧ datum = projectionOf task.settings.aggregate last ∧
          (task.project (task.nodes name)).result =
            .ok (projectionOf task.settings.aggregate (pieces.foldl OrderedMap.merge [])) ∧
          ((task.nodes name).length = 1 →
            (task.project (task.nodes name)).result = .ok datum) := by
  obtain ⟨task, projections, hread, hresult, htext⟩ := ending_eq_written.mp h
  obtain ⟨entries, hentries, rfl⟩ := projectOver_eq_ok.mp hresult
  refine ⟨task, _, hread, htext, ?_, fun name datum hget => ?_⟩
  · rw [← map_fst_of_entries hentries]
    exact OrderedMap.keys_ofList entries
  -- the root fields of the name, with their entries
  have hnamed := forall₂_of_name hentries name
  have hdata : List.Forall₂ (fun node datum => (task.project [node]).result = .ok datum)
      (task.nodes name) ((entries.filter fun entry => entry.1 = name).map Prod.snd) := by
    rw [List.forall₂_map_right_iff]
    exact hnamed.imp fun _ _ hentry => hentry.2
  have htarget : task.context.options.target = none := rfl
  obtain ⟨pieces, hpieces, htogether⟩ := exists_pieces htarget hdata
  have hlast : pieces.getLast?.map (projectionOf task.settings.aggregate) = some datum := by
    rw [← List.getLast?_map, ← hpieces, List.getLast?_map]
    exact (OrderedMap.get?_ofList entries name).symm.trans hget
  obtain ⟨last, hfound, rfl⟩ := Option.map_eq_some_iff.mp hlast
  rw [hpieces, List.forall₂_map_right_iff] at hdata
  refine ⟨pieces, last, hdata, hfound, rfl, htogether, fun hone => ?_⟩
  obtain ⟨node, hnode⟩ := List.length_eq_one_iff.mp hone
  rw [hnode] at hdata ⊢
  cases hdata with
  | cons hpiece hrest =>
      cases hrest
      obtain rfl := Option.some.inj hfound
      exact hpiece

def usersTwice : Task where
  settings := .default
  bindings := []
  document :=
    { definitions :=
        [.operation
          { description := none, kind := .query, name := none, variableDefinitions := []
            directives := []
            selections :=
              [Expansion.plainField "users" (some [Expansion.plainField "id" none]),
                Expansion.plainField "users" (some [Expansion.plainField "name" none])] }] }
  exclude := []
  operation :=
    { description := none, kind := .query, name := none, variableDefinitions := []
      directives := []
      selections :=
        [Expansion.plainField "users" (some [Expansion.plainField "id" none]),
          Expansion.plainField "users" (some [Expansion.plainField "name" none])] }

def namesOfUsers : OrderedMap String Datum :=
  [("users", .object [("select", .object [("name", .bool true)])])]

theorem read_usersTwice :
    usersTwice.Read [] (joinLines (Text.unifyBreaks "{ users { id } users { name } }".toList)) where
  settings := rfl
  bindings := rfl
  document := rfl
  exclude := rfl
  operation := rfl

theorem ending_usersTwice :
    (run [] "{ users { id } users { name } }").ending =
      .written (String.ofList (Json.write (.object namesOfUsers))) :=
  ending_eq_written.mpr ⟨usersTwice, namesOfUsers, read_usersTwice, rfl, rfl⟩

/-- There is one entry, and it is the last piece of two. -/
theorem written_entries_users :
    (run [] "{ users { id } users { name } }").ending =
        .written (String.ofList (Json.write (.object namesOfUsers))) ∧
      ∃ projections : OrderedMap String Datum,
        String.ofList (Json.write (.object namesOfUsers)) =
          String.ofList (Json.write (.object projections)) ∧
        OrderedMap.keys projections = ["users"] ∧
        ∀ datum, OrderedMap.get? projections "users" = some datum →
          ∃ first last, List.Forall₂ (fun node piece =>
              (usersTwice.project [node]).result = .ok (projectionOf false piece))
              (usersTwice.nodes "users") [first, last] ∧
            datum = projectionOf false last ∧
            (usersTwice.project (usersTwice.nodes "users")).result =
              .ok (projectionOf false (OrderedMap.merge (OrderedMap.merge [] first) last)) := by
  refine ⟨ending_usersTwice, ?_⟩
  obtain ⟨task, projections, hread, htext, hkeys, hentries⟩ :=
    run_written_entries ending_usersTwice
  obtain rfl := hread.unique read_usersTwice
  refine ⟨projections, htext, hkeys, fun datum hdatum => ?_⟩
  obtain ⟨pieces, last, hpieces, hlast, hpiece, htogether, -⟩ := hentries "users" datum hdatum
  cases hpieces with
  | cons hfirst hrest =>
      cases hrest with
      | cons hsecond hnone =>
          cases hnone
          obtain rfl := Option.some.inj hlast
          exact ⟨_, _, .cons hfirst (.cons hsecond .nil), hpiece, htogether⟩

/-- The numbers of users are lost, though all nodes of the name together have them. -/
theorem users_overwritten :
    (run [] "{ users { id } users { name } }").ending =
        .written (String.ofList (Json.write (.object namesOfUsers))) ∧
      usersTwice.Read [] (joinLines
        (Text.unifyBreaks "{ users { id } users { name } }".toList)) ∧
      OrderedMap.get? namesOfUsers "users" =
        some (.object [("select", .object [("name", .bool true)])]) ∧
      (usersTwice.project (usersTwice.nodes "users")).result =
        .ok (.object [("select", .object [("id", .bool true), ("name", .bool true)])]) :=
  ⟨ending_usersTwice, read_usersTwice, rfl, rfl⟩

end QueryProjection.Command
