import QueryProjection.Proofs.Expansion.Agreement

/-!
# A field that is selected more than once

A field that is selected by several nodes is compiled node by node, each map being written over
those before it.  It comes to the same to join the selections of the nodes to one selection set,
and to compile every node on its own and merge the projections (`compileFields_joined`).

In all three the same selections are walked in the same order, and writing in pieces is no
different from writing at once.  What differs is what stands between the pieces: the root is
checked again, its filter is looked up again, and the room for fragments is measured again.  That
this changes nothing is due to the source being steady: what has succeeded once goes on to succeed,
and reports nothing (`Agrees.again`).
-/

namespace QueryProjection

/-- All that was remembered at the start is told the same. -/
def Context.Echoes (context : Context) (start memory : Memory) : Prop :=
  ∀ target, context.options.target = some target → Expansion.Echoes target.source start memory

theorem Served.echoes {source : Source} (hsteady : source.Steady) {start memory : Memory}
    (h : Served source start memory) : Expansion.Echoes source start memory := by
  induction h with
  | start => exact .refl start
  | request _ request hanswer ih =>
      exact (Expansion.telling_echoes hsteady start).kept.answer hanswer _ ih

theorem Context.telling_echoes {context : Context} (hsteady : context.Steady) (start : Memory) :
    context.Telling (context.Echoes start) := by
  intro target htarget
  have hechoes : context.Echoes start = Expansion.Echoes target.source start := by
    funext memory
    simp only [Context.Echoes, htarget, Option.some.injEq, forall_eq']
  rw [hechoes]
  exact Expansion.telling_echoes (hsteady target htarget) start

namespace ProjectionParts

variable {α : Type u}

theorem isEmpty_merge (first second : OrderedMap String α) :
    (OrderedMap.merge first second).isEmpty = (first.isEmpty && second.isEmpty) := by
  induction second generalizing first with
  | nil => simp
  | cons entry rest ih =>
      obtain ⟨key, value⟩ := entry
      have hinsert : (OrderedMap.insert first key value).isEmpty = false := by
        cases first with
        | nil => rfl
        | cons head tail =>
            simp only [OrderedMap.insert]
            split <;> rfl
      rw [OrderedMap.merge_cons, ih, hinsert]
      simp

/-- Merging projections of selected fields is merging what is selected. -/
theorem mergeOver_ofSelect (first second : OrderedMap String α) :
    mergeOver (ofSelect first) (ofSelect second) = ofSelect (OrderedMap.merge first second) := by
  simp only [ofSelect, isEmpty_merge]
  cases second with
  | nil => cases first <;> rfl
  | cons entry rest => cases first <;> rfl

/-- So merging projections of selected fields, one after the other, is merging all that is
selected. -/
theorem merge_map_ofSelect (maps : List (OrderedMap String α)) :
    merge (maps.map ofSelect) = ofSelect (maps.foldl OrderedMap.merge []) := by
  have hfold : ∀ base : OrderedMap String α, (maps.map ofSelect).foldl mergeOver (ofSelect base) =
      ofSelect (maps.foldl OrderedMap.merge base) := by
    induction maps with
    | nil => exact fun base => rfl
    | cons map rest ih =>
        intro base
        rw [List.map_cons, List.foldl_cons, mergeOver_ofSelect]
        exact ih _
  exact hfold []

end ProjectionParts

theorem Compile.result_map {α β : Type} (f : α → β) (computation : Compile α) (memory : Memory) :
    ((f <$> computation) memory).result = (computation memory).result.map f := by
  rw [map_eq_pure_bind]
  cases h : (computation memory).result with
  | error fault =>
      rw [Compile.bind_of_error h]
      rfl
  | ok value =>
      rw [Compile.bind_of_ok h]
      rfl

namespace Expansion

/-! ### Doing a thing again -/

namespace Agrees

variable {invariant : Memory → Prop} {α β : Type}

theorem trans {first second third : Compile α} (h : Agrees invariant Eq first second)
    (h' : Agrees invariant Eq second third) : Agrees invariant Eq first third := by
  intro memory memory' hm hm'
  have hfirst := h memory memory hm hm
  have hsecond := h' memory memory' hm hm'
  refine ⟨?_, hfirst.notices.trans hsecond.notices, hfirst.keeps, hsecond.keeps'⟩
  rw [Likeness.eq_of_ends hfirst.ends]
  exact hsecond.ends

theorem map {first second : Compile α} (f : α → β) (h : Agrees invariant Eq first second) :
    Agrees invariant Eq (f <$> first) (f <$> second) := by
  rw [map_eq_pure_bind, map_eq_pure_bind]
  exact h.step fun _ _ heq => .done (congrArg f heq)

/-- A quiet step that has succeeded before may be left out when it comes again. -/
theorem again {values : α → α → Prop} {values' : β → β → Prop} {first : Compile α}
    (h : Agrees invariant values first first) (hquiet : ∀ memory, (first memory).notices = [])
    {value : α}
    (halways : ∀ memory, invariant memory →
      ∃ found, (first memory).result = .ok found ∧ values value found)
    {second : α → Compile β} {other : Compile β}
    (hsecond : ∀ found, values value found → Agrees invariant values' (second found) other) :
    Agrees invariant values' (first >>= second) other := by
  intro memory memory' hm hm'
  obtain ⟨found, hfound, hvalues⟩ := halways memory hm
  have hafter := hsecond found hvalues _ _ (h memory memory hm hm).keeps hm'
  rw [Compile.bind_of_ok hfound]
  exact ⟨hafter.ends, by rw [hquiet, List.nil_append, hafter.notices], hafter.keeps,
    hafter.keeps'⟩

end Agrees

/-! ### Writing in pieces -/

section Walks

variable {context : Context} {enter : Enter} {type : Option TypeName} {filter : FieldFilter}

theorem writeAll_append (before : ProjectionMap) (first second : List Selection) :
    writeAll context enter type filter before (first ++ second) = (do
      let written ← writeAll context enter type filter before first
      writeAll context enter type filter written second) := by
  induction first generalizing before with
  | nil => rw [List.nil_append, writeAll_nil, pure_bind]
  | cons selection rest ih =>
      rw [List.cons_append, writeAll_cons, writeAll_cons, bind_assoc]
      exact bind_congr fun written => ih written

theorem compileSelections_eq (selections : Option (List Selection)) :
    compileSelections context selections = (do
      context.checkRoot
      let memory ← Compile.remembered
      let filter ← context.filterAt context.root
      writeAll context (enterWithin context (budget context memory) []) context.root filter []
        (selections.getD [])) :=
  rfl

theorem ofList_compileSelections (selections : Option (List Selection)) :
    OrderedMap.ofList <$> compileSelections context selections =
      compileSelections context selections := by
  rw [compileSelections_eq]
  simp only [map_bind]
  refine bind_congr fun _ => bind_congr fun memory => bind_congr fun filter => ?_
  exact (writeAll_before [] _).symm

theorem compileOver_single (before : ProjectionMap) (node : Field) :
    compileOver context before [node] =
      OrderedMap.merge before <$> compileSelections context node.selectionSet := by
  rw [map_eq_pure_bind]
  rfl

theorem compileFields_eq (nodes : List Field) :
    compileFields context nodes = ProjectionParts.ofSelect <$> compileOver context [] nodes := by
  rw [map_eq_pure_bind]
  rfl

theorem compileFields_single (node : Field) :
    compileFields context [node] =
      ProjectionParts.ofSelect <$> compileSelections context node.selectionSet := by
  rw [compileFields_eq, compileOver_single]
  exact congrArg _ (ofList_compileSelections node.selectionSet)

end Walks

/-- The selections of the nodes in one; a node without a selection set has none. -/
def joined (nodes : List Field) : List Selection :=
  nodes.flatMap fun node => node.selectionSet.getD []

section Joined

variable {context : Context} {invariant : Memory → Prop} (htelling : context.Telling invariant)
  (hsteady : context.Steady)

include htelling hsteady

theorem agrees_writeAll {memory memory' : Memory} (hm : invariant memory)
    (hm' : invariant memory') (type : Option TypeName) {filter filter' : FieldFilter}
    (hsimilar : filter.Similar filter') (selections : List Selection) :
    Agrees invariant Eq
      (writeAll context (enterWithin context (budget context memory) []) type filter [] selections)
      (writeAll context (enterWithin context (budget context memory') []) type filter' []
        selections) :=
  Correspondence.writeAll (contexts_agreement htelling) (agrees_enters htelling hsteady hm hm')
    selections rfl hsimilar []

/-- Two selection sets one after the other are walked like their selections in one. -/
theorem agrees_append (first second : Option (List Selection)) :
    Agrees invariant Eq (do
        let written ← compileSelections context first
        OrderedMap.merge written <$> compileSelections context second)
      (compileSelections context (some (first.getD [] ++ second.getD []))) := by
  have hroot := (sourced_agreement htelling fun _ _ => True).checkRoot
  have hfilter := agrees_filterAt htelling hsteady context.root
  rw [compileSelections_eq first, compileSelections_eq (some _), Option.getD_some]
  simp only [bind_assoc, writeAll_append]
  refine (Agrees.always hroot).step fun _ _ ⟨_, hrooted⟩ => ?_
  refine agrees_remembered.step fun memory memory' ⟨hm, hm'⟩ => ?_
  refine hfilter.always.step fun filter filter' ⟨⟨hsimilar, _⟩, hfiltered⟩ => ?_
  refine (agrees_writeAll htelling hsteady hm hm' context.root hsimilar (first.getD [])).step
    fun written _ heq => ?_
  subst heq
  rw [compileSelections_eq second, writeAll_before written]
  simp only [map_bind]
  -- the root is known and has a filter, so only the walk is left of the second compilation
  refine Agrees.again hroot (Context.finds_checkRoot hsteady).quiet hrooted fun _ _ => ?_
  refine agrees_remembered.again (fun _ => rfl) (fun later hlater => ⟨later, rfl, hm, hlater⟩)
    fun later ⟨_, hlater⟩ => ?_
  refine hfilter.again (Context.finds_filterAt hsteady context.root).quiet hfiltered
    fun found ⟨hfound, _⟩ => ?_
  have hsame : found.Similar filter' := fun name => (hfound name).symm.trans (hsimilar name)
  exact (agrees_writeAll htelling hsteady hlater hm' context.root hsame (second.getD [])).map _

/-- Nodes that are compiled one over the other are walked like their selections in one. -/
theorem agrees_compileOver (node : Field) (rest : List Field) (before : ProjectionMap) :
    Agrees invariant Eq (compileOver context before (node :: rest))
      (OrderedMap.merge before <$>
        compileSelections context (some (joined (node :: rest)))) := by
  induction rest generalizing node before with
  | nil =>
      have hjoined : joined [node] = node.selectionSet.getD [] := by simp [joined]
      rw [hjoined, compileOver_single]
      exact (agrees_compileSelections htelling hsteady node.selectionSet).map _
  | cons next rest ih =>
      have hjoined : joined (node :: next :: rest) =
          node.selectionSet.getD [] ++ joined (next :: rest) := rfl
      rw [hjoined]
      have happend := (agrees_append htelling hsteady node.selectionSet
        (some (joined (next :: rest)))).map (OrderedMap.merge before)
      refine Agrees.trans ?_ happend
      rw [compileOver, ← ofList_compileSelections node.selectionSet]
      simp only [map_eq_pure_bind, bind_assoc, pure_bind]
      refine (agrees_compileSelections htelling hsteady node.selectionSet).step
        fun written _ heq => ?_
      subst heq
      have hmerge : ∀ after : ProjectionMap, OrderedMap.merge before
          (OrderedMap.merge (OrderedMap.ofList written) after) =
            OrderedMap.merge (OrderedMap.merge before (OrderedMap.ofList written)) after :=
        OrderedMap.merge_assoc before (OrderedMap.nodup_keys_ofList written)
      simp only [hmerge]
      rw [← map_eq_pure_bind]
      exact ih next (OrderedMap.merge before (OrderedMap.ofList written))

/-! ### Results -/

theorem result_compileOver {nodes : List Field} {maps : List ProjectionMap}
    (h : List.Forall₂ (fun node map => ∀ memory, invariant memory →
      (compileSelections context node.selectionSet memory).result = .ok map) nodes maps)
    (before : ProjectionMap) {memory : Memory} (hm : invariant memory) :
    (compileOver context before nodes memory).result =
      .ok (maps.foldl OrderedMap.merge before) := by
  induction h generalizing before memory with
  | nil => rfl
  | @cons node map _ _ hnode _ ih =>
      rw [compileOver, Compile.bind_of_ok (hnode memory hm)]
      exact ih _ (agrees_compileSelections htelling hsteady _ memory memory hm hm).keeps

theorem error_compileOver {earlier : List Field} {node : Field} {fault : Fault}
    (hearlier : ∀ other ∈ earlier, ∀ memory, invariant memory →
      ∃ map, (compileSelections context other.selectionSet memory).result = .ok map)
    (hnode : ∀ memory, invariant memory →
      (compileSelections context node.selectionSet memory).result = .error fault)
    (later : List Field) (before : ProjectionMap) {memory : Memory} (hm : invariant memory) :
    (compileOver context before (earlier ++ node :: later) memory).result = .error fault := by
  induction earlier generalizing before memory with
  | nil =>
      rw [List.nil_append, compileOver, Compile.bind_of_error (hnode memory hm)]
  | cons other rest ih =>
      obtain ⟨map, hmap⟩ := hearlier other List.mem_cons_self memory hm
      rw [List.cons_append, compileOver, Compile.bind_of_ok hmap]
      exact ih (fun another hanother => hearlier another (List.mem_cons_of_mem other hanother)) _
        (agrees_compileSelections htelling hsteady _ memory memory hm hm).keeps

end Joined

section Served

variable {context : Context} (hsteady : context.Steady) {start : Memory}

include hsteady

theorem echoes_of_served {memory : Memory} (h : context.Served start memory) :
    context.Echoes start memory :=
  fun target htarget => (h target htarget).echoes (hsteady target htarget)

/-- What a selection set is compiled to once, it is always compiled to. -/
theorem result_of_served {memory memory' : Memory} (h : context.Served start memory)
    (h' : context.Echoes start memory') (selections : Option (List Selection)) :
    (compileSelections context selections memory').result =
      (compileSelections context selections memory).result := by
  have hagrees := agrees_compileSelections (Context.telling_echoes hsteady start) hsteady selections
  exact Likeness.eq_of_ends (hagrees memory' memory h' (echoes_of_served hsteady h)).ends

theorem exists_map_of_single {node : Field} {projection : Projection} {memory : Memory}
    (hserved : context.Served start memory)
    (h : (compileFields context [node] memory).result = .ok projection) :
    ∃ map, projection = ProjectionParts.ofSelect map ∧
      ∀ memory', context.Echoes start memory' →
        (compileSelections context node.selectionSet memory').result = .ok map := by
  rw [compileFields_single, Compile.result_map, map_eq_ok] at h
  obtain ⟨map, hresult, rfl⟩ := h
  exact ⟨map, rfl, fun memory' h' => (result_of_served hsteady hserved h' _).trans hresult⟩

theorem exists_maps_of_singles {nodes : List Field} {projections : List Projection}
    (h : List.Forall₂ (fun node projection => ∃ memory, context.Served start memory ∧
      (compileFields context [node] memory).result = .ok projection) nodes projections) :
    ∃ maps : List ProjectionMap, projections = maps.map ProjectionParts.ofSelect ∧
      List.Forall₂ (fun node map => ∀ memory, context.Echoes start memory →
        (compileSelections context node.selectionSet memory).result = .ok map) nodes maps := by
  induction h with
  | nil => exact ⟨[], rfl, .nil⟩
  | cons hnode _ ih =>
      obtain ⟨memory, hserved, hresult⟩ := hnode
      obtain ⟨maps, rfl, hmaps⟩ := ih
      obtain ⟨map, rfl, hmap⟩ := exists_map_of_single hsteady hserved hresult
      exact ⟨map :: maps, rfl, .cons hmap hmaps⟩

theorem error_of_single {node : Field} {fault : Fault} {memory : Memory}
    (hserved : context.Served start memory)
    (h : (compileFields context [node] memory).result = .error fault) :
    ∀ memory', context.Echoes start memory' →
      (compileSelections context node.selectionSet memory').result = .error fault := by
  intro memory' h'
  rw [compileFields_single, Compile.result_map, map_eq_error] at h
  exact (result_of_served hsteady hserved h' node.selectionSet).trans h

/-- Some nodes are compiled like one node that has all their selections.  If each can be compiled
on its own, then the nodes are compiled to the merge of their projections, and if not, then they
fail as the first of them that does.  The registry, if there is one, may have served any requests
in between. -/
theorem compileFields_joined (nodes : List Field) {memory : Memory}
    (hserved : context.Served start memory) :
    (nodes ≠ [] → ∀ node : Field, node.selectionSet = some (joined nodes) →
      ∀ memory', context.Served start memory' →
        (compileFields context nodes memory).logged =
          (compileFields context [node] memory').logged) ∧
      (∀ projections, List.Forall₂ (fun node projection => ∃ memory',
          context.Served start memory' ∧
            (compileFields context [node] memory').result = .ok projection) nodes projections →
        (compileFields context nodes memory).result = .ok (ProjectionParts.merge projections)) ∧
      ∀ earlier node later fault, nodes = earlier ++ node :: later →
        (∀ other ∈ earlier, ∃ projection memory', context.Served start memory' ∧
          (compileFields context [other] memory').result = .ok projection) →
        (∃ memory', context.Served start memory' ∧
          (compileFields context [node] memory').result = .error fault) →
        (compileFields context nodes memory).result = .error fault := by
  have htelling := Context.telling_echoes hsteady start
  have hm := echoes_of_served hsteady hserved
  refine ⟨?_, ?_, ?_⟩
  · intro hnodes node hset memory' hserved'
    obtain ⟨first, rest, rfl⟩ := List.exists_cons_of_ne_nil hnodes
    have hagrees := (agrees_compileOver htelling hsteady first rest []).map ProjectionParts.ofSelect
    have hsingle : compileFields context [node] = ProjectionParts.ofSelect <$>
        OrderedMap.merge [] <$> compileSelections context (some (joined (first :: rest))) := by
      rw [compileFields_eq, compileOver_single, hset]
    rw [← compileFields_eq, ← hsingle] at hagrees
    have hsame := hagrees memory memory' hm (echoes_of_served hsteady hserved')
    rw [Outcome.logged, Outcome.logged, Likeness.eq_of_ends hsame.ends, hsame.notices]
  · intro projections hprojections
    obtain ⟨maps, rfl, hmaps⟩ := exists_maps_of_singles hsteady hprojections
    rw [compileFields_eq, Compile.result_map, result_compileOver htelling hsteady hmaps [] hm,
      ProjectionParts.merge_map_ofSelect]
    rfl
  · rintro earlier node later fault rfl hearlier ⟨memory', hserved', hresult⟩
    have hmaps : ∀ other ∈ earlier, ∀ memory, context.Echoes start memory →
        ∃ map, (compileSelections context other.selectionSet memory).result = .ok map := by
      intro other hother memory hm
      obtain ⟨projection, memory', hserved', hresult⟩ := hearlier other hother
      obtain ⟨map, -, hmap⟩ := exists_map_of_single hsteady hserved' hresult
      exact ⟨map, hmap memory hm⟩
    rw [compileFields_eq, Compile.result_map, error_compileOver htelling hsteady hmaps
      (error_of_single hsteady hserved' hresult) later [] hm]
    rfl

end Served

def personWith (selectionSet : Option (List Selection)) : Field where
  aliasName := none
  name := "person"
  arguments := []
  directives := []
  selectionSet := selectionSet

def personThrice : List Field :=
  [personWith (some [plainField "friend" (some [plainField "name" none]), plainField "name" none]),
   personWith none,
   personWith (some [plainField "posts" none, plainField "friend" (some [plainField "id" none])])]

/-- A registry that was asked for a filter of people without numbers. -/
def afterNumbers : Memory :=
  ((Registry.fieldFilter people (.text "Person") ["id"]).run Memory.empty).2

theorem result_personThrice :
    List.Forall₂ (fun node projection => ∃ memory', (aboutPeople []).Served .empty memory' ∧
        (compileFields (aboutPeople []) [node] memory').result = .ok projection) personThrice
      [.ofSelect [("friend", .relation [("name", .leaf)] []), ("name", .leaf)],
       .empty,
       .ofSelect [("posts", .leaf), ("friend", .relation [("id", .leaf)] [])]] := by
  have hserved : (aboutPeople []).Served .empty .empty := fun _ _ => .start
  exact .cons ⟨_, hserved, rfl⟩ (.cons ⟨_, hserved, rfl⟩ (.cons ⟨_, hserved, rfl⟩ .nil))

/-- The friend keeps its place and takes the later selection; a node that cannot be compiled
fails for all. -/
theorem joined_personThrice :
    (aboutPeople []).Steady ∧ (aboutPeople []).Served .empty .empty ∧
      (aboutPeople []).Served .empty afterNumbers ∧
      (compileFields (aboutPeople []) personThrice .empty).logged =
        (compileFields (aboutPeople []) [personWith (some (joined personThrice))]
          afterNumbers).logged ∧
      (compileFields (aboutPeople []) personThrice .empty).result =
        .ok (.ofSelect [("friend", .relation [("id", .leaf)] []), ("name", .leaf),
          ("posts", .leaf)]) ∧
      (compileFields (aboutPeople []) (personThrice ++ [personWith (some [.other "Unknown"]),
        personWith (some [.other "Later"])]) .empty).result =
          .error (.unexpectedSelection "Unknown") := by
  have hsteady := steady_aboutPeople []
  have hserved : (aboutPeople []).Served .empty .empty := fun _ _ => .start
  have hserved' : (aboutPeople []).Served .empty afterNumbers := by
    intro target htarget
    cases htarget
    exact .request .start (.fieldFilter (.text "Person") ["id"]) rfl
  obtain ⟨hone, hmerge, -⟩ := compileFields_joined hsteady personThrice hserved
  obtain ⟨-, -, hfails⟩ := compileFields_joined hsteady (personThrice ++
    [personWith (some [.other "Unknown"]), personWith (some [.other "Later"])]) hserved
  refine ⟨hsteady, hserved, hserved', hone (by simp [personThrice]) _ rfl afterNumbers hserved',
    hmerge _ result_personThrice, hfails _ _ _ _ rfl ?_ ⟨.empty, hserved, rfl⟩⟩
  intro other hother
  simp only [personThrice, List.mem_cons, List.not_mem_nil, or_false] at hother
  rcases hother with rfl | rfl | rfl
  · exact ⟨_, .empty, hserved, rfl⟩
  · exact ⟨_, .empty, hserved, rfl⟩
  · exact ⟨_, .empty, hserved, rfl⟩

end Expansion

end QueryProjection
