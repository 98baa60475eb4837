import QueryProjection.Proofs.Expansion.Joining

/-!
# Where a walk fails

A walk ends with a fault for what it finds at one selection, having walked all that precedes it.
`Meets` says that a walk comes to a selection of some sort, through places that can be entered, and
`Fails` lists all that can go wrong at a selection itself.  If a walk without a guard fails, and not
for want of an end, then it meets a selection that fails (`meets_of_error`).  The other way round,
if it meets a selection that cannot be walked, then it does not succeed (`not_ok_of_meets`); and if
all before it can be walked, then it fails in the way of that selection (`error_of_meets`).

What passes before a selection is met is a parameter.  It may be anything at all, and then `Meets`
does not mention any walk.
-/

namespace QueryProjection

namespace Outlook

def placeBelow (outlook : Outlook) (type : Option TypeName) (name : String) (kind : FieldKind) :
    Except Fault (Option TypeName × FieldFilter) := do
  let below ← outlook.typeBelow type name kind
  let inner ← outlook.filterAt below
  return (below, inner)

def placeWithin (outlook : Outlook) (type : Option TypeName) (condition : Option String) :
    Except Fault (Option TypeName × FieldFilter) := do
  let within ← outlook.typeWithin type condition
  let inner ← outlook.filterAt within
  return (within, inner)

variable {outlook : Outlook} {type : Option TypeName} {place : Option TypeName × FieldFilter}

theorem filterAt_of_placeBelow {name : String} {kind : FieldKind}
    (h : outlook.placeBelow type name kind = .ok place) :
    outlook.filterAt place.1 = .ok place.2 := by
  obtain ⟨below, -, h⟩ := bind_eq_ok.mp h
  obtain ⟨inner, hinner, h⟩ := bind_eq_ok.mp h
  cases h
  exact hinner

theorem filterAt_of_placeWithin {condition : Option String}
    (h : outlook.placeWithin type condition = .ok place) :
    outlook.filterAt place.1 = .ok place.2 := by
  obtain ⟨within, -, h⟩ := bind_eq_ok.mp h
  obtain ⟨inner, hinner, h⟩ := bind_eq_ok.mp h
  cases h
  exact hinner

end Outlook

namespace Expansion

/-- The walk of some selections comes to one of a sort, and all that precedes it passes. -/
inductive Meets (context : Context) (outlook : Outlook)
    (passes sort : Option TypeName → FieldFilter → Selection → Prop) :
    Option TypeName → FieldFilter → List Selection → Prop where
  | here {type : Option TypeName} {filter : FieldFilter} {selection : Selection}
      {rest : List Selection} (h : sort type filter selection) :
      Meets context outlook passes sort type filter (selection :: rest)
  | field {type below : Option TypeName} {filter inner : FieldFilter} {aliasName : Option String}
      {name : String} {kind : FieldKind} {arguments : List Argument} {directives : List Directive}
      {selections rest : List Selection} (hkind : filter.classify name = some kind)
      (hplace : outlook.placeBelow type name kind = .ok (below, inner))
      (hinside : Meets context outlook passes sort below inner selections) :
      Meets context outlook passes sort type filter
        (.field aliasName name arguments directives (some selections) :: rest)
  | spread {type within : Option TypeName} {filter inner : FieldFilter} {name : String}
      {fragment : Fragment} {directives : List Directive} {rest : List Selection}
      (hdefined : context.definition? name = some fragment)
      (hplace : outlook.placeWithin type (some fragment.condition) = .ok (within, inner))
      (hinside : Meets context outlook passes sort within inner fragment.selections) :
      Meets context outlook passes sort type filter (.spread name directives :: rest)
  | inline {type within : Option TypeName} {filter inner : FieldFilter} {condition : Option String}
      {directives : List Directive} {selections rest : List Selection}
      (hplace : outlook.placeWithin type condition = .ok (within, inner))
      (hinside : Meets context outlook passes sort within inner selections) :
      Meets context outlook passes sort type filter
        (.inline condition directives selections :: rest)
  | later {type : Option TypeName} {filter : FieldFilter} {selection : Selection}
      {rest : List Selection} (hpasses : passes type filter selection)
      (hrest : Meets context outlook passes sort type filter rest) :
      Meets context outlook passes sort type filter (selection :: rest)

/-- What a walk does at a selection itself fails, once it has walked what is nested there. -/
inductive Fails (context : Context) (outlook : Outlook)
    (walked : Option TypeName → FieldFilter → List Selection → Prop) (fault : Fault) :
    Option TypeName → FieldFilter → Selection → Prop where
  | below {type : Option TypeName} {filter : FieldFilter} {aliasName : Option String}
      {name : String} {kind : FieldKind} {arguments : List Argument} {directives : List Directive}
      {selections : List Selection} (hkind : filter.classify name = some kind)
      (h : outlook.placeBelow type name kind = .error fault) :
      Fails context outlook walked fault type filter
        (.field aliasName name arguments directives (some selections))
  | arguments {type below : Option TypeName} {filter inner : FieldFilter}
      {aliasName : Option String} {name : String} {kind : FieldKind} {arguments : List Argument}
      {directives : List Directive} {selections : List Selection}
      (hkind : filter.classify name = some kind)
      (hplace : outlook.placeBelow type name kind = .ok (below, inner))
      (hwalked : walked below inner selections)
      (h : (forwardArguments arguments context.bindings context.options.strict
        relationArguments).result = .error fault) :
      Fails context outlook walked fault type filter
        (.field aliasName name arguments directives (some selections))
  | undefined {type : Option TypeName} {filter : FieldFilter} {name : String}
      {directives : List Directive} (hdefined : context.definition? name = none)
      (hstrict : context.options.strict = true) (h : fault = .undefinedFragment name) :
      Fails context outlook walked fault type filter (.spread name directives)
  | spread {type : Option TypeName} {filter : FieldFilter} {name : String} {fragment : Fragment}
      {directives : List Directive} (hdefined : context.definition? name = some fragment)
      (h : outlook.placeWithin type (some fragment.condition) = .error fault) :
      Fails context outlook walked fault type filter (.spread name directives)
  | inline {type : Option TypeName} {filter : FieldFilter} {condition : Option String}
      {directives : List Directive} {selections : List Selection}
      (h : outlook.placeWithin type condition = .error fault) :
      Fails context outlook walked fault type filter (.inline condition directives selections)
  | other {type : Option TypeName} {filter : FieldFilter} {name : String}
      (h : fault = .unexpectedSelection name) :
      Fails context outlook walked fault type filter (.other name)

section Steps

variable {context : Context} {enter : Enter} {type : Option TypeName} {filter : FieldFilter}
  {memory : Memory} (hsteady : context.Steady)

include hsteady

theorem result_selectionSet (hsettled : SettledEnter context enter) (type : Option TypeName)
    (selections : List Selection) :
    (selectionSet context enter type selections memory).result = (do
      let filter ← (context.outlook memory).filterAt type
      (writeAll context enter type filter [] selections memory).result) :=
  (gives_selectionSet hsteady hsettled type selections).result

theorem result_branch (hsettled : SettledEnter context enter) (before : ProjectionMap)
    {aliasName : Option String} {name : String} {kind : FieldKind}
    (hkind : filter.classify name = some kind) {arguments : List Argument}
    {directives : List Directive} {selections : List Selection} :
    (writeOne context enter type filter before
        (.field aliasName name arguments directives (some selections)) memory).result = (do
      let place ← (context.outlook memory).placeBelow type name kind
      let select ← (writeAll context enter place.1 place.2 [] selections memory).result
      let forwarded ← (forwardArguments arguments context.bindings context.options.strict
        relationArguments).result
      .ok (OrderedMap.insert before name (.ofParts select forwarded))) := by
  rw [(gives_branch hsteady hsettled before hkind aliasName arguments directives
    selections).result]
  simp only [Outlook.placeBelow, bind_assoc, pure_bind, result_selectionSet hsteady hsettled]
  rfl

theorem result_inline (hsettled : SettledEnter context enter) (before : ProjectionMap)
    {condition : Option String} {directives : List Directive} {selections : List Selection} :
    (writeOne context enter type filter before (.inline condition directives selections)
        memory).result = (do
      let place ← (context.outlook memory).placeWithin type condition
      let inner ← (writeAll context enter place.1 place.2 [] selections memory).result
      .ok (OrderedMap.merge before inner)) := by
  rw [(gives_inline hsteady hsettled before condition directives selections).result]
  simp only [Outlook.placeWithin, bind_assoc, pure_bind, result_selectionSet hsteady hsettled]

theorem result_spread_zero (before : ProjectionMap) {name : String} {fragment : Fragment}
    (hdefined : context.definition? name = some fragment) {directives : List Directive} :
    (writeOne context (enterPlain context 0) type filter before (.spread name directives)
        memory).result = (do
      let within ← (context.outlook memory).typeWithin type (some fragment.condition)
      .error (.endlessExpansion name within)) := by
  rw [(gives_spread hsteady (settled_enterPlain hsteady _) before name directives).result]
  simp only [hdefined]
  rfl

theorem result_spread_succ (depth : Nat) (before : ProjectionMap) {name : String}
    {fragment : Fragment} (hdefined : context.definition? name = some fragment)
    {directives : List Directive} :
    (writeOne context (enterPlain context (depth + 1)) type filter before
        (.spread name directives) memory).result = (do
      let place ← (context.outlook memory).placeWithin type (some fragment.condition)
      let inner ← (writeAll context (enterPlain context depth) place.1 place.2 []
        fragment.selections memory).result
      .ok (OrderedMap.merge before inner)) := by
  rw [(gives_spread hsteady (settled_enterPlain hsteady _) before name directives).result]
  simp only [hdefined, enterPlain_succ, Outlook.placeWithin, bind_assoc, pure_bind,
    result_selectionSet hsteady (settled_enterPlain hsteady depth)]

theorem result_writeAll_cons (depth : Nat) (before : ProjectionMap) (selection : Selection)
    (rest : List Selection) :
    (writeAll context (enterPlain context depth) type filter before (selection :: rest)
        memory).result = (do
      let written ← (writeOne context (enterPlain context depth) type filter before selection
        memory).result
      (writeAll context (enterPlain context depth) type filter written rest memory).result) :=
  (gives_writeAll_cons hsteady (settled_enterPlain hsteady depth) before selection rest).result

theorem result_writeAll_singleton (depth : Nat) (before : ProjectionMap) (selection : Selection) :
    (writeAll context (enterPlain context depth) type filter before [selection] memory).result =
      (writeOne context (enterPlain context depth) type filter before selection memory).result := by
  rw [result_writeAll_cons hsteady]
  exact bind_pure _

end Steps

section Walks

variable {context : Context} {memory : Memory}
  {passes sort : Option TypeName → FieldFilter → Selection → Prop}
  {walked : Option TypeName → FieldFilter → List Selection → Prop} {fault : Fault}

theorem Meets.mono {outlook : Outlook}
    {passes' sort' : Option TypeName → FieldFilter → Selection → Prop}
    {type : Option TypeName} {filter : FieldFilter} {selections : List Selection}
    (h : Meets context outlook passes sort type filter selections)
    (hfilter : outlook.filterAt type = .ok filter)
    (hpasses : ∀ type filter selection, outlook.filterAt type = .ok filter →
      passes type filter selection → passes' type filter selection)
    (hsort : ∀ type filter selection, outlook.filterAt type = .ok filter →
      sort type filter selection → sort' type filter selection) :
    Meets context outlook passes' sort' type filter selections := by
  induction h with
  | here h => exact .here (hsort _ _ _ hfilter h)
  | field hkind hplace _ ih =>
      exact .field hkind hplace (ih (Outlook.filterAt_of_placeBelow hplace))
  | spread hdefined hplace _ ih =>
      exact .spread hdefined hplace (ih (Outlook.filterAt_of_placeWithin hplace))
  | inline hplace _ ih => exact .inline hplace (ih (Outlook.filterAt_of_placeWithin hplace))
  | later h _ ih => exact .later (hpasses _ _ _ hfilter h) (ih hfilter)

theorem Meets.exists_of_sort {outlook : Outlook} {type : Option TypeName} {filter : FieldFilter}
    {selections : List Selection} (h : Meets context outlook passes sort type filter selections) :
    ∃ type filter selection, sort type filter selection := by
  induction h with
  | here h => exact ⟨_, _, _, h⟩
  | field _ _ _ ih | spread _ _ _ ih | inline _ _ ih | later _ _ ih => exact ih

section Error

variable (hsteady : context.Steady)
  (hwalked : ∀ depth type filter before selections written,
    (writeAll context (enterPlain context depth) type filter before selections memory).result =
      .ok written → walked type filter selections)

include hsteady hwalked

theorem meets_of_error_writeOne (hfault : ¬ fault.Endless) {depth : Nat} {selection : Selection}
    {rest : List Selection}
    (hnested : ∀ type filter before, (writeAll context (enterPlain context depth) type filter before
        selection.nested memory).result = .error fault →
      Meets context (context.outlook memory) passes
        (Fails context (context.outlook memory) walked fault) type filter selection.nested)
    (hentered : ∀ less, depth = less + 1 → ∀ selections type filter before,
      (writeAll context (enterPlain context less) type filter before selections memory).result =
        .error fault →
      Meets context (context.outlook memory) passes
        (Fails context (context.outlook memory) walked fault) type filter selections)
    {type : Option TypeName} {filter : FieldFilter} {before : ProjectionMap}
    (h : (writeOne context (enterPlain context depth) type filter before selection memory).result =
      .error fault) :
    Meets context (context.outlook memory) passes
      (Fails context (context.outlook memory) walked fault) type filter (selection :: rest) := by
  have hsettled := settled_enterPlain hsteady depth
  cases selection with
  | field aliasName name arguments directives selections =>
      cases hkind : filter.classify name with
      | none =>
          rw [writeOne_dropped before hkind] at h
          cases h
      | some kind =>
          cases selections with
          | none =>
              rw [writeOne_leaf before hkind] at h
              cases h
          | some selections =>
              rw [result_branch hsteady hsettled before hkind, bind_eq_error] at h
              rcases h with hplace | ⟨⟨below, inner⟩, hplace, h⟩
              · exact .here (.below hkind hplace)
              rw [bind_eq_error] at h
              rcases h with hinside | ⟨select, hselect, h⟩
              · exact .field hkind hplace (hnested below inner [] hinside)
              rw [bind_eq_error] at h
              rcases h with harguments | ⟨forwarded, -, h⟩
              · exact .here (.arguments hkind hplace (hwalked _ _ _ _ _ _ hselect) harguments)
              · cases h
  | spread name directives =>
      cases hdefined : context.definition? name with
      | none =>
          rw [(gives_spread hsteady hsettled before name directives).result] at h
          simp only [hdefined] at h
          split at h
          · rename_i hstrict
            exact .here (.undefined hdefined hstrict (Except.error.inj h).symm)
          · cases h
      | some fragment =>
          cases depth with
          | zero =>
              rw [result_spread_zero hsteady before hdefined, bind_eq_error] at h
              rcases h with hwithin | ⟨within, -, hendless⟩
              · refine .here (.spread hdefined ?_)
                rw [Outlook.placeWithin, hwithin]
                rfl
              · cases hendless
                exact absurd trivial hfault
          | succ depth =>
              rw [result_spread_succ hsteady depth before hdefined, bind_eq_error] at h
              rcases h with hplace | ⟨⟨within, inner⟩, hplace, h⟩
              · exact .here (.spread hdefined hplace)
              rw [bind_eq_error] at h
              rcases h with hinside | ⟨map, -, h⟩
              · exact .spread hdefined hplace
                  (hentered depth rfl fragment.selections within inner [] hinside)
              · cases h
  | inline condition directives selections =>
      rw [result_inline hsteady hsettled before, bind_eq_error] at h
      rcases h with hplace | ⟨⟨within, inner⟩, hplace, h⟩
      · exact .here (.inline hplace)
      rw [bind_eq_error] at h
      rcases h with hinside | ⟨map, -, h⟩
      · exact .inline hplace (hnested within inner [] hinside)
      · cases h
  | other name =>
      rw [writeOne_other] at h
      exact .here (.other (Except.error.inj h).symm)

/-- A walk that fails, and not for want of an end, meets a selection that does. -/
theorem meets_of_error (hpasses : ∀ depth type filter before selection written,
      (writeOne context (enterPlain context depth) type filter before selection memory).result =
        .ok written → passes type filter selection)
    (hfault : ¬ fault.Endless) (depth : Nat) :
    ∀ (selections : List Selection) type filter before,
      (writeAll context (enterPlain context depth) type filter before selections memory).result =
        .error fault →
      Meets context (context.outlook memory) passes
        (Fails context (context.outlook memory) walked fault) type filter selections := by
  induction depth using Nat.strongRecOn with
  | ind depth ihDepth =>
      intro selections
      induction selections using Selection.listInduction with
      | nil =>
          intro type filter before h
          rw [writeAll_nil] at h
          cases h
      | cons selection rest ihNested ih =>
          intro type filter before h
          rw [result_writeAll_cons hsteady, bind_eq_error] at h
          rcases h with hone | ⟨written, hwritten, hrest⟩
          · exact meets_of_error_writeOne hsteady hwalked hfault ihNested
              (fun less heq => ihDepth less (heq ▸ Nat.lt_succ_self less)) hone
          · exact .later (hpasses _ _ _ _ _ _ hwritten) (ih type filter written hrest)

end Error

/-- A walk does not succeed, if it meets a selection that cannot be walked. -/
theorem not_ok_of_meets (hsteady : context.Steady)
    (hsort : ∀ depth type filter before selection written, sort type filter selection →
      (writeOne context (enterPlain context depth) type filter before selection memory).result ≠
        .ok written)
    {type : Option TypeName} {filter : FieldFilter} {selections : List Selection}
    (h : Meets context (context.outlook memory) passes sort type filter selections) :
    ∀ depth before written,
      (writeAll context (enterPlain context depth) type filter before selections memory).result ≠
        .ok written := by
  -- it is enough that the first selection cannot be walked
  have hfirst : ∀ {depth type filter before selection rest},
      (∀ written, (writeOne context (enterPlain context depth) type filter before selection
        memory).result ≠ .ok written) →
      ∀ written, (writeAll context (enterPlain context depth) type filter before
        (selection :: rest) memory).result ≠ .ok written := by
    intro depth type filter before selection rest hone written hall
    rw [result_writeAll_cons hsteady, bind_eq_ok] at hall
    obtain ⟨first, hwritten, -⟩ := hall
    exact hone first hwritten
  induction h with
  | here h =>
      intro depth before
      exact hfirst fun written => hsort depth _ _ before _ written h
  | field hkind hplace _ ih =>
      intro depth before
      refine hfirst fun written hone => ?_
      rw [result_branch hsteady (settled_enterPlain hsteady depth) before hkind, hplace,
        bind_eq_ok] at hone
      obtain ⟨place, heq, hone⟩ := hone
      cases heq
      obtain ⟨select, hselect, -⟩ := bind_eq_ok.mp hone
      exact ih depth [] select hselect
  | spread hdefined hplace _ ih =>
      intro depth before
      refine hfirst fun written hone => ?_
      cases depth with
      | zero =>
          rw [result_spread_zero hsteady before hdefined, bind_eq_ok] at hone
          obtain ⟨within, -, hone⟩ := hone
          cases hone
      | succ depth =>
          rw [result_spread_succ hsteady depth before hdefined, hplace, bind_eq_ok] at hone
          obtain ⟨place, heq, hone⟩ := hone
          cases heq
          obtain ⟨map, hmap, -⟩ := bind_eq_ok.mp hone
          exact ih depth [] map hmap
  | inline hplace _ ih =>
      intro depth before
      refine hfirst fun written hone => ?_
      rw [result_inline hsteady (settled_enterPlain hsteady depth) before, hplace,
        bind_eq_ok] at hone
      obtain ⟨place, heq, hone⟩ := hone
      cases heq
      obtain ⟨map, hmap, -⟩ := bind_eq_ok.mp hone
      exact ih depth [] map hmap
  | later _ _ ih =>
      intro depth before written hall
      rw [result_writeAll_cons hsteady, bind_eq_ok] at hall
      obtain ⟨first, -, hrest⟩ := hall
      exact ih depth first written hrest

/-- A walk that is not cut off fails in the way of the selection that it meets, if all before that
can be walked. -/
theorem error_of_meets (hsteady : context.Steady)
    (hpasses : ∀ depth type filter before selection, passes type filter selection →
      ¬ Endless (writeOne context (enterPlain context depth) type filter before selection
        memory).result →
      ∃ written, (writeOne context (enterPlain context depth) type filter before selection
        memory).result = .ok written)
    (hsort : ∀ depth type filter before selection, sort type filter selection →
      ¬ Endless (writeOne context (enterPlain context depth) type filter before selection
        memory).result →
      (writeOne context (enterPlain context depth) type filter before selection memory).result =
        .error fault)
    {type : Option TypeName} {filter : FieldFilter} {selections : List Selection}
    (h : Meets context (context.outlook memory) passes sort type filter selections) :
    ∀ depth before,
      ¬ Endless (writeAll context (enterPlain context depth) type filter before selections
        memory).result →
      (writeAll context (enterPlain context depth) type filter before selections memory).result =
        .error fault := by
  -- whatever comes first fails in this way before anything else
  have hfirst : ∀ {depth type filter before selection rest},
      (¬ Endless (writeOne context (enterPlain context depth) type filter before selection
          memory).result →
        (writeOne context (enterPlain context depth) type filter before selection memory).result =
          .error fault) →
      ¬ Endless (writeAll context (enterPlain context depth) type filter before
        (selection :: rest) memory).result →
      (writeAll context (enterPlain context depth) type filter before (selection :: rest)
        memory).result = .error fault := by
    intro depth type filter before selection rest hone
    rw [result_writeAll_cons hsteady]
    exact error_of_not_endless_bind hone
  induction h with
  | here h =>
      intro depth before
      exact hfirst (hsort depth _ _ before _ h)
  | field hkind hplace _ ih =>
      intro depth before
      refine hfirst ?_
      rw [result_branch hsteady (settled_enterPlain hsteady depth) before hkind, hplace, ok_bind]
      exact error_of_not_endless_bind (ih depth [])
  | spread hdefined hplace _ ih =>
      intro depth before
      refine hfirst ?_
      cases depth with
      | zero =>
          obtain ⟨within, hwithin, -⟩ := bind_eq_ok.mp hplace
          rw [result_spread_zero hsteady before hdefined, hwithin]
          exact fun hnot => absurd ⟨_, rfl, trivial⟩ hnot
      | succ depth =>
          rw [result_spread_succ hsteady depth before hdefined, hplace, ok_bind]
          exact error_of_not_endless_bind (ih depth [])
  | inline hplace _ ih =>
      intro depth before
      refine hfirst ?_
      rw [result_inline hsteady (settled_enterPlain hsteady depth) before, hplace, ok_bind]
      exact error_of_not_endless_bind (ih depth [])
  | @later type filter selection rest hpasses' _ ih =>
      intro depth before hnot
      rw [result_writeAll_cons hsteady, endless_bind, not_or] at hnot
      obtain ⟨written, hwritten⟩ := hpasses depth type filter before selection hpasses' hnot.1
      rw [result_writeAll_cons hsteady, hwritten]
      exact ih depth written fun hendless => hnot.2 ⟨written, hwritten, hendless⟩

end Walks

/-! ### Compilations -/

section Compilations

variable {context : Context} (hsteady : context.Steady)

include hsteady

/-- Some nodes are compiled to what their selections in one are compiled to. -/
theorem result_compileFields {nodes : List Field} (hnodes : nodes ≠ []) (memory : Memory) :
    (compileFields context nodes memory).result =
      (compileSelections context (some (joined nodes)) memory).result.map
        ProjectionParts.ofSelect := by
  obtain ⟨node, rest, rfl⟩ := List.exists_cons_of_ne_nil hnodes
  have hagrees := agrees_compileOver (Context.telling_echoes hsteady memory) hsteady node rest []
  have hm : context.Echoes memory memory := fun _ _ => .refl memory
  have hover := Likeness.eq_of_ends (hagrees memory memory hm hm).ends
  rw [compileFields_eq, Compile.result_map, hover]
  exact congrArg (fun compile : Compile ProjectionMap =>
    (compile memory).result.map ProjectionParts.ofSelect) (ofList_compileSelections _)

/-- A compilation that does not fail for want of an end is the walk from the root, without a guard,
if there is a root to walk from. -/
theorem exists_walk_of_not_endless {selections : Option (List Selection)} {memory : Memory}
    (hnot : ¬ Endless (compileSelections context selections memory).result) :
    ∃ depth after, context.outlook after = context.outlook memory ∧
      (compileSelections context selections memory).result = (do
        (context.outlook memory).root
        let filter ← (context.outlook memory).filterAt context.root
        (writeAll context (enterPlain context depth) context.root filter [] (selections.getD [])
          after).result) := by
  obtain ⟨depth, hdepth⟩ := exists_compilePlain_eq hsteady hnot
  have hplain := congrArg Outcome.result (hdepth depth (Nat.le_refl depth))
  have hkeeps := (Context.finds_checkRoot hsteady).keeps memory
  refine ⟨depth, (context.checkRoot memory).memory, hkeeps, hplain.symm.trans ?_⟩
  cases hroot : (context.outlook memory).root with
  | error fault =>
      rw [compilePlain, compileEntering_of_unrooted hsteady _ _ hroot]
      rfl
  | ok =>
      rw [compilePlain, compileEntering_of_root hsteady _ _ hroot, ok_bind,
        result_selectionSet hsteady (settled_enterPlain hsteady depth), hkeeps]

end Compilations

end Expansion

end QueryProjection
