import Mathlib.Data.List.Forall2
import QueryProjection.Expansion
import QueryProjection.Proofs.Merging

/-!
# The walk over selections, step by step

Selections nest in two ways, in fields and in inline fragments, and follow one another in
lists.  `Selection.listInduction` is the induction over all of this at once: a statement
about lists of selections follows from what each kind of selection does in front of a list.

Two facts about the walk come from it.  The walk does not look at what was written before:
it makes the same writes over any map (`writeAll_before`), which is why selections may be
compiled in pieces.  And walks of corresponding contexts correspond, for every way of
corresponding that steps hand on to the steps after them (`Correspondence.writeAll`).  So do
whole compilations, if what they start with corresponds too (`Compilations.compileFields`).  The
selections need not even be the same on both sides: arguments and fragments may be revised, if
what is made of them corresponds (`Revises.writeAll`).
-/

namespace QueryProjection

def Selection.nested : Selection → List Selection
  | .field _ _ _ _ (some selections) => selections
  | .inline _ _ selections => selections
  | .field _ _ _ _ none | .spread _ _ | .other _ => []

inductive Selection.Somewhere (sort : Selection → Prop) : List Selection → Prop where
  | here {selection : Selection} {rest : List Selection} (h : sort selection) :
      Somewhere sort (selection :: rest)
  | nested {selection : Selection} {rest : List Selection}
      (h : Somewhere sort selection.nested) : Somewhere sort (selection :: rest)
  | later {selection : Selection} {rest : List Selection} (h : Somewhere sort rest) :
      Somewhere sort (selection :: rest)

/-- Two lists of selections that differ in what is not looked at, and in the arguments of fields
with a selection set; these are related, each under the name of its field. -/
inductive Selection.Alike (arguments : String → List Argument → List Argument → Prop) :
    List Selection → List Selection → Prop where
  | nil : Alike arguments [] []
  | leaf (aliasName aliasName' : Option String) (name : String) (given given' : List Argument)
      (directives directives' : List Directive) {rest rest' : List Selection}
      (hrest : Alike arguments rest rest') :
      Alike arguments (.field aliasName name given directives none :: rest)
        (.field aliasName' name given' directives' none :: rest')
  | branch (aliasName aliasName' : Option String) (name : String) {given given' : List Argument}
      (directives directives' : List Directive) {below below' rest rest' : List Selection}
      (hgiven : arguments name given given') (hbelow : Alike arguments below below')
      (hrest : Alike arguments rest rest') :
      Alike arguments (.field aliasName name given directives (some below) :: rest)
        (.field aliasName' name given' directives' (some below') :: rest')
  | spread (name : String) (directives directives' : List Directive)
      {rest rest' : List Selection} (hrest : Alike arguments rest rest') :
      Alike arguments (.spread name directives :: rest) (.spread name directives' :: rest')
  | inline (condition : Option String) (directives directives' : List Directive)
      {below below' rest rest' : List Selection} (hbelow : Alike arguments below below')
      (hrest : Alike arguments rest rest') :
      Alike arguments (.inline condition directives below :: rest)
        (.inline condition directives' below' :: rest')
  | other (name : String) {rest rest' : List Selection} (hrest : Alike arguments rest rest') :
      Alike arguments (.other name :: rest) (.other name :: rest')

def Context.definition? (context : Context) (name : String) : Option Fragment :=
  context.fragments.bind fun table => OrderedMap.get? table name

theorem Context.fragment?_of_defined {context : Context} {name : String} {fragment : Fragment}
    (h : context.definition? name = some fragment) :
    context.fragment? name = pure (some fragment) := by
  unfold definition? at h
  funext memory
  simp only [fragment?, resolveFragment, h]
  rfl

theorem Context.fragment?_of_undefined {context : Context} {name : String}
    (h : context.definition? name = none) :
    context.fragment? name =
      if context.options.strict then Compile.stop (.undefinedFragment name)
      else do
        Compile.note (.fragmentUndefined name)
        return none := by
  unfold definition? at h
  funext memory
  simp only [fragment?, resolveFragment, h]
  cases context.options.strict <;> rfl

/-- Induction over lists of selections and the lists nested in them. -/
theorem Selection.listInduction {motive : List Selection → Prop} (nil : motive [])
    (cons : ∀ selection rest, motive selection.nested → motive rest →
      motive (selection :: rest)) :
    ∀ selections, motive selections
  | [] => nil
  | .field _ _ _ _ none :: rest => cons _ rest nil (listInduction nil cons rest)
  | .field _ _ _ _ (some selections) :: rest =>
      cons _ rest (listInduction nil cons selections) (listInduction nil cons rest)
  | .spread _ _ :: rest => cons _ rest nil (listInduction nil cons rest)
  | .inline _ _ selections :: rest =>
      cons _ rest (listInduction nil cons selections) (listInduction nil cons rest)
  | .other _ :: rest => cons _ rest nil (listInduction nil cons rest)

/-- A field with a selection set and some arguments stands among the selections or in them. -/
def Selection.HasBranch (name : String) (arguments : List Argument) : List Selection → Prop :=
  Somewhere fun selection => ∃ aliasName directives below,
    selection = .field aliasName name arguments directives (some below)

@[simp]
theorem Selection.hasBranch_nil {name : String} {arguments : List Argument} :
    ¬ HasBranch name arguments [] :=
  nofun

@[simp]
theorem Selection.hasBranch_cons {name : String} {arguments : List Argument}
    {selection : Selection} {rest : List Selection} :
    HasBranch name arguments (selection :: rest) ↔
      (∃ aliasName directives below,
        selection = .field aliasName name arguments directives (some below)) ∨
      HasBranch name arguments selection.nested ∨ HasBranch name arguments rest := by
  constructor
  · rintro (hhere | hnested | hlater)
    · exact Or.inl hhere
    · exact Or.inr (Or.inl hnested)
    · exact Or.inr (Or.inr hlater)
  · rintro (hhere | hnested | hlater)
    · exact .here hhere
    · exact .nested hnested
    · exact .later hlater

/-- Selections are like themselves, if this is so of the arguments of all fields in them. -/
theorem Selection.alike_self {arguments : String → List Argument → List Argument → Prop}
    {selections : List Selection}
    (h : ∀ name given, HasBranch name given selections → arguments name given given) :
    Alike arguments selections selections := by
  induction selections using Selection.listInduction with
  | nil => exact .nil
  | cons selection rest ihNested ih =>
      have hrest := ih fun name given hbranch => h name given (.later hbranch)
      have hnested := ihNested fun name given hbranch => h name given (.nested hbranch)
      cases selection with
      | field aliasName name given directives below =>
          cases below with
          | none => exact .leaf _ _ _ _ _ _ _ hrest
          | some below => exact .branch _ _ _ _ _ (h _ _ (.here ⟨_, _, _, rfl⟩)) hnested hrest
      | spread name directives => exact .spread _ _ _ hrest
      | inline condition directives below => exact .inline _ _ _ hnested hrest
      | other name => exact .other _ hrest

/-- More is known of related arguments, if it is known of the fields that have them. -/
theorem Selection.Alike.imp {arguments arguments' : String → List Argument → List Argument → Prop}
    {selections selections' : List Selection} (halike : Alike arguments selections selections')
    (h : ∀ name given given', HasBranch name given selections → arguments name given given' →
      arguments' name given given') :
    Alike arguments' selections selections' := by
  induction halike with
  | nil => exact .nil
  | leaf aliasName aliasName' name given given' directives directives' _ ih =>
      exact .leaf _ _ _ _ _ _ _ (ih fun _ _ _ hbranch => h _ _ _ (.later hbranch))
  | branch aliasName aliasName' name directives directives' hgiven _ _ ihBelow ih =>
      exact .branch _ _ _ _ _ (h _ _ _ (.here ⟨_, _, _, rfl⟩) hgiven)
        (ihBelow fun _ _ _ hbranch => h _ _ _ (.nested hbranch))
        (ih fun _ _ _ hbranch => h _ _ _ (.later hbranch))
  | spread name directives directives' _ ih =>
      exact .spread _ _ _ (ih fun _ _ _ hbranch => h _ _ _ (.later hbranch))
  | inline condition directives directives' _ _ ihBelow ih =>
      exact .inline _ _ _ (ihBelow fun _ _ _ hbranch => h _ _ _ (.nested hbranch))
        (ih fun _ _ _ hbranch => h _ _ _ (.later hbranch))
  | other name _ ih => exact .other _ (ih fun _ _ _ hbranch => h _ _ _ (.later hbranch))

namespace Expansion

variable {context : Context} {enter : Enter} {type : Option TypeName} {filter : FieldFilter}

theorem writeAll_nil (before : ProjectionMap) :
    writeAll context enter type filter before [] = pure before := by
  simp only [writeAll]

theorem writeAll_cons (before : ProjectionMap) (selection : Selection) (rest : List Selection) :
    writeAll context enter type filter before (selection :: rest) = (do
      let written ← writeOne context enter type filter before selection
      writeAll context enter type filter written rest) := by
  simp only [writeAll]

theorem writeOne_dropped (before : ProjectionMap) {name : String}
    (h : filter.classify name = none) (aliasName : Option String) (arguments : List Argument)
    (directives : List Directive) (selections : Option (List Selection)) :
    writeOne context enter type filter before
        (.field aliasName name arguments directives selections) = (do
      Compile.note (.fieldDropped name type)
      return before) := by
  rw [writeOne, h]

theorem writeOne_leaf (before : ProjectionMap) {name : String} {kind : FieldKind}
    (h : filter.classify name = some kind) (aliasName : Option String)
    (arguments : List Argument) (directives : List Directive) :
    writeOne context enter type filter before
        (.field aliasName name arguments directives none) =
      pure (OrderedMap.insert before name .leaf) := by
  rw [writeOne, h]

theorem writeOne_branch (before : ProjectionMap) {name : String} {kind : FieldKind}
    (h : filter.classify name = some kind) (aliasName : Option String)
    (arguments : List Argument) (directives : List Directive) (selections : List Selection) :
    writeOne context enter type filter before
        (.field aliasName name arguments directives (some selections)) = (do
      let below ← context.typeBelow type name kind
      let select ← selectionSet context enter below selections
      let forwarded ← context.forwarded arguments
      return OrderedMap.insert before name (.ofParts select forwarded)) := by
  rw [writeOne, h]
  simp only [selectionSet, bind_assoc]

theorem writeOne_spread (before : ProjectionMap) (name : String) (directives : List Directive) :
    writeOne context enter type filter before (.spread name directives) = (do
      match ← context.fragment? name with
      | none => return before
      | some fragment =>
          let within ← context.typeWithin type (some fragment.condition)
          return OrderedMap.merge before (← enter name fragment within)) := by
  unfold writeOne
  rfl

theorem writeOne_inline (before : ProjectionMap) (condition : Option String)
    (directives : List Directive) (selections : List Selection) :
    writeOne context enter type filter before (.inline condition directives selections) = (do
      let within ← context.typeWithin type condition
      return OrderedMap.merge before (← selectionSet context enter within selections)) := by
  simp only [writeOne, selectionSet, bind_assoc]

theorem writeOne_other (before : ProjectionMap) (name : String) :
    writeOne context enter type filter before (.other name) =
      Compile.stop (.unexpectedSelection name) := by
  simp only [writeOne]

theorem enterWithin_succ (context : Context) (depth : Nat) (active : List (String × Option Key))
    (name : String) (fragment : Fragment) (type : Option TypeName) :
    enterWithin context (depth + 1) active name fragment type =
      if active.contains (name, type.map TypeName.key) then
        Compile.stop (.endlessExpansion name type)
      else
        selectionSet context (enterWithin context depth ((name, type.map TypeName.key) :: active))
          type fragment.selections :=
  rfl

/-! ### What was written before does not matter -/

/-- A selection makes its writes over whatever was written before. -/
theorem exists_writes_of_selection (context : Context) (enter : Enter) (type : Option TypeName)
    (filter : FieldFilter) (selection : Selection) :
    ∃ writes : Compile ProjectionMap, ∀ before,
      writeOne context enter type filter before selection =
        OrderedMap.merge before <$> writes := by
  cases selection with
  | field aliasName name arguments directives selections =>
      cases hkind : filter.classify name with
      | none =>
          refine ⟨do Compile.note (.fieldDropped name type); return [], fun before => ?_⟩
          rw [writeOne_dropped before hkind]
          simp only [map_bind, map_pure, OrderedMap.merge_nil]
      | some kind =>
          cases selections with
          | none =>
              refine ⟨pure [(name, .leaf)], fun before => ?_⟩
              rw [writeOne_leaf before hkind, map_pure]
              rfl
          | some selections =>
              refine ⟨do
                let below ← context.typeBelow type name kind
                let select ← selectionSet context enter below selections
                let forwarded ← context.forwarded arguments
                return [(name, .ofParts select forwarded)], fun before => ?_⟩
              rw [writeOne_branch before hkind]
              simp only [map_bind, map_pure]
              rfl
  | spread name directives =>
      refine ⟨do
        match ← context.fragment? name with
        | none => return []
        | some fragment =>
            let within ← context.typeWithin type (some fragment.condition)
            enter name fragment within, fun before => ?_⟩
      rw [writeOne_spread, map_bind]
      congr 1
      funext found
      cases found with
      | none => simp only [map_pure, OrderedMap.merge_nil]
      | some fragment => simp only [map_eq_pure_bind, bind_assoc]
  | inline condition directives selections =>
      refine ⟨do
        let within ← context.typeWithin type condition
        selectionSet context enter within selections, fun before => ?_⟩
      rw [writeOne_inline]
      simp only [map_eq_pure_bind, bind_assoc]
  | other name =>
      refine ⟨Compile.stop (.unexpectedSelection name), fun before => ?_⟩
      rw [writeOne_other]
      rfl

theorem exists_writes (context : Context) (enter : Enter) (type : Option TypeName)
    (filter : FieldFilter) (selections : List Selection) :
    ∃ writes : Compile ProjectionMap, ∀ before,
      writeAll context enter type filter before selections =
        OrderedMap.merge before <$> writes := by
  induction selections with
  | nil => exact ⟨pure [], fun before => by rw [writeAll_nil, map_pure, OrderedMap.merge_nil]⟩
  | cons selection rest ih =>
      obtain ⟨first, hfirst⟩ := exists_writes_of_selection context enter type filter selection
      obtain ⟨others, hothers⟩ := ih
      refine ⟨do let written ← first; let after ← others; return written ++ after, fun before => ?_⟩
      rw [writeAll_cons, hfirst before]
      simp only [hothers, map_eq_pure_bind, bind_assoc, pure_bind, OrderedMap.merge_append]

/-- The walk makes the same writes over any map. -/
theorem writeAll_before (before : ProjectionMap) (selections : List Selection) :
    writeAll context enter type filter before selections =
      OrderedMap.merge before <$> writeAll context enter type filter [] selections := by
  obtain ⟨writes, hwrites⟩ := exists_writes context enter type filter selections
  rw [hwrites before, hwrites []]
  simp only [Functor.map_map]
  congr 1
  funext written
  exact (OrderedMap.merge_ofList before written).symm

/-! ### Walks of corresponding contexts -/

end Expansion

/-- Filters that every field takes for the same. -/
def FieldFilter.Similar (filter filter' : FieldFilter) : Prop :=
  ∀ name, filter.classify name = filter'.classify name

theorem FieldFilter.similar_of_eq (filter filter' : FieldFilter) (h : filter = filter') :
    filter.Similar filter' :=
  fun _ => h ▸ rfl

namespace Expansion

/-- A way in which two computations may correspond, relative to a way in which their values
may, that is handed on from one step to the next.  Along a walk two types may stand in the
same place if they are related by `types`, and two filters if they are by `filters`, which then are
similar; all other values are to be equal.  What is known of a fragment that was found under a
name is `defined`. -/
structure Correspondence where
  types : Option TypeName → Option TypeName → Prop
  filters : FieldFilter → FieldFilter → Prop := Eq
  similar : ∀ filter filter', filters filter filter' → filter.Similar filter' := by
    exact FieldFilter.similar_of_eq
  defined : String → Fragment → Prop := fun _ _ => True
  rel : {α : Type} → (α → α → Prop) → Compile α → Compile α → Prop
  done : ∀ {α : Type} {S : α → α → Prop} {a b : α}, S a b → rel S (pure a) (pure b)
  step : ∀ {α β : Type} {S : α → α → Prop} {T : β → β → Prop} {first first' : Compile α}
    {second second' : α → Compile β}, rel S first first' →
    (∀ a b, S a b → rel T (second a) (second' b)) →
    rel T (first >>= second) (first' >>= second')

namespace Correspondence

variable (R : Correspondence)

/-- Values that are equal, and a fragment under its name if one was found. -/
def Found (name : String) (found found' : Option Fragment) : Prop :=
  found = found' ∧ ∀ fragment, found = some fragment → R.defined name fragment

/-- What is found out about types corresponds in two contexts. -/
structure Places (context context' : Context) : Prop where
  filterAt : ∀ {type type'}, R.types type type' →
    R.rel R.filters (context.filterAt type) (context'.filterAt type')
  typeBelow : ∀ {type type'} name kind, R.types type type' →
    R.rel R.types (context.typeBelow type name kind) (context'.typeBelow type' name kind)
  typeWithin : ∀ {type type'} condition, R.types type type' →
    R.rel R.types (context.typeWithin type condition) (context'.typeWithin type' condition)
  dropped : ∀ {type type'} name, R.types type type' →
    R.rel Eq (Compile.note (.fieldDropped name type)) (Compile.note (.fieldDropped name type'))
  unexpected : ∀ name, R.rel Eq (Compile.stop (.unexpectedSelection name) : Compile ProjectionMap)
    (Compile.stop (.unexpectedSelection name))

/-- The single steps of a walk correspond in two contexts. -/
structure Contexts (context context' : Context) : Prop extends R.Places context context' where
  fragment? : ∀ name, R.rel (R.Found name) (context.fragment? name) (context'.fragment? name)
  forwarded : ∀ arguments, R.rel Eq (context.forwarded arguments) (context'.forwarded arguments)

/-- How queries may differ in the arguments of fields with a selection set and in the fragments,
under one name each. -/
structure Revision where
  arguments : String → List Argument → List Argument → Prop
  fragments : String → Fragment → Fragment → Prop
  condition : ∀ {name fragment fragment'}, fragments name fragment fragment' →
    fragment'.condition = fragment.condition
  selections : ∀ {name fragment fragment'}, fragments name fragment fragment' →
    Selection.Alike arguments fragment.selections fragment'.selections

structure Revises (revision : Revision) (context context' : Context) : Prop
    extends R.Places context context' where
  fragment? : ∀ name, R.rel (Option.Rel (revision.fragments name)) (context.fragment? name)
    (context'.fragment? name)
  forwarded : ∀ {filter filter' name kind given given'}, R.filters filter filter' →
    filter.classify name = some kind → revision.arguments name given given' →
    R.rel Eq (context.forwarded given) (context'.forwarded given')

def Enters (enter enter' : Enter) : Prop :=
  ∀ name fragment type type', R.defined name fragment → R.types type type' →
    R.rel Eq (enter name fragment type) (enter' name fragment type')

def EntersRevised (revision : Revision) (enter enter' : Enter) : Prop :=
  ∀ name fragment fragment' type type', revision.fragments name fragment fragment' →
    R.types type type' → R.rel Eq (enter name fragment type) (enter' name fragment' type')

structure Starts (context context' : Context) : Prop where
  key : ∀ {type type'}, R.types type type' → type.map TypeName.key = type'.map TypeName.key
  endless : ∀ {type type'} name, R.types type type' →
    R.rel Eq (Compile.stop (.endlessExpansion name type) : Compile ProjectionMap)
      (Compile.stop (.endlessExpansion name type'))
  root : R.types context.root context'.root
  checkRoot : R.rel Eq context.checkRoot context'.checkRoot
  remembered : R.rel Eq Compile.remembered Compile.remembered
  budget : ∀ memory, Expansion.budget context memory = Expansion.budget context' memory

/-- Whole compilations correspond: the single steps, and what they start from. -/
structure Compilations (context context' : Context) : Prop
    extends R.Contexts context context', R.Starts context context'

variable {R} {context context' : Context} {enter enter' : Enter}

/-- A step whose values are to be equal, followed by steps that correspond for every value. -/
theorem step_eq {α β : Type} {T : β → β → Prop} {first first' : Compile α}
    {second second' : α → Compile β} (h : R.rel Eq first first')
    (hsteps : ∀ a, R.rel T (second a) (second' a)) :
    R.rel T (first >>= second) (first' >>= second') :=
  R.step h fun a _ heq => heq ▸ hsteps a

theorem weaken {α : Type} {S T : α → α → Prop} {first first' : Compile α} (h : R.rel S first first')
    (himp : ∀ a b, S a b → T a b) : R.rel T first first' := by
  rw [← bind_pure first, ← bind_pure first']
  exact R.step h fun a b hab => R.done (himp a b hab)

/-- Nothing more is known of a fragment, if nothing has to be. -/
theorem found_of_eq {name : String} {first first' : Compile (Option Fragment)}
    (hdefined : ∀ fragment, R.defined name fragment) (h : R.rel Eq first first') :
    R.rel (R.Found name) first first' :=
  weaken h fun _ _ hsame => ⟨hsame, fun fragment _ => hdefined fragment⟩

/-- Compilations of nodes correspond, if those of their selection sets do. -/
theorem compileFields_of_forall₂ {nodes nodes' : List Field}
    (h : List.Forall₂ (fun node node' => R.rel Eq (compileSelections context node.selectionSet)
      (compileSelections context' node'.selectionSet)) nodes nodes') :
    R.rel Eq (compileFields context nodes) (compileFields context' nodes') := by
  have hover : ∀ before, R.rel Eq (compileOver context before nodes)
      (compileOver context' before nodes') := by
    induction h with
    | nil => exact fun before => R.done rfl
    | cons hnode _ ih =>
        intro before
        exact step_eq hnode fun written => ih (OrderedMap.merge before written)
  exact step_eq (hover []) fun _ => R.done rfl

theorem compileFields_of_compileSelections
    (h : ∀ selections, R.rel Eq (compileSelections context selections)
      (compileSelections context' selections)) (nodes : List Field) :
    R.rel Eq (compileFields context nodes) (compileFields context' nodes) :=
  compileFields_of_forall₂ (List.forall₂_same.mpr fun node _ => h node.selectionSet)

/-! ### Walks of queries that differ as they may -/

namespace Revises

variable {revision : Revision} (hc : R.Revises revision context context')

include hc

/-- Walks of selections that are alike correspond. -/
theorem writeAll (he : R.EntersRevised revision enter enter')
    {selections selections' : List Selection}
    (h : Selection.Alike revision.arguments selections selections') :
    ∀ {type type' : Option TypeName}, R.types type type' →
      ∀ {filter filter'}, R.filters filter filter' → ∀ before,
        R.rel Eq (Expansion.writeAll context enter type filter before selections)
          (Expansion.writeAll context' enter' type' filter' before selections') := by
  induction h with
  | nil =>
      intro type type' ht filter filter' hf before
      rw [writeAll_nil, writeAll_nil]
      exact R.done rfl
  | leaf _ _ name _ _ _ _ _ ih =>
      intro type type' ht filter filter' hf before
      rw [writeAll_cons, writeAll_cons]
      refine step_eq ?_ fun written => ih ht hf written
      have hsame := R.similar filter filter' hf name
      cases hkind : filter.classify name with
      | none =>
          rw [writeOne_dropped before hkind, writeOne_dropped before (hsame ▸ hkind)]
          exact step_eq (hc.dropped name ht) fun _ => R.done rfl
      | some kind =>
          rw [writeOne_leaf before hkind, writeOne_leaf before (hsame ▸ hkind)]
          exact R.done rfl
  | branch _ _ name _ _ hgiven _ _ ihBelow ih =>
      intro type type' ht filter filter' hf before
      rw [writeAll_cons, writeAll_cons]
      refine step_eq ?_ fun written => ih ht hf written
      have hsame := R.similar filter filter' hf name
      cases hkind : filter.classify name with
      | none =>
          rw [writeOne_dropped before hkind, writeOne_dropped before (hsame ▸ hkind)]
          exact step_eq (hc.dropped name ht) fun _ => R.done rfl
      | some kind =>
          rw [writeOne_branch before hkind, writeOne_branch before (hsame ▸ hkind)]
          refine R.step (hc.typeBelow name kind ht) fun below below' hbelow => ?_
          refine step_eq ?_ fun select => ?_
          · exact R.step (hc.filterAt hbelow) fun _ _ hinner => ihBelow hbelow hinner []
          · exact step_eq (hc.forwarded hf hkind hgiven) fun _ => R.done rfl
  | spread name _ _ _ ih =>
      intro type type' ht filter filter' hf before
      rw [writeAll_cons, writeAll_cons]
      refine step_eq ?_ fun written => ih ht hf written
      rw [writeOne_spread, writeOne_spread]
      refine R.step (hc.fragment? name) fun found found' hfound => ?_
      cases hfound with
      | none => exact R.done rfl
      | @some fragment fragment' hfragments =>
          simp only [revision.condition hfragments]
          refine R.step (hc.typeWithin _ ht) fun within within' hwithin => ?_
          exact step_eq (he name fragment fragment' within within' hfragments hwithin)
            fun _ => R.done rfl
  | inline condition _ _ _ _ ihBelow ih =>
      intro type type' ht filter filter' hf before
      rw [writeAll_cons, writeAll_cons]
      refine step_eq ?_ fun written => ih ht hf written
      rw [writeOne_inline, writeOne_inline]
      refine R.step (hc.typeWithin condition ht) fun within within' hwithin => ?_
      refine step_eq ?_ fun _ => R.done rfl
      exact R.step (hc.filterAt hwithin) fun _ _ hinner => ihBelow hwithin hinner []
  | other name _ ih =>
      intro type type' ht filter filter' hf before
      rw [writeAll_cons, writeAll_cons]
      refine step_eq ?_ fun written => ih ht hf written
      rw [writeOne_other, writeOne_other]
      exact hc.unexpected name

theorem selectionSet (he : R.EntersRevised revision enter enter') {type type' : Option TypeName}
    (ht : R.types type type') {selections selections' : List Selection}
    (h : Selection.Alike revision.arguments selections selections') :
    R.rel Eq (Expansion.selectionSet context enter type selections)
      (Expansion.selectionSet context' enter' type' selections') :=
  R.step (hc.filterAt ht) fun _ _ hf => hc.writeAll he h ht hf []

/-- Fragments are entered in corresponding ways, if types that correspond have one key. -/
theorem enterWithin
    (hkey : ∀ {type type'}, R.types type type' →
      type.map TypeName.key = type'.map TypeName.key)
    (hendless : ∀ {type type'} name, R.types type type' →
      R.rel Eq (Compile.stop (.endlessExpansion name type) : Compile ProjectionMap)
        (Compile.stop (.endlessExpansion name type')))
    (depth : Nat) (active : List (String × Option Key)) :
    R.EntersRevised revision (Expansion.enterWithin context depth active)
      (Expansion.enterWithin context' depth active) := by
  induction depth generalizing active with
  | zero => exact fun name _ _ _ _ _ ht => hendless name ht
  | succ depth ih =>
      intro name fragment fragment' type type' hfragments ht
      rw [enterWithin_succ, enterWithin_succ, hkey ht]
      split
      · exact hendless name ht
      · exact hc.selectionSet (ih _) ht (revision.selections hfragments)

theorem compileSelections (hs : R.Starts context context')
    {selections selections' : Option (List Selection)}
    (h : Selection.Alike revision.arguments (selections.getD []) (selections'.getD [])) :
    R.rel Eq (QueryProjection.compileSelections context selections)
      (QueryProjection.compileSelections context' selections') := by
  refine step_eq hs.checkRoot fun _ => step_eq hs.remembered fun memory => ?_
  have henter : R.EntersRevised revision
      (Expansion.enterWithin context (Expansion.budget context memory) [])
      (Expansion.enterWithin context' (Expansion.budget context' memory) []) := by
    rw [← hs.budget memory]
    exact hc.enterWithin hs.key hs.endless _ []
  exact hc.selectionSet henter hs.root h

theorem compileFields (hs : R.Starts context context') {nodes nodes' : List Field}
    (h : List.Forall₂ (fun node node' => Selection.Alike revision.arguments
      (node.selectionSet.getD []) (node'.selectionSet.getD [])) nodes nodes') :
    R.rel Eq (QueryProjection.compileFields context nodes)
      (QueryProjection.compileFields context' nodes') :=
  compileFields_of_forall₂ (h.imp fun _ _ halike => hc.compileSelections hs halike)

end Revises

/-! ### Walks of one query -/

variable (R) in
def unrevised : Revision where
  arguments _ := Eq
  fragments name fragment fragment' := fragment = fragment' ∧ R.defined name fragment
  condition h := h.1 ▸ rfl
  selections h := h.1 ▸ Selection.alike_self fun _ _ _ => rfl

theorem Contexts.revises (hc : R.Contexts context context') :
    R.Revises R.unrevised context context' where
  toPlaces := hc.toPlaces
  fragment? name := weaken (hc.fragment? name) fun found found' hfound => by
    obtain ⟨rfl, hdefined⟩ := hfound
    cases found with
    | none => exact .none
    | some fragment => exact .some ⟨rfl, hdefined fragment rfl⟩
  forwarded _ _ hsame := hsame ▸ hc.forwarded _

theorem Enters.revised (he : R.Enters enter enter') : R.EntersRevised R.unrevised enter enter' := by
  rintro name fragment _ type type' ⟨rfl, hdefined⟩ ht
  exact he name fragment type type' hdefined ht

/-- Walks of corresponding contexts correspond. -/
theorem writeAll (hc : R.Contexts context context') (he : R.Enters enter enter')
    (selections : List Selection) {type type' : Option TypeName} (ht : R.types type type')
    {filter filter' : FieldFilter} (hf : R.filters filter filter') (before : ProjectionMap) :
    R.rel Eq (Expansion.writeAll context enter type filter before selections)
      (Expansion.writeAll context' enter' type' filter' before selections) :=
  hc.revises.writeAll he.revised (Selection.alike_self fun _ _ _ => rfl) ht hf before

theorem selectionSet (hc : R.Contexts context context') (he : R.Enters enter enter')
    {type type' : Option TypeName} (ht : R.types type type') (selections : List Selection) :
    R.rel Eq (Expansion.selectionSet context enter type selections)
      (Expansion.selectionSet context' enter' type' selections) :=
  hc.revises.selectionSet he.revised ht (Selection.alike_self fun _ _ _ => rfl)

theorem enterWithin (hc : R.Contexts context context')
    (hkey : ∀ {type type'}, R.types type type' →
      type.map TypeName.key = type'.map TypeName.key)
    (hendless : ∀ {type type'} name, R.types type type' →
      R.rel Eq (Compile.stop (.endlessExpansion name type) : Compile ProjectionMap)
        (Compile.stop (.endlessExpansion name type')))
    (depth : Nat) (active : List (String × Option Key)) :
    R.Enters (Expansion.enterWithin context depth active)
      (Expansion.enterWithin context' depth active) :=
  fun name fragment type type' hdefined ht =>
    hc.revises.enterWithin hkey hendless depth active name fragment fragment type type'
      ⟨rfl, hdefined⟩ ht

namespace Compilations

variable (h : R.Compilations context context')

include h

theorem compileSelections (selections : Option (List Selection)) :
    R.rel Eq (QueryProjection.compileSelections context selections)
      (QueryProjection.compileSelections context' selections) :=
  h.toContexts.revises.compileSelections h.toStarts (Selection.alike_self fun _ _ _ => rfl)

theorem compileFields (nodes : List Field) :
    R.rel Eq (QueryProjection.compileFields context nodes)
      (QueryProjection.compileFields context' nodes) :=
  compileFields_of_compileSelections h.compileSelections nodes

end Compilations

end Correspondence

end Expansion

end QueryProjection
