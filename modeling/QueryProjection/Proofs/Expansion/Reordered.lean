import QueryProjection.Proofs.Command.Lossless
import QueryProjection.Proofs.Expansion.Depth
import QueryProjection.Proofs.Expansion.Inlining

/-!
# The order of definitions

A document is a list of definitions, but what it says does not depend on their order, as long as no
name is given twice to a fragment or an operation.  Nor does it depend on definitions that are out
of reach: fragments of names that are spread nowhere in the document and, where an operation is
chosen by name, operations of other names.  The same operation is found, and its root fields are
compiled to the same outcome from every memory (`compileFields_reordered`).

Two things have to be shown of a compilation.  It looks at fragments only that are mentioned in
what it walks (`writeAll_sharing`).  And a table that is longer allows for more depth, which
changes nothing (`compileEntering_deeper`).
-/

namespace QueryProjection

namespace Expansion

/-! ### Fragments that are out of reach -/

/-- Two contexts that say the same of all fragments of some names.  These mention each other only,
and the second table is no shorter than the first. -/
structure Sharing (reached : String → Prop) (context context' : Context) : Prop where
  options : context'.options = context.options
  bindings : context'.bindings = context.bindings
  definitions : ∀ name, reached name → context'.definition? name = context.definition? name
  closed : ∀ name fragment, reached name → context.definition? name = some fragment →
    ∀ next, Mentions fragment.selections next → reached next
  length : (context.fragments.getD []).length ≤ (context'.fragments.getD []).length

section Contexts

variable {reached : String → Prop} {context context' : Context} {enter enter' : Enter}
  (h : Sharing reached context context')

include h

theorem filterAt_sharing (type : Option TypeName) :
    context'.filterAt type = context.filterAt type := by
  simp only [Context.filterAt, h.options]

theorem typeBelow_sharing (type : Option TypeName) (name : String) (kind : FieldKind) :
    context'.typeBelow type name kind = context.typeBelow type name kind := by
  simp only [Context.typeBelow, h.options]

theorem typeWithin_sharing (type : Option TypeName) (condition : Option String) :
    context'.typeWithin type condition = context.typeWithin type condition := by
  simp only [Context.typeWithin, h.options]

theorem forwarded_sharing (given : List Argument) :
    context'.forwarded given = context.forwarded given := by
  simp only [Context.forwarded, h.options, h.bindings]

/-- Selections that mention only such fragments are walked alike. -/
theorem writeAll_sharing
    (henter : ∀ name fragment, reached name → context.definition? name = some fragment →
      enter' name fragment = enter name fragment) (selections : List Selection) :
    (∀ name, Mentions selections name → reached name) → ∀ type filter before,
      writeAll context' enter' type filter before selections =
        writeAll context enter type filter before selections := by
  induction selections using Selection.listInduction with
  | nil =>
      intro _ type filter before
      rw [writeAll_nil, writeAll_nil]
  | cons selection rest ihNested ih =>
      intro hmentions type filter before
      have hrest := ih fun name hname => hmentions name (.later hname)
      have hnested := ihNested fun name hname => hmentions name (.nested hname)
      have hset : ∀ type, selectionSet context' enter' type selection.nested =
          selectionSet context enter type selection.nested := by
        intro type
        rw [selectionSet, selectionSet, filterAt_sharing h]
        exact bind_congr fun filter => hnested type filter []
      rw [writeAll_cons, writeAll_cons]
      have hone : writeOne context' enter' type filter before selection =
          writeOne context enter type filter before selection := by
        cases selection with
        | field aliasName name given directives selections =>
            cases hkind : filter.classify name with
            | none => rw [writeOne_dropped before hkind, writeOne_dropped before hkind]
            | some kind =>
                cases selections with
                | none => rw [writeOne_leaf before hkind, writeOne_leaf before hkind]
                | some selections =>
                    rw [writeOne_branch before hkind, writeOne_branch before hkind,
                      typeBelow_sharing h, forwarded_sharing h]
                    refine bind_congr fun below => ?_
                    have hbelow : selectionSet context' enter' below selections =
                        selectionSet context enter below selections := hset below
                    rw [hbelow]
        | spread name directives =>
            have hname : reached name := hmentions name (mentions_spread name directives rest)
            rw [writeOne_spread, writeOne_spread]
            cases hdefined : context.definition? name with
            | none =>
                have hdefined' := (h.definitions name hname).trans hdefined
                rw [Context.fragment?_of_undefined hdefined,
                  Context.fragment?_of_undefined hdefined', h.options]
                cases context.options.strict <;> rfl
            | some fragment =>
                have hdefined' := (h.definitions name hname).trans hdefined
                rw [Context.fragment?_of_defined hdefined,
                  Context.fragment?_of_defined hdefined', pure_bind,
                  pure_bind]
                simp only [typeWithin_sharing h, henter name fragment hname hdefined]
        | inline condition directives selections =>
            rw [writeOne_inline, writeOne_inline, typeWithin_sharing h]
            refine bind_congr fun within => ?_
            have hwithin : selectionSet context' enter' within selections =
                selectionSet context enter within selections := hset within
            rw [hwithin]
        | other name => rw [writeOne_other, writeOne_other]
      rw [hone]
      exact bind_congr fun written => hrest type filter written

theorem selectionSet_sharing
    (henter : ∀ name fragment, reached name → context.definition? name = some fragment →
      enter' name fragment = enter name fragment) {selections : List Selection}
    (hmentions : ∀ name, Mentions selections name → reached name) (type : Option TypeName) :
    selectionSet context' enter' type selections = selectionSet context enter type selections := by
  rw [selectionSet, selectionSet, filterAt_sharing h]
  exact bind_congr fun filter => writeAll_sharing h henter selections hmentions type filter []

theorem enterWithin_sharing (depth : Nat) (active : List Entry) (name : String)
    (fragment : Fragment) (hname : reached name)
    (hdefined : context.definition? name = some fragment) :
    enterWithin context' depth active name fragment =
      enterWithin context depth active name fragment := by
  induction depth generalizing active name fragment with
  | zero => rfl
  | succ depth ih =>
      funext type
      rw [enterWithin_succ, enterWithin_succ]
      split
      · rfl
      · exact selectionSet_sharing h (ih _) (h.closed name fragment hname hdefined) type

theorem budget_le_of_sharing (memory : Memory) :
    budget context memory ≤ budget context' memory := by
  simp only [budget, h.options]
  exact Nat.succ_le_succ (Nat.mul_le_mul_right _ h.length)

theorem compileSelections_sharing {selections : Option (List Selection)}
    (hmentions : ∀ name, Mentions (selections.getD []) name → reached name) :
    compileSelections context' selections = compileSelections context selections := by
  have hcheckRoot : context'.checkRoot = context.checkRoot := by
    simp only [Context.checkRoot, h.options]
  have hroot : context'.root = context.root := by
    simp only [Context.root, h.options]
  -- the second table may allow for more depth than the first
  refine Eq.trans ?_ (compileEntering_deeper
    (fun memory => budget context' memory - budget context memory) selections)
  unfold compileSelections compileEntering
  rw [hcheckRoot, hroot]
  refine bind_congr fun _ => bind_congr fun memory => ?_
  simp only [Nat.add_sub_cancel' (budget_le_of_sharing h memory)]
  exact selectionSet_sharing h (enterWithin_sharing h _ []) hmentions context.root

theorem compileFields_sharing {nodes : List Field}
    (hmentions : ∀ node ∈ nodes, ∀ name, Mentions (node.selectionSet.getD []) name →
      reached name) :
    compileFields context' nodes = compileFields context nodes := by
  have hover : ∀ before, compileOver context' before nodes = compileOver context before nodes := by
    induction nodes with
    | nil => exact fun _ => rfl
    | cons node nodes ih =>
        intro before
        rw [compileOver, compileOver,
          compileSelections_sharing h (hmentions node (List.mem_cons_self ..))]
        exact bind_congr fun written =>
          ih (fun other hother => hmentions other (List.mem_cons_of_mem _ hother)) _
  rw [compileFields, compileFields, hover]

end Contexts

end Expansion

/-! ### What is found in a list in any order -/

section Finding

variable {α : Type u} {β : Type v} [DecidableEq β] {key : α → Option β} {found : α → Bool}
  {items items' added : List α} {wanted : β}

/-- Where no key is used twice, and what is found has a certain key, there is one thing to find. -/
theorem length_filter_le_one (hnodup : (items.filterMap key).Nodup)
    (hfound : ∀ item, found item = true → key item = some wanted) :
    (items.filter found).length ≤ 1 := by
  rw [← List.countP_eq_length_filter]
  calc items.countP found
      ≤ items.countP (fun item => ((key item).map (· == wanted)).getD false) :=
        List.countP_mono_left fun item _ hitem => by simp [hfound item hitem]
    _ = (items.filterMap key).count wanted := List.countP_filterMap.symm
    _ ≤ 1 := List.nodup_iff_count_le_one.mp hnodup wanted

/-- The same is found in another order, and with more things that are not to be found. -/
theorem filter_eq_of_perm (hperm : items'.Perm (items ++ added))
    (hnodup : (items.filterMap key).Nodup)
    (hfound : ∀ item, found item = true → key item = some wanted)
    (hadded : ∀ item ∈ added, found item = false) :
    items'.filter found = items.filter found := by
  have hnone : added.filter found = [] :=
    List.filter_eq_nil_iff.mpr fun item hitem => by simp [hadded item hitem]
  have hfiltered := hperm.filter found
  rw [List.filter_append, hnone, List.append_nil] at hfiltered
  have hlength := length_filter_le_one hnodup hfound
  generalize items'.filter found = left at hfiltered
  generalize items.filter found = right at hfiltered hlength
  match right, hlength with
  | [], _ => exact hfiltered.eq_nil
  | [item], _ => exact List.perm_singleton.mp hfiltered

end Finding

/-! ### Documents that say the same -/

def Definition.entry? : Definition → Option (String × Fragment)
  | .fragment defined => some (defined.name, defined)
  | .operation _ | .typeSystem _ _ | .typeExtension _ => none

def Definition.operation? : Definition → Option Operation
  | .operation defined => some defined
  | .fragment _ | .typeSystem _ _ | .typeExtension _ => none

namespace Document

structure Distinct (document : Document) : Prop where
  fragments : ((document.definitions.filterMap Definition.entry?).map Prod.fst).Nodup
  operations : (document.operations.filterMap Operation.name).Nodup

def Mentions (document : Document) (name : String) : Prop :=
  ∃ definition ∈ document.definitions, Expansion.Mentions definition.selections name

/-- A definition that is out of reach in a document: a fragment that is spread nowhere in it or,
where an operation is wanted by name, an operation that goes by another name or by none. -/
inductive Aside (document : Document) (wanted : Option String) : Definition → Prop where
  | fragment {fragment : Fragment} (h : ¬ document.Mentions fragment.name) :
      Aside document wanted (.fragment fragment)
  | operation {operation : Operation} {name : String} (hwanted : wanted = some name)
      (h : operation.name ≠ some name) : Aside document wanted (.operation operation)
  | typeSystem (description : Option Description) (body : TypeSystem) :
      Aside document wanted (.typeSystem description body)
  | typeExtension (body : TypeSystem) : Aside document wanted (.typeExtension body)

/-- The second document has the definitions of the first in some order, and others that are out of
reach. -/
structure Reordered (wanted : Option String) (document document' : Document) : Prop where
  distinct : document.Distinct
  definitions : ∃ added, document'.definitions.Perm (document.definitions ++ added) ∧
    ∀ definition ∈ added, document.Aside wanted definition

variable {document document' : Document} {wanted : Option String}

theorem fragments_eq (document : Document) :
    document.fragments = OrderedMap.ofList (document.definitions.filterMap Definition.entry?) := by
  rw [fragments]
  congr 2
  funext definition
  cases definition <;> rfl

theorem operations_eq (document : Document) :
    document.operations = document.definitions.filterMap Definition.operation? := by
  rw [operations]
  congr 1
  funext definition
  cases definition <;> rfl

namespace Reordered

variable (h : Reordered wanted document document')

include h

/-- Fragments that are mentioned are defined as they were. -/
theorem get?_fragments {name : String} (hname : document.Mentions name) :
    OrderedMap.get? document'.fragments name = OrderedMap.get? document.fragments name := by
  obtain ⟨added, hperm, haside⟩ := h.definitions
  rw [fragments_eq, fragments_eq, OrderedMap.get?_ofList, OrderedMap.get?_ofList]
  have hentries := hperm.filterMap Definition.entry?
  rw [List.filterMap_append] at hentries
  have hkeys : ((document.definitions.filterMap Definition.entry?).filterMap
      fun entry => some entry.1).Nodup := by
    rw [List.filterMap_eq_map']
    exact h.distinct.fragments
  rw [filter_eq_of_perm hentries hkeys (fun entry hentry => congrArg some (of_decide_eq_true hentry))]
  intro entry hentry
  obtain ⟨definition, hdefinition, hsome⟩ := List.mem_filterMap.mp hentry
  refine decide_eq_false fun hsame => ?_
  cases haside definition hdefinition with
  | fragment hnot =>
      cases hsome
      cases hsame
      exact hnot hname
  | operation | typeSystem | typeExtension => cases hsome

theorem length_fragments : document.fragments.length ≤ document'.fragments.length := by
  obtain ⟨added, hperm, -⟩ := h.definitions
  have hsubset : OrderedMap.keys document.fragments ⊆ OrderedMap.keys document'.fragments := by
    intro name hname
    rw [fragments_eq, OrderedMap.mem_keys_ofList] at hname ⊢
    have hentries := hperm.filterMap Definition.entry?
    rw [List.filterMap_append] at hentries
    rw [(hentries.map Prod.fst).mem_iff, List.map_append]
    exact List.mem_append_left _ hname
  have hnodup : (OrderedMap.keys document.fragments).Nodup := OrderedMap.nodup_keys_ofList _
  have hlength := (List.subperm_of_subset hnodup hsubset).length_le
  rw [OrderedMap.keys, OrderedMap.keys, List.length_map, List.length_map] at hlength
  exact hlength

/-- The same operation is found, or the same fault. -/
theorem operation : document'.operation wanted = document.operation wanted := by
  obtain ⟨added, hperm, haside⟩ := h.definitions
  have hoperations : document'.operations.Perm
      (document.operations ++ added.filterMap Definition.operation?) := by
    rw [operations_eq, operations_eq, ← List.filterMap_append]
    exact hperm.filterMap _
  have hadded : ∀ operation ∈ added.filterMap Definition.operation?,
      ∃ name, wanted = some name ∧ operation.name ≠ some name := by
    intro operation hoperation
    obtain ⟨definition, hdefinition, hsome⟩ := List.mem_filterMap.mp hoperation
    cases haside definition hdefinition with
    | operation hwanted hnot =>
        cases hsome
        exact ⟨_, hwanted, hnot⟩
    | fragment | typeSystem | typeExtension => cases hsome
  cases wanted with
  | none =>
      have hnone : added.filterMap Definition.operation? = [] := by
        refine List.eq_nil_iff_forall_not_mem.mpr fun operation hoperation => ?_
        obtain ⟨_, hwanted, -⟩ := hadded operation hoperation
        cases hwanted
      rw [hnone, List.append_nil] at hoperations
      unfold Document.operation
      simp only
      generalize document'.operations = found at hoperations
      generalize document.operations = operations at hoperations
      match operations with
      | [] => rw [hoperations.eq_nil]
      | [only] => rw [List.perm_singleton.mp hoperations]
      | first :: second :: rest =>
          have hlength := hoperations.length_eq
          match found, hlength with
          | _ :: _ :: _, hlength => simp only [hlength]
  | some name =>
      have hnamed : ∀ operation : Operation, (operation.name == some name) = true →
          operation.name = some name := fun operation => beq_iff_eq.mp
      have hfound := filter_eq_of_perm hoperations h.distinct.operations hnamed
        fun operation hmem => by
          obtain ⟨_, hwanted, hnot⟩ := hadded operation hmem
          cases hwanted
          exact beq_eq_false_iff_ne.mpr hnot
      unfold Document.operation
      simp only
      rw [← List.head?_filter, ← List.head?_filter, hfound]

/-- Contexts with the fragments of the two documents say the same of all that is mentioned. -/
theorem sharing (bindings : Option Bindings) (options : Options) :
    Expansion.Sharing document.Mentions { fragments := some document.fragments, bindings, options }
      { fragments := some document'.fragments, bindings, options } where
  options := rfl
  bindings := rfl
  definitions _ hname := h.get?_fragments hname
  closed _ fragment _ hdefined _ hnext := ⟨.fragment fragment, fragment_of_fragments hdefined, hnext⟩
  length := h.length_fragments

end Reordered

/-- What a root field mentions is mentioned in the document. -/
theorem mentions_of_rootField {operation : Operation}
    (hoperation : document.operation wanted = .ok operation) {node : Field}
    (hnode : node ∈ operation.rootFields) {name : String}
    (hname : Expansion.Mentions (node.selectionSet.getD []) name) : document.Mentions name := by
  refine ⟨.operation operation, Command.operation_of_operation hoperation, ?_⟩
  show Expansion.Mentions operation.selections name
  have hsome : ∃ selection ∈ operation.selections, selection.field? = some node :=
    List.mem_filterMap.mp hnode
  generalize operation.selections = selections at hsome
  obtain ⟨selection, hselection, hfield⟩ := hsome
  have hnested : Expansion.Mentions selection.nested name := by
    cases selection with
    | field aliasName field given directives below =>
        cases hfield
        cases below with
        | none => exact hname
        | some below => exact hname
    | spread _ _ | inline _ _ _ | other _ => cases hfield
  induction hselection with
  | head => exact .nested hnested
  | tail _ _ ih => exact .later ih

/-- The order of definitions does not matter, nor do definitions that are out of reach.  The same
operation is found, or the same fault, and its root fields are compiled to the same outcome:
projection or fault, notices and what is remembered, whatever was remembered before. -/
theorem compileFields_reordered (h : Reordered wanted document document') :
    document'.operation wanted = document.operation wanted ∧
      ∀ operation, document.operation wanted = .ok operation →
        ∀ nodes : List Field, (∀ node ∈ nodes, node ∈ operation.rootFields) →
          ∀ (bindings : Option Bindings) (options : Options),
            compileFields { fragments := some document'.fragments, bindings, options } nodes =
              compileFields { fragments := some document.fragments, bindings, options } nodes := by
  refine ⟨h.operation, fun operation hoperation nodes hnodes bindings options => ?_⟩
  refine Expansion.compileFields_sharing (h.sharing bindings options) fun node hnode name hname => ?_
  exact mentions_of_rootField hoperation (hnodes node hnode) hname

def selectingPerson (name : String) (selections : List Selection) : Definition :=
  .operation
    { description := none, kind := .query, name := some name, variableDefinitions := []
      directives := [], selections := [Expansion.plainField "person" (some selections)] }

def onPerson (name : String) (selections : List Selection) : Definition :=
  .fragment { description := none, name, condition := "Person", directives := [], selections }

/-- A person and a friend, of whom one fragment says more than is defined. -/
def friendly : Document where
  definitions :=
    [selectingPerson "Friends" [.spread "Named" [],
        Expansion.plainField "friend" (some [.spread "Known" [], .spread "Named" []])],
      onPerson "Named" [Expansion.plainField "name" none, .spread "Missing" []],
      onPerson "Known" [Expansion.plainField "id" none]]

/-- The other way round, with a fragment that is spread nowhere and another operation. -/
def friendlyBackwards : Document where
  definitions :=
    (friendly.definitions ++
      [onPerson "Unused" [.spread "Named" []], selectingPerson "Posts" [.spread "Unused" []]]).reverse

theorem reordered_friendly : Reordered (some "Friends") friendly friendlyBackwards where
  distinct := ⟨by decide, by decide⟩
  definitions := by
    refine ⟨_, List.reverse_perm _, fun definition hdefinition => ?_⟩
    rcases List.mem_cons.mp hdefinition with rfl | hother
    · refine .fragment ?_
      simp [Mentions, friendly, selectingPerson, onPerson, Definition.selections,
        Expansion.plainField, Expansion.mentions_cons, Selection.nested]
    · rw [List.mem_singleton.mp hother]
      exact .operation rfl (by decide)

/-- The root field of the operation is compiled as before. -/
theorem friendly_reordered :
    Reordered (some "Friends") friendly friendlyBackwards ∧
      ∃ operation, friendlyBackwards.operation (some "Friends") = .ok operation ∧
        (compileFields
            { fragments := some friendlyBackwards.fragments, bindings := none
              options := (Expansion.aboutPeople []).options }
            operation.rootFields Memory.empty).logged =
          { result := .ok (ProjectionParts.ofSelect
              [("name", .leaf), ("friend", .relation [("id", .leaf), ("name", .leaf)] [])])
            notices := [.fragmentUndefined "Missing", .fragmentUndefined "Missing"] } := by
  obtain ⟨hoperation, hcompiled⟩ := compileFields_reordered reordered_friendly
  refine ⟨reordered_friendly, _, hoperation.trans rfl, ?_⟩
  rw [hcompiled _ rfl _ (fun _ hnode => hnode)]
  rfl

end Document

end QueryProjection
