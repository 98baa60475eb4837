import Mathlib.Data.Finset.Card
import QueryProjection.Proofs.Expansion.Reentry

/-!
# Inlining fragments

A spread stands for the selections of a fragment, so it may be replaced by an inline fragment that
has the type condition and the selections of the one that is spread, with the spreads in them
replaced in the same way.  If no fragment leads back to itself this comes to an end, and what it
leaves is compiled without any fragments to the same outcome: the same projection in the same
order or the same fault, with the same notices, and with the same things remembered
(`compileFields_inlined`).  Nothing is asked of the source for this.  The two walks put the same
questions at the same moments, so it may answer as it likes.

The walk of a spread is guarded, and that of an inline fragment is not.  That the guard lets every
spread pass takes the same argument as that inlining ends: a fragment has fewer names below it than
one that spreads it (`exists_rank`), so what is being expanded has a higher rank than all that
remains to be expanded.
-/

namespace QueryProjection

namespace Expansion

variable {context : Context}

/-- The second selections are the first, with every spread replaced at any depth. -/
inductive Inlined (context : Context) : List Selection → List Selection → Prop where
  | nil : Inlined context [] []
  | leaf {aliasName : Option String} {name : String} {arguments : List Argument}
      {directives : List Directive} {rest rest' : List Selection} (hrest : Inlined context rest rest') :
      Inlined context (.field aliasName name arguments directives none :: rest)
        (.field aliasName name arguments directives none :: rest')
  | field {aliasName : Option String} {name : String} {arguments : List Argument}
      {directives : List Directive} {selections selections' rest rest' : List Selection}
      (hinside : Inlined context selections selections') (hrest : Inlined context rest rest') :
      Inlined context (.field aliasName name arguments directives (some selections) :: rest)
        (.field aliasName name arguments directives (some selections') :: rest')
  | inline {condition : Option String} {directives : List Directive}
      {selections selections' rest rest' : List Selection}
      (hinside : Inlined context selections selections') (hrest : Inlined context rest rest') :
      Inlined context (.inline condition directives selections :: rest)
        (.inline condition directives selections' :: rest')
  | spread {name : String} {fragment : Fragment} {directives directives' : List Directive}
      {inside rest rest' : List Selection} (hdefined : context.definition? name = some fragment)
      (hinside : Inlined context fragment.selections inside) (hrest : Inlined context rest rest') :
      Inlined context (.spread name directives :: rest)
        (.inline (some fragment.condition) directives' inside :: rest')
  | other {name : String} {rest rest' : List Selection} (hrest : Inlined context rest rest') :
      Inlined context (.other name :: rest) (.other name :: rest')

def InlinedNode (context : Context) (node inlined : Field) : Prop :=
  ∃ selections, Option.Rel (Inlined context) node.selectionSet selections ∧
    inlined = { node with selectionSet := selections }

theorem Inlined.of_rel {selections inlined : Option (List Selection)}
    (h : Option.Rel (Inlined context) selections inlined) :
    Inlined context (selections.getD []) (inlined.getD []) := by
  rcases h with h | _
  · exact h
  · exact .nil

/-! ### Mentions -/

@[simp] theorem not_mentions_nil (name : String) : ¬ Mentions [] name := by
  intro h
  cases h

theorem mentions_cons {selection : Selection} {rest : List Selection} {name : String} :
    Mentions (selection :: rest) name ↔
      (∃ directives, selection = .spread name directives) ∨ Mentions selection.nested name ∨
        Mentions rest name := by
  constructor
  · rintro (h | h | h)
    · exact Or.inl h
    · exact Or.inr (Or.inl h)
    · exact Or.inr (Or.inr h)
  · rintro (h | h | h)
    · exact .here h
    · exact .nested h
    · exact .later h

theorem mentions_spread (name : String) (directives : List Directive) (rest : List Selection) :
    Mentions (.spread name directives :: rest) name :=
  mentions_cons.mpr (Or.inl ⟨directives, rfl⟩)

/-- No spread is left. -/
theorem Inlined.not_mentions {selections inlined : List Selection}
    (h : Inlined context selections inlined) (name : String) : ¬ Mentions inlined name := by
  induction h with
  | nil => exact not_mentions_nil name
  | leaf _ ih | other _ ih => simpa [mentions_cons, Selection.nested] using ih
  | field _ _ ihInside ih | inline _ _ ihInside ih | spread _ _ _ ihInside ih =>
      simpa [mentions_cons, Selection.nested] using ⟨ihInside, ih⟩

theorem not_mentions_of_inlinedNodes {nodes inlined : List Field}
    (h : List.Forall₂ (InlinedNode context) nodes inlined) :
    ∀ node ∈ inlined, ∀ name, ¬ Mentions (node.selectionSet.getD []) name := by
  induction h with
  | nil =>
      intro node hnode
      cases hnode
  | @cons _ _ _ _ hfirst _ ih =>
      intro node hnode name
      rcases List.mem_cons.mp hnode with rfl | hrest
      · obtain ⟨selections, hselections, rfl⟩ := hfirst
        exact (Inlined.of_rel hselections).not_mentions name
      · exact ih node hrest name

/-! ### Ranks -/

/-- If no fragment leads back to itself, fragments can be ranked so that each ranks above those
that it spreads, with no more ranks than there are fragments. -/
theorem exists_rank (hacyclic : ∀ name, ¬ Relation.TransGen (Spreads context) name name)
    (hspreads : ∀ name next, Spreads context name next →
      ∃ fragment, context.definition? next = some fragment) :
    ∃ rank : String → Nat,
      (∀ name, rank name ≤ (context.fragments.getD []).length) ∧
        ∀ name next, Spreads context name next → rank next < rank name := by
  classical
  let names := (OrderedMap.keys (context.fragments.getD [])).toFinset
  let below := fun name => names.filter fun next => Relation.TransGen (Spreads context) name next
  refine ⟨fun name => (below name).card, fun name => ?_, fun name next hnext => ?_⟩
  · calc (below name).card ≤ names.card := Finset.card_filter_le ..
      _ ≤ (OrderedMap.keys (context.fragments.getD [])).length := List.toFinset_card_le _
      _ = (context.fragments.getD []).length := by rw [OrderedMap.keys, List.length_map]
  · -- the fragment that is spread is below the other, and not below itself
    apply Finset.card_lt_card
    constructor
    · intro other hother
      simp only [below, Finset.mem_filter] at hother ⊢
      exact ⟨hother.1, .head hnext hother.2⟩
    · intro hsubset
      obtain ⟨fragment, hdefined⟩ := hspreads name next hnext
      have hmem : next ∈ below name := by
        simp only [below, names, Finset.mem_filter, List.mem_toFinset]
        exact ⟨mem_keys_of_definition? hdefined, .single hnext⟩
      exact hacyclic next (Finset.mem_filter.mp (hsubset hmem)).2

section Ranked

variable {rank : String → Nat}
  (hrank : ∀ name next, Spreads context name next → rank next < rank name)

include hrank

/-- Inlining comes to an end. -/
theorem exists_inlined (hspreads : ∀ name next, Spreads context name next →
      ∃ fragment, context.definition? next = some fragment) (bound : Nat) :
    ∀ selections, (∀ name, Mentions selections name →
        rank name < bound ∧ ∃ fragment, context.definition? name = some fragment) →
      ∃ inlined, Inlined context selections inlined := by
  induction bound using Nat.strong_induction_on with
  | _ bound ihBound =>
      intro selections
      induction selections using Selection.listInduction with
      | nil => exact fun _ => ⟨[], .nil⟩
      | cons selection rest ihNested ih =>
          intro h
          obtain ⟨rest', hrest⟩ := ih fun name hname => h name (.later hname)
          obtain ⟨inside, hinside⟩ := ihNested fun name hname => h name (.nested hname)
          cases selection with
          | field aliasName name arguments directives selections =>
              cases selections with
              | none => exact ⟨_, .leaf hrest⟩
              | some selections => exact ⟨_, .field hinside hrest⟩
          | spread name directives =>
              obtain ⟨hlt, fragment, hdefined⟩ := h name (mentions_spread name directives rest)
              -- what the fragment spreads ranks below it
              obtain ⟨body, hbody⟩ := ihBound (rank name) hlt fragment.selections
                fun next hnext => ⟨hrank name next ⟨fragment, hdefined, hnext⟩,
                  hspreads name next ⟨fragment, hdefined, hnext⟩⟩
              exact ⟨.inline (some fragment.condition) directives body :: rest',
                .spread hdefined hbody hrest⟩
          | inline condition directives selections => exact ⟨_, .inline hinside hrest⟩
          | other name => exact ⟨_, .other hrest⟩

omit hrank

/-- All that the selections spread ranks below the depth, and below all that is being expanded. -/
structure Outranked (rank : String → Nat) (depth : Nat) (active : List Entry)
    (selections : List Selection) : Prop where
  depth : ∀ name, Mentions selections name → rank name < depth
  active : ∀ name, Mentions selections name → ∀ entry ∈ active, rank name < rank entry.1

namespace Outranked

variable {depth : Nat} {active : List Entry} {selection : Selection} {rest : List Selection}

theorem nested (h : Outranked rank depth active (selection :: rest)) :
    Outranked rank depth active selection.nested :=
  ⟨fun name hname => h.depth name (.nested hname), fun name hname => h.active name hname.nested⟩

theorem later (h : Outranked rank depth active (selection :: rest)) :
    Outranked rank depth active rest :=
  ⟨fun name hname => h.depth name (.later hname), fun name hname => h.active name hname.later⟩

theorem not_active {name : String} {directives : List Directive} {key : Option Key}
    (h : Outranked rank depth active (.spread name directives :: rest)) :
    (name, key) ∉ active := by
  intro hactive
  exact Nat.lt_irrefl _ (h.active name (mentions_spread name directives rest) _ hactive)

include hrank

/-- The fragment that is spread is expanded one level deeper, and then is active itself. -/
theorem entered {name : String} {directives : List Directive} {fragment : Fragment}
    (hdefined : context.definition? name = some fragment)
    (h : Outranked rank (depth + 1) active (.spread name directives :: rest)) (key : Option Key) :
    Outranked rank depth ((name, key) :: active) fragment.selections := by
  have hname : Mentions (.spread name directives :: rest) name :=
    mentions_spread name directives rest
  refine ⟨fun next hnext => ?_, fun next hnext entry hentry => ?_⟩
  · have hbelow := hrank name next ⟨fragment, hdefined, hnext⟩
    have hdepth := h.depth name hname
    omega
  · have hbelow := hrank name next ⟨fragment, hdefined, hnext⟩
    rcases List.mem_cons.mp hentry with rfl | hactive
    · exact hbelow
    · exact Nat.lt_trans hbelow (h.active name hname entry hactive)

end Outranked

/-! ### Compiling what is left -/

include hrank

/-- The guarded walk of selections is the walk of what inlining leaves of them, without any
fragments and however these would be entered. -/
theorem writeAll_inlined {enter : Enter} {selections inlined : List Selection}
    (h : Inlined context selections inlined) :
    ∀ {depth active}, Outranked rank depth active selections → ∀ type filter before,
      writeAll context (enterWithin context depth active) type filter before selections =
        writeAll { context with fragments := none } enter type filter before inlined := by
  induction h with
  | nil =>
      intro depth active _ type filter before
      rw [writeAll_nil, writeAll_nil]
  | @leaf aliasName name arguments directives rest rest' _ ih =>
      intro depth active h type filter before
      rw [writeAll_cons, writeAll_cons]
      cases hkind : filter.classify name with
      | none =>
          rw [writeOne_dropped before hkind, writeOne_dropped before hkind]
          exact bind_congr fun written => ih h.later type filter written
      | some kind =>
          rw [writeOne_leaf before hkind, writeOne_leaf before hkind]
          exact bind_congr fun written => ih h.later type filter written
  | @field aliasName name arguments directives selections selections' rest rest' _ _ ihInside ih =>
      intro depth active h type filter before
      rw [writeAll_cons, writeAll_cons]
      cases hkind : filter.classify name with
      | none =>
          rw [writeOne_dropped before hkind, writeOne_dropped before hkind]
          exact bind_congr fun written => ih h.later type filter written
      | some kind =>
          rw [writeOne_branch before hkind, writeOne_branch before hkind]
          have hinside : ∀ below,
              selectionSet context (enterWithin context depth active) below selections =
                selectionSet { context with fragments := none } enter below selections' :=
            fun below => bind_congr fun inner => ihInside h.nested below inner []
          simp only [hinside]
          exact bind_congr fun written => ih h.later type filter written
  | @inline condition directives selections selections' rest rest' _ _ ihInside ih =>
      intro depth active h type filter before
      rw [writeAll_cons, writeAll_cons, writeOne_inline, writeOne_inline]
      have hinside : ∀ within,
          selectionSet context (enterWithin context depth active) within selections =
            selectionSet { context with fragments := none } enter within selections' :=
        fun within => bind_congr fun inner => ihInside h.nested within inner []
      simp only [hinside]
      exact bind_congr fun written => ih h.later type filter written
  | @spread name fragment directives directives' inside rest rest' hdefined _ _ ihInside ih =>
      intro depth active h type filter before
      rw [writeAll_cons, writeAll_cons, writeOne_spread, writeOne_inline,
        Context.fragment?_of_defined hdefined, pure_bind]
      have hinside : ∀ within, enterWithin context depth active name fragment within =
          selectionSet { context with fragments := none } enter within inside := by
        intro within
        have hdepth := h.depth name (mentions_spread name directives rest)
        obtain ⟨depth, rfl⟩ : ∃ less, depth = less + 1 := ⟨depth - 1, by omega⟩
        rw [enterWithin_succ, if_neg (by simpa using h.not_active)]
        exact bind_congr fun inner => ihInside (h.entered hrank hdefined _) within inner []
      simp only [hinside]
      exact bind_congr fun written => ih h.later type filter written
  | @other name rest rest' _ ih =>
      intro depth active h type filter before
      rw [writeAll_cons, writeAll_cons, writeOne_other, writeOne_other]
      exact bind_congr fun written => ih h.later type filter written

end Ranked

theorem length_lt_budget (context : Context) (memory : Memory) :
    (context.fragments.getD []).length < budget context memory := by
  unfold budget
  cases context.options.target with
  | none => simp
  | some target =>
      exact Nat.lt_succ_of_le (Nat.le_mul_of_pos_right _ (Nat.succ_pos _))

section Acyclic

variable (hacyclic : ∀ name, ¬ Relation.TransGen (Spreads context) name name)
  (hspreads : ∀ name next, Spreads context name next →
    ∃ fragment, context.definition? next = some fragment)

include hacyclic hspreads

theorem compileSelections_inlined {selections inlined : Option (List Selection)}
    (h : Option.Rel (Inlined context) selections inlined) :
    compileSelections context selections =
      compileSelections { context with fragments := none } inlined := by
  obtain ⟨rank, hbound, hrank⟩ := exists_rank hacyclic hspreads
  refine bind_congr fun _ => bind_congr fun memory => bind_congr fun filter => ?_
  refine writeAll_inlined hrank (.of_rel h) ⟨fun name _ => ?_, fun name _ entry hentry => ?_⟩ _ _ []
  · exact Nat.lt_of_le_of_lt (hbound name) (length_lt_budget context memory)
  · cases hentry

theorem exists_inlinedNode (node : Field)
    (hdefined : ∀ name, Mentions (node.selectionSet.getD []) name →
      ∃ fragment, context.definition? name = some fragment) :
    ∃ inlined, InlinedNode context node inlined := by
  obtain ⟨rank, hbound, hrank⟩ := exists_rank hacyclic hspreads
  have hselections : ∃ selections, Option.Rel (Inlined context) node.selectionSet selections := by
    rcases hset : node.selectionSet with _ | selections
    · exact ⟨none, .none⟩
    · rw [hset] at hdefined
      obtain ⟨inlined, hinlined⟩ := exists_inlined hrank hspreads _ selections fun name hname =>
        ⟨Nat.lt_succ_of_le (hbound name), hdefined name hname⟩
      exact ⟨some inlined, .some hinlined⟩
  obtain ⟨selections, hselections⟩ := hselections
  exact ⟨_, selections, hselections, rfl⟩

theorem compileOver_inlined {nodes inlined : List Field}
    (h : List.Forall₂ (InlinedNode context) nodes inlined) (before : ProjectionMap) :
    compileOver context before nodes =
      compileOver { context with fragments := none } before inlined := by
  induction h generalizing before with
  | nil => rfl
  | cons hnode _ ih =>
      obtain ⟨selections, hselections, rfl⟩ := hnode
      simp only [compileOver, compileSelections_inlined hacyclic hspreads hselections, ih]

/-- Nodes can be inlined, and what is left of them spreads nothing and is compiled without any
fragments as they are with them. -/
theorem compileFields_inlined {nodes : List Field}
    (hdefined : ∀ node ∈ nodes, ∀ name, Mentions (node.selectionSet.getD []) name →
      ∃ fragment, context.definition? name = some fragment) :
    (∃ inlined, List.Forall₂ (InlinedNode context) nodes inlined) ∧
      ∀ inlined, List.Forall₂ (InlinedNode context) nodes inlined →
        (∀ node ∈ inlined, ∀ name, ¬ Mentions (node.selectionSet.getD []) name) ∧
          compileFields context nodes =
            compileFields { context with fragments := none } inlined := by
  constructor
  · induction nodes with
    | nil => exact ⟨[], .nil⟩
    | cons node rest ih =>
        obtain ⟨first, hfirst⟩ := exists_inlinedNode hacyclic hspreads node
          (hdefined node List.mem_cons_self)
        obtain ⟨others, hothers⟩ := ih fun other hother =>
          hdefined other (List.mem_cons_of_mem node hother)
        exact ⟨first :: others, .cons hfirst hothers⟩
  · intro inlined h
    refine ⟨not_mentions_of_inlinedNodes h, ?_⟩
    rw [compileFields, compileFields, compileOver_inlined hacyclic hspreads h]

end Acyclic

def cards : Context :=
  aboutPeople
    [("Card", "Person", [plainField "name" none, .spread "Works" []]),
     ("Works", "Person", [plainField "posts" (some [plainField "title" none])])]

/-- The card of the friend of a person, and the works of the person, with what is unknown. -/
def friendCard : Field where
  aliasName := none
  name := "person"
  arguments := []
  directives := []
  selectionSet := some
    [plainField "age" none, plainField "friend" (some [.spread "Card" []]), .spread "Works" []]

def friendCardInline : Field where
  aliasName := none
  name := "person"
  arguments := []
  directives := []
  selectionSet := some
    [plainField "age" none,
     plainField "friend" (some
       [.inline (some "Person") []
         [plainField "name" none,
          .inline (some "Person") [] [plainField "posts" (some [plainField "title" none])]]]),
     .inline (some "Person") [] [plainField "posts" (some [plainField "title" none])]]

theorem spreads_cards {name next : String} (h : Spreads cards name next) :
    name = "Card" ∧ next = "Works" := by
  obtain ⟨fragment, hdefined, hmentions⟩ := h
  have hentry : (name, fragment) ∈ cards.fragments.getD [] := OrderedMap.mem_of_get? hdefined
  simp only [cards, aboutPeople, List.map_cons, List.map_nil, Option.getD_some, List.mem_cons,
    Prod.mk.injEq, List.not_mem_nil, or_false] at hentry
  rcases hentry with ⟨rfl, rfl⟩ | ⟨rfl, rfl⟩
  · simp [mentions_cons, Selection.nested, plainField] at hmentions
    exact ⟨rfl, hmentions.symm⟩
  · simp [mentions_cons, Selection.nested, plainField] at hmentions

theorem inlined_friendCard : List.Forall₂ (InlinedNode cards) [friendCard] [friendCardInline] := by
  have hcard : cards.definition? "Card" = some
      { description := none, name := "Card", condition := "Person", directives := []
        selections := [plainField "name" none, .spread "Works" []] } := rfl
  have hworks : cards.definition? "Works" = some
      { description := none, name := "Works", condition := "Person", directives := []
        selections := [plainField "posts" (some [plainField "title" none])] } := rfl
  have hspread : Inlined cards [.spread "Works" []]
      [.inline (some "Person") [] [plainField "posts" (some [plainField "title" none])]] :=
    .spread hworks (.field (.leaf .nil) .nil) .nil
  exact .cons ⟨_, .some (.leaf (.field (.spread hcard (.leaf hspread) .nil) hspread)), rfl⟩ .nil

/-- Both are compiled to the same, which is not empty. -/
theorem compileFields_friendCardInline :
    (∀ name, ¬ Relation.TransGen (Spreads cards) name name) ∧
      (∀ name next, Spreads cards name next →
        ∃ fragment, cards.definition? next = some fragment) ∧
      (∀ node ∈ [friendCard], ∀ name, Mentions (node.selectionSet.getD []) name →
        ∃ fragment, cards.definition? name = some fragment) ∧
      List.Forall₂ (InlinedNode cards) [friendCard] [friendCardInline] ∧
      compileFields cards [friendCard] =
        compileFields { cards with fragments := none } [friendCardInline] ∧
      (compileFields cards [friendCard] .empty).result =
        .ok (.ofSelect
          [("friend", .relation
            [("name", .leaf), ("posts", .relation [("title", .leaf)] [])] []),
           ("posts", .relation [("title", .leaf)] [])]) := by
  have hacyclic : ∀ name, ¬ Relation.TransGen (Spreads cards) name name := by
    intro name hloop
    have hends : ∀ {next}, Relation.TransGen (Spreads cards) name next →
        name = "Card" ∧ next = "Works" := by
      intro next h
      induction h with
      | single h => exact spreads_cards h
      | tail _ h ih => exact ⟨ih.1, (spreads_cards h).2⟩
    have hname := hends hloop
    exact absurd (hname.1.symm.trans hname.2) (by decide)
  have hspreads : ∀ name next, Spreads cards name next →
      ∃ fragment, cards.definition? next = some fragment := by
    intro name next h
    rw [(spreads_cards h).2]
    exact ⟨_, rfl⟩
  have hdefined : ∀ node ∈ [friendCard], ∀ name, Mentions (node.selectionSet.getD []) name →
      ∃ fragment, cards.definition? name = some fragment := by
    intro node hnode name h
    rw [List.mem_singleton] at hnode
    subst hnode
    simp [friendCard, mentions_cons, Selection.nested, plainField] at h
    rcases h with rfl | rfl
    · exact ⟨_, rfl⟩
    · exact ⟨_, rfl⟩
  exact ⟨hacyclic, hspreads, hdefined, inlined_friendCard,
    ((compileFields_inlined hacyclic hspreads hdefined).2 _ inlined_friendCard).2, rfl⟩

end Expansion

end QueryProjection
