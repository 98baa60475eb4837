import QueryProjection.Proofs.Expansion.Revisions

/-!
# A variable in the place of a value

A value that is written in a query may as well be handed over in a variable.  Wherever the value
stands, in an argument of a field or within lists and objects there, and however often the fragment
around it is spread, the query with the variable compiles to the same projection, if the variable
has the value that the part converts to (`compileFields_replaced`).  A part that converts to
nothing, which strictness would not allow, is like a variable without a value.
-/

namespace QueryProjection

namespace Expansion

/-- Arguments of the same names, in whose values a part has been replaced by a variable. -/
def Replaces (part : Literal) (x : String) (_field : String)
    (given given' : List Argument) : Prop :=
  List.Forall₂ (fun argument argument' => argument'.1 = argument.1 ∧
    Literal.Replaced part (.variable x) argument.2 argument'.2) given given'

variable {context context' : Context} {nodes nodes' : List Field} {part : Literal} {x : String}

/-- The variable occurs in no argument of a field with a selection set. -/
def Fresh (context : Context) (nodes : List Field) (x : String) : Prop :=
  ∀ name given, context.HasBranch nodes name given →
    ∀ argument ∈ given, ¬ (Literal.variable x).Within argument.2

/-- What the part and the variable convert to is all that has to be compared. -/
theorem result_compileFields_of_part (halike : context.Alike (Replaces part x) context')
    (hnodes : List.Forall₂ (Field.Alike (Replaces part x)) nodes nodes')
    (hfresh : Fresh context nodes x)
    (hagree : ∀ name, name ≠ x → (context.bindings.bind fun table => OrderedMap.get? table name) =
      context'.bindings.bind fun table => OrderedMap.get? table name)
    (hpart : (part.convert context.bindings context.options.strict).result =
      ((Literal.variable x).convert context'.bindings context.options.strict).result)
    (memory : Memory) :
    (compileFields context' nodes' memory).result = (compileFields context nodes memory).result := by
  have hrunnable : Rerunnable context (fun _ => True) fun _ => True :=
    { lookups := fun _ _ =>
        { hasType := fun _ _ _ => trivial
          modelFields := fun _ _ _ => trivial
          fieldFilter := fun _ _ _ _ => trivial }
      given := fun _ _ _ _ _ => trivial }
  have hleaves : (sameResults False).Leaves context.bindings context'.bindings
      context.options.strict context.options.strict fun literal => literal ≠ .variable x :=
    leaves_sameResults context.options.strict fun name hname =>
      hagree name fun heq => hname (heq ▸ rfl)
  have hreruns : Reruns False (fun _ => True) Eq (compileFields context nodes)
      (compileFields context' nodes') := by
    refine reruns_compileFields hrunnable halike hnodes
      fun _ name _ given given' hbranch _ _ hreplaces => ?_
    refine LoggedRelation.forwardOver _ relationArguments ?_ []
    have hgiven := (List.forall₂_and_left (p := fun argument => argument ∈ given) given given').mpr
      ⟨fun _ hargument => hargument, hreplaces⟩
    refine hgiven.imp fun argument argument' h => ?_
    obtain ⟨hargument, hname, hreplaced⟩ := h
    refine ⟨hname, fun _ => hleaves.convert_replaced ⟨hpart, False.elim⟩ hreplaced ?_⟩
    rintro _ hwithin rfl
    exact hfresh name given hbranch argument hargument hwithin
  exact (Likeness.eq_of_ends (hreruns memory trivial).ends).symm

/-- Occurrences of a part in arguments may be replaced by a fresh variable: if the part converts to
a value, then for that value of the variable, and if it converts to nothing, then for none. -/
theorem compileFields_replaced {fragments : Option FragmentTable}
    (halike : context.Alike (Replaces part x) { context with fragments })
    (hnodes : List.Forall₂ (Field.Alike (Replaces part x)) nodes nodes')
    (hfresh : Fresh context nodes x) (memory : Memory) :
    (∀ value, (part.convert context.bindings context.options.strict).result = .ok (some value) →
        let bindings := OrderedMap.insert (context.bindings.getD []) x value
        (compileFields { context with fragments, bindings := some bindings } nodes' memory).result =
          (compileFields context nodes memory).result) ∧
      (context.options.strict = false →
        (context.bindings.bind fun table => OrderedMap.get? table x) = none →
        (part.convert context.bindings false).result = .ok none →
        (compileFields { context with fragments } nodes' memory).result =
          (compileFields context nodes memory).result) := by
  constructor
  · intro value hvalue bindings
    have halike' : context.Alike (Replaces part x) { context with fragments, bindings } :=
      ⟨halike.options, halike.length, halike.fragments⟩
    refine result_compileFields_of_part halike' hnodes hfresh (fun name hname => ?_) ?_ memory
    · show _ = OrderedMap.get? bindings name
      rw [OrderedMap.get?_insert_of_ne _ value hname.symm]
      cases context.bindings <;> rfl
    · have hbound : OrderedMap.get? bindings x = some value := OrderedMap.get?_insert_self _ x value
      simp only [Literal.convert, resolveVariable, Option.bind_some, hbound, hvalue]
      rfl
  · intro hlenient hunbound hvalue
    refine result_compileFields_of_part halike hnodes hfresh (fun _ _ => rfl) ?_ memory
    rw [hlenient, hvalue]
    simp only [Literal.convert, resolveVariable, hunbound]
    rfl

/-- Queries about people with a fragment that selects their posts, given an argument. -/
def postsWhere (literal : Literal) (bindings : Option Bindings) : Context where
  fragments := some [("Posts",
    { description := none, name := "Posts", condition := "Person", directives := []
      selections :=
        [.field none "posts" [("where", literal)] [] (some [plainField "title" none])] })]
  bindings := bindings
  options := (aboutPeople []).options

def postsTwice : Field where
  aliasName := none
  name := "person"
  arguments := []
  directives := []
  selectionSet := some [.spread "Posts" [], .spread "Posts" []]

theorem alike_postsWhere {literal literal' : Literal}
    (h : Literal.Replaced part (.variable x) literal literal') (bindings : Option Bindings) :
    (postsWhere literal bindings).Alike (Replaces part x) (postsWhere literal' bindings) := by
  refine ⟨rfl, rfl, fun name => ?_⟩
  by_cases hname : "Posts" = name
  · subst hname
    refine .some ⟨rfl, .branch none none "posts" [] [] (.cons ⟨rfl, h⟩ .nil) ?_ .nil⟩
    exact .leaf _ _ _ _ _ _ _ .nil
  · simp [Context.definition?, postsWhere, OrderedMap.get?, hname]

theorem fresh_postsWhere {literal : Literal} (h : ¬ (Literal.variable x).Within literal)
    (bindings : Option Bindings) : Fresh (postsWhere literal bindings) [postsTwice] x := by
  rintro name given (⟨hnode, hbranch⟩ | ⟨hdefined, hbranch⟩) argument hargument hwithin
  · rw [List.mem_singleton.mp hnode] at hbranch
    simp [postsTwice, Selection.nested] at hbranch
  · rename_i spread fragment
    by_cases hspread : "Posts" = spread
    · subst hspread
      cases hdefined
      have honly : "posts" = name ∧ [("where", literal)] = given := by
        simpa [Selection.nested, plainField] using hbranch
      obtain ⟨rfl, rfl⟩ := honly
      rw [List.mem_singleton.mp hargument] at hwithin
      exact h hwithin
    · simp [Context.definition?, postsWhere, OrderedMap.get?, hspread] at hdefined

/-- Names of posts, of which one is a variable, and a name that is given twice. -/
def postNames : Literal :=
  .object [("names", .list [.enum "a", .variable "y"]), ("name", .enum "b"),
    ("name", .variable "y")]

theorem not_within_postNames : ¬ (Literal.variable "x").Within postNames := by
  have hleaf : ∀ literal : Literal, literal.nested = [] → Literal.variable "x" ≠ literal →
      ¬ (Literal.variable "x").Within literal := by
    intro literal hnested hne
    refine Literal.not_within hne fun item hitem => ?_
    rw [hnested] at hitem
    cases hitem
  refine Literal.not_within nofun (List.forall_mem_cons.mpr ⟨?_, List.forall_mem_cons.mpr
    ⟨hleaf _ rfl nofun, List.forall_mem_singleton.mpr (hleaf _ rfl (by simp))⟩⟩)
  exact Literal.not_within nofun (List.forall_mem_cons.mpr
    ⟨hleaf _ rfl nofun, List.forall_mem_singleton.mpr (hleaf _ rfl (by simp))⟩)

theorem result_postNames :
    (compileFields (postsWhere postNames none) [postsTwice] .empty).result =
      .ok (.ofSelect [("posts", .relation [("title", .leaf)]
        [("where", .object [("names", .list [.text "a"]), ("name", .text "b")])])]) := by
  rfl

/-- A list may be handed over in a variable, and a variable without a value may stand for another:
the name that was given before is not taken back. -/
theorem replaced_postNames :
    (compileFields (postsWhere (.object
          [("names", .variable "x"), ("name", .enum "b"), ("name", .variable "y")])
        (some [("x", .list [.text "a"])])) [postsTwice] .empty).result =
      .ok (.ofSelect [("posts", .relation [("title", .leaf)]
        [("where", .object [("names", .list [.text "a"]), ("name", .text "b")])])]) ∧
    (compileFields (postsWhere (.object
          [("names", .list [.enum "a", .variable "x"]), ("name", .enum "b"),
            ("name", .variable "x")]) none) [postsTwice] .empty).result =
      .ok (.ofSelect [("posts", .relation [("title", .leaf)]
        [("where", .object [("names", .list [.text "a"]), ("name", .text "b")])])]) := by
  have hfresh : Fresh (postsWhere postNames none) [postsTwice] "x" :=
    fresh_postsWhere not_within_postNames none
  have hnodes : ∀ part, List.Forall₂ (Field.Alike (Replaces part "x")) [postsTwice] [postsTwice] :=
    fun _ => .cons (.spread _ _ _ (.spread _ _ _ .nil)) .nil
  rw [← result_postNames]
  constructor
  · have hlist : Literal.Replaced (.list [.enum "a", .variable "y"]) (.variable "x") postNames
        (.object [("names", .variable "x"), ("name", .enum "b"), ("name", .variable "y")]) :=
      .object rfl (.cons .here (.cons (.same _) (.cons (.same _) .nil)))
    exact (compileFields_replaced (alike_postsWhere hlist none) (hnodes _) hfresh .empty).1
      (.list [.text "a"]) rfl
  · have hvariable : Literal.Replaced (.variable "y") (.variable "x") postNames
        (.object [("names", .list [.enum "a", .variable "x"]), ("name", .enum "b"),
          ("name", .variable "x")]) :=
      .object rfl (.cons (.list (.cons (.same _) (.cons .here .nil)))
        (.cons (.same _) (.cons .here .nil)))
    exact (compileFields_replaced (alike_postsWhere hvariable none) (hnodes _) hfresh .empty).2
      rfl rfl rfl

end Expansion

end QueryProjection
