import QueryProjection.Proofs.Conversion
import QueryProjection.Proofs.Expansion.Settled
import QueryProjection.Proofs.Registry.Requests

/-!
# Compiling a query with other arguments

What a compilation does with arguments is to convert those that are forwarded.  So two queries
that differ in their arguments alone are compiled in the same steps, and to the same projection,
if only what is forwarded for each field that is kept is the same (`reruns_compileFields`).  The
contexts may differ as well, in the values of variables and in the arguments within fragments.

The two runs put the same questions to the source, so nothing is asked of it: it may change its
mind and it may fail.  They report the same as well, if the conversions do; a literal that takes the
place of a variable has nothing to report.  That is why notices are compared on demand.
-/

namespace QueryProjection

/-- Two computations come to the same, and report the same where this is asked for. -/
def sameResults (told : Prop) : LoggedRelation where
  rel first second := first.result = second.result ∧ (told → first.notices = second.notices)
  done _ := ⟨rfl, fun _ => rfl⟩
  step := by
    intro α β first first' second second' h hsteps
    obtain ⟨result, notices⟩ := first
    obtain ⟨result', notices'⟩ := first'
    obtain ⟨hresult, hnotices⟩ := h
    simp only at hresult hnotices
    subst hresult
    cases result with
    | error fault => exact ⟨rfl, hnotices⟩
    | ok value =>
        obtain ⟨hafter, hreports⟩ := hsteps value
        refine ⟨hafter, fun htold => ?_⟩
        show notices ++ (second value).notices = notices' ++ (second' value).notices
        rw [hnotices htold, hreports htold]

/-- Values are converted to the same under bindings that agree on the variables in them. -/
theorem leaves_sameResults {told : Prop} {bindings bindings' : Option Bindings}
    {used : Literal → Prop} (strict : Bool)
    (hagree : ∀ name, used (.variable name) →
      (bindings.bind fun table => OrderedMap.get? table name) =
        bindings'.bind fun table => OrderedMap.get? table name) :
    (sameResults told).Leaves bindings bindings' strict strict used where
  bound name hused := by
    unfold resolveVariable
    rw [hagree name hused]
    exact ⟨rfl, fun _ => rfl⟩
  int numeral _ := ⟨rfl, fun _ => rfl⟩
  other kind _ := by
    simp only [Literal.convert]
    exact ⟨rfl, fun _ => rfl⟩

def Fragment.Alike (arguments : String → List Argument → List Argument → Prop)
    (fragment fragment' : Fragment) : Prop :=
  fragment'.condition = fragment.condition ∧
    Selection.Alike arguments fragment.selections fragment'.selections

def Field.Alike (arguments : String → List Argument → List Argument → Prop)
    (node node' : Field) : Prop :=
  Selection.Alike arguments (node.selectionSet.getD []) (node'.selectionSet.getD [])

structure Context.Alike (arguments : String → List Argument → List Argument → Prop)
    (context context' : Context) : Prop where
  options : context'.options = context.options
  length : (context'.fragments.getD []).length = (context.fragments.getD []).length
  fragments : ∀ name, Option.Rel (Fragment.Alike arguments) (context.definition? name)
    (context'.definition? name)

/-- A field of the name with a selection set and the arguments stands in the nodes or in a fragment
that is defined. -/
inductive Context.HasBranch (context : Context) (nodes : List Field) (name : String)
    (given : List Argument) : Prop where
  | node {node : Field} (hnode : node ∈ nodes)
      (h : Selection.HasBranch name given (node.selectionSet.getD []))
  | fragment {spread : String} {fragment : Fragment}
      (hdefined : context.definition? spread = some fragment)
      (h : Selection.HasBranch name given fragment.selections)

/-- More is known of related arguments, if it is known of the fields that have them. -/
theorem Context.Alike.imp {arguments arguments' : String → List Argument → List Argument → Prop}
    {context context' : Context} (halike : context.Alike arguments context')
    (h : ∀ spread fragment, context.definition? spread = some fragment →
      ∀ name given given', Selection.HasBranch name given fragment.selections →
        arguments name given given' → arguments' name given given') :
    context.Alike arguments' context' := by
  refine ⟨halike.options, halike.length, fun name => ?_⟩
  have hfound := halike.fragments name
  generalize hdefined : context.definition? name = found at hfound
  generalize context'.definition? name = found' at hfound
  cases hfound with
  | none => exact .none
  | some hfragments =>
      exact .some ⟨hfragments.1, hfragments.2.imp (h name _ hdefined)⟩

namespace Expansion

/-- Two outcomes with related values or the same fault that leave the same behind. -/
structure Rerun (told : Prop) (invariant : Memory → Prop) {α : Type} (values : α → α → Prop)
    (first second : Outcome α) : Prop where
  ends : Likeness.exact.Ends values first.result second.result
  notices : told → first.notices = second.notices
  memory : first.memory = second.memory
  keeps : invariant first.memory

/-- From every memory with a property, the second computation does what the first does. -/
def Reruns (told : Prop) (invariant : Memory → Prop) {α : Type} (values : α → α → Prop)
    (first second : Compile α) : Prop :=
  ∀ memory, invariant memory → Rerun told invariant values (first memory) (second memory)

theorem Rerun.eq {invariant : Memory → Prop} {α : Type} {first second : Outcome α}
    (h : Rerun True invariant Eq first second) : first = second := by
  obtain ⟨result, notices, memory⟩ := first
  obtain ⟨result', notices', memory'⟩ := second
  have hresult : result = result' := Likeness.eq_of_ends h.ends
  have hnotices : notices = notices' := h.notices trivial
  have hmemory : memory = memory' := h.memory
  rw [hresult, hnotices, hmemory]

namespace Reruns

variable {told : Prop} {invariant : Memory → Prop} {α β : Type} {values : α → α → Prop}
  {values' : β → β → Prop}

theorem done {a b : α} (h : values a b) : Reruns told invariant values (pure a) (pure b) :=
  fun _ hm => ⟨.ok h, fun _ => rfl, rfl, hm⟩

theorem step {first first' : Compile α} {second second' : α → Compile β}
    (h : Reruns told invariant values first first')
    (hsteps : ∀ a b, values a b → Reruns told invariant values' (second a) (second' b)) :
    Reruns told invariant values' (first >>= second) (first' >>= second') := by
  intro memory hm
  obtain ⟨hends, hnotices, hmemory, hkeeps⟩ := h memory hm
  generalize hr : (first memory).result = result at hends
  generalize hr' : (first' memory).result = result' at hends
  cases hends with
  | error hfaults =>
      rw [Compile.bind_of_error hr, Compile.bind_of_error hr']
      exact ⟨.error hfaults, hnotices, hmemory, hkeeps⟩
  | @ok a b hvalues =>
      have hafter := hsteps a b hvalues _ hkeeps
      rw [Compile.bind_of_ok hr, Compile.bind_of_ok hr', ← hmemory]
      exact ⟨hafter.ends, fun htold => by rw [hnotices htold, hafter.notices htold],
        hafter.memory, hafter.keeps⟩

theorem stop (fault : Fault) :
    Reruns told invariant values (Compile.stop fault) (Compile.stop fault) :=
  fun _ hm => ⟨.error rfl, fun _ => rfl, rfl, hm⟩

/-- A computation that keeps the property does what it does. -/
theorem refl {computation : Compile α}
    (h : ∀ memory, invariant memory → invariant (computation memory).memory ∧
      ∀ value, (computation memory).result = .ok value → values value value) :
    Reruns told invariant values computation computation := by
  intro memory hm
  obtain ⟨hkeeps, hvalues⟩ := h memory hm
  refine ⟨?_, fun _ => rfl, rfl, hkeeps⟩
  generalize (computation memory).result = result at hvalues
  cases result with
  | error fault => exact .error rfl
  | ok value => exact .ok (hvalues value rfl)

theorem of_along {computation : Compile α}
    (h : (Law.ofInvariant invariant).Along Eq computation computation) :
    Reruns told invariant Eq computation computation :=
  .refl fun memory hm => ⟨(h memory).1 hm, fun _ _ => rfl⟩

theorem ofLogged {first second : Logged α} (h : (sameResults told).rel first second) :
    Reruns told invariant Eq (Compile.ofLogged first) (Compile.ofLogged second) := by
  intro memory hm
  refine ⟨?_, h.2, rfl, hm⟩
  show Likeness.exact.Ends Eq first.result second.result
  rw [h.1]
  exact Likeness.lawful_exact.ends_refl (fun _ => rfl) _

end Reruns

/-- Only filters of some sort are ever given, which may be known to leave out certain names. -/
def rerunning (told : Prop) (invariant : Memory → Prop) (given : FieldFilter → Prop) :
    Correspondence where
  types := Eq
  filters filter filter' := filter = filter' ∧ given filter
  similar filter filter' h := FieldFilter.similar_of_eq filter filter' h.1
  rel := Reruns told invariant
  done := Reruns.done
  step := Reruns.step

/-- A property that look-ups keep, and what is known of the filters that are given. -/
structure Rerunnable (context : Context) (invariant : Memory → Prop)
    (given : FieldFilter → Prop) : Prop where
  lookups : ∀ target, context.options.target = some target →
    (Law.ofInvariant invariant).Lookups target.source
  given : ∀ type memory filter, invariant memory →
    (context.filterAt type memory).result = .ok filter → given filter

section Runs

variable {told : Prop} {invariant : Memory → Prop} {given : FieldFilter → Prop}
  {arguments : String → List Argument → List Argument → Prop} {context context' : Context}
  (hrunnable : Rerunnable context invariant given)

include hrunnable

theorem places_rerunning (hoptions : context'.options = context.options) :
    (rerunning told invariant given).Places context context' := by
  have hlaw := Law.along_compilations hrunnable.lookups
  have hfilterAt : ∀ type, context'.filterAt type = context.filterAt type :=
    fun type => by simp only [Context.filterAt, hoptions]
  have htypeBelow : ∀ type name kind,
      context'.typeBelow type name kind = context.typeBelow type name kind :=
    fun type name kind => by simp only [Context.typeBelow, hoptions]
  have htypeWithin : ∀ type condition,
      context'.typeWithin type condition = context.typeWithin type condition :=
    fun type condition => by simp only [Context.typeWithin, hoptions]
  constructor
  · rintro type _ rfl
    rw [hfilterAt]
    exact .refl fun memory hm => ⟨(hlaw.filterAt rfl memory).1 hm, fun filter hfilter =>
      ⟨rfl, hrunnable.given type memory filter hm hfilter⟩⟩
  · rintro type _ name kind rfl
    rw [htypeBelow]
    exact .of_along (hlaw.typeBelow name kind rfl)
  · rintro type _ condition rfl
    rw [htypeWithin]
    exact .of_along (hlaw.typeWithin condition rfl)
  · rintro type _ name rfl
    exact .of_along (hlaw.dropped name rfl)
  · exact fun name => .stop _

theorem starts_rerunning (halike : context.Alike arguments context') :
    (rerunning told invariant given).Starts context context' := by
  have hlaw := Law.along_compilations hrunnable.lookups
  have hroot : context'.root = context.root := by
    simp only [Context.root, halike.options]
  have hcheckRoot : context'.checkRoot = context.checkRoot := by
    simp only [Context.checkRoot, halike.options]
  constructor
  · rintro type _ rfl
    rfl
  · rintro type _ name rfl
    exact .stop _
  · exact hroot.symm
  · rw [hcheckRoot]
    exact .of_along hlaw.checkRoot
  · exact .refl fun memory hm => ⟨hm, fun _ _ => rfl⟩
  · intro memory
    simp only [budget, halike.options, halike.length]

omit hrunnable in
theorem reruns_fragment? (halike : context.Alike arguments context') (name : String) :
    Reruns told invariant (Option.Rel (Fragment.Alike arguments)) (context.fragment? name)
      (context'.fragment? name) := by
  have hfound := halike.fragments name
  unfold Context.definition? at hfound
  unfold Context.fragment? resolveFragment
  rw [halike.options]
  generalize (context.fragments.bind fun table => OrderedMap.get? table name) = found,
    (context'.fragments.bind fun table => OrderedMap.get? table name) = found' at hfound
  cases hfound with
  | some hfragments => exact .done (.some hfragments)
  | none =>
      cases context.options.strict with
      | true => exact .stop _
      | false => exact fun _ hm => ⟨.ok .none, fun _ => rfl, rfl, hm⟩

/-- Nodes that are alike are compiled to the same, if the same is forwarded for what is kept. -/
theorem reruns_compileFields (halike : context.Alike arguments context') {nodes nodes' : List Field}
    (hnodes : List.Forall₂ (Field.Alike arguments) nodes nodes')
    (hforwarded : ∀ (filter : FieldFilter) name kind earlier later,
      context.HasBranch nodes name earlier → given filter → filter.classify name = some kind →
      arguments name earlier later → (sameResults told).rel
        (forwardArguments earlier context.bindings context.options.strict relationArguments)
        (forwardArguments later context'.bindings context.options.strict relationArguments)) :
    Reruns told invariant Eq (compileFields context nodes) (compileFields context' nodes') := by
  -- the relation has to tell where arguments stand, which a walk from place to place does not
  let arguments' : String → List Argument → List Argument → Prop := fun name earlier later =>
    context.HasBranch nodes name earlier ∧ arguments name earlier later
  have halike' : context.Alike arguments' context' :=
    halike.imp fun _ _ hdefined _ _ _ hbranch harguments =>
      ⟨.fragment hdefined hbranch, harguments⟩
  have hnodes' : List.Forall₂ (Field.Alike arguments') nodes nodes' := by
    have hmem := (List.forall₂_and_left (p := fun node => node ∈ nodes) nodes nodes').mpr
      ⟨fun _ hnode => hnode, hnodes⟩
    exact hmem.imp fun node _ h => h.2.imp fun _ _ _ hbranch harguments =>
      ⟨.node h.1 hbranch, harguments⟩
  have hrevises : (rerunning told invariant given).Revises
      { arguments := arguments', fragments := fun _ => Fragment.Alike arguments',
        condition := And.left, selections := And.right } context context' :=
    { toPlaces := places_rerunning hrunnable halike.options
      fragment? := reruns_fragment? halike'
      forwarded := fun {filter _ name kind earlier later} hfilters hkind harguments => by
        unfold Context.forwarded
        rw [halike.options]
        exact .ofLogged (hforwarded filter name kind earlier later harguments.1 hfilters.2 hkind
          harguments.2) }
  exact hrevises.compileFields (starts_rerunning hrunnable halike') hnodes'

end Runs

end Expansion

end QueryProjection
