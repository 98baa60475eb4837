import QueryProjection.Proofs.Expansion.Failures
import QueryProjection.Proofs.Expansion.Revisions
import QueryProjection.Proofs.Expansion.WellFormed

/-!
# Which variables matter

The values of variables are read in one place only, where the arguments of a field are forwarded.
That is done for fields that have a selection set and that their filter keeps, and of their
arguments only those with certain names are looked at.  So a compilation tells nothing of any other
variable: with two tables of bindings that agree on the variables that are used in this way it has
one and the same outcome (`compileFields_bindings`).  In strict mode in particular, a variable
without a value is a fault only where the walk comes to a field that is kept and that passes the
variable on.
-/

namespace QueryProjection

namespace Expansion

def ForwardsVariable (x : String) (given : List Argument) : Prop :=
  ∃ argument ∈ given, argument.1 ∈ relationArguments ∧ (Literal.variable x).Within argument.2

/-- A variable is used: it occurs in what may be forwarded for a field that has a selection set and
that is not left out by its name. -/
def Uses (context : Context) (nodes : List Field) (x : String) : Prop :=
  ∃ name given, context.HasBranch nodes name given ∧ name ∉ pseudoFields ∧
    name ∉ context.options.exclude ∧ ForwardsVariable x given

def KeepsVariable (x : String) (_type : Option TypeName) (filter : FieldFilter)
    (selection : Selection) : Prop :=
  ∃ aliasName name kind given directives below,
    selection = .field aliasName name given directives (some below) ∧
      filter.classify name = some kind ∧ ForwardsVariable x given

variable {context : Context} {nodes : List Field} {memory : Memory}

theorem rerunnable_keyed (context : Context) :
    Rerunnable context (Keyed context) (Covers context) where
  lookups target _ := lookups_keyedIn context target.source
  given type memory filter hkeyed hfilter := (yields_filterAt type memory hkeyed).2 filter hfilter

/-- Bindings that agree on what is used come to the same, whatever is remembered. -/
theorem reruns_bindings {bindings : Option Bindings}
    (hagree : ∀ x, Uses context nodes x →
      (context.bindings.bind fun table => OrderedMap.get? table x) =
        bindings.bind fun table => OrderedMap.get? table x) :
    Reruns True (Keyed context) Eq (compileFields context nodes)
      (compileFields { context with bindings } nodes) := by
  have hself : ∀ selections, Selection.Alike (fun _ => Eq) selections selections :=
    fun _ => Selection.alike_self fun _ _ _ => rfl
  have halike : context.Alike (fun _ => Eq) { context with bindings } := by
    refine ⟨rfl, rfl, fun name => ?_⟩
    show Option.Rel _ (context.definition? name) (context.definition? name)
    cases context.definition? name with
    | none => exact .none
    | some fragment => exact .some ⟨rfl, hself fragment.selections⟩
  refine reruns_compileFields (rerunnable_keyed context) halike
    (List.forall₂_same.mpr fun node _ => hself _) ?_
  rintro filter name kind given _ hbranch hcovers hkind rfl
  obtain ⟨hpseudo, hexclude⟩ := not_skipped hcovers hkind
  have hleaves : (sameResults True).Leaves context.bindings bindings context.options.strict
      context.options.strict fun literal => ∀ x, literal = .variable x → Uses context nodes x :=
    leaves_sameResults _ fun x hused => hagree x (hused x rfl)
  refine hleaves.forwardOver relationArguments given ?_ []
  rintro argument hargument hforwarded part hwithin x rfl
  exact ⟨name, given, hbranch, hpseudo, hexclude, argument, hargument, hforwarded, hwithin⟩

/-- A variable is not bound where it is missed, and it is forwarded there. -/
theorem forwardsVariable_of_error {bindings : Option Bindings} {strict : Bool}
    {given : List Argument} {x : String}
    (h : (forwardArguments given bindings strict relationArguments).result =
      .error (.unboundVariable x)) :
    (bindings.bind fun table => OrderedMap.get? table x) = none ∧ ForwardsVariable x given := by
  refine Classical.byContradiction fun hnot => ?_
  have hleaves : (faultsAmong (· ≠ .unboundVariable x)).Leaves bindings bindings strict strict
      fun literal => literal = .variable x → ForwardsVariable x given := by
    refine leaves_faultsAmong (fun _ name hused hnone heq => ?_) (fun _ _ _ => nofun)
      fun _ _ _ => nofun
    cases heq
    exact hnot ⟨hnone, hused rfl⟩
  refine hleaves.forwardOver relationArguments given ?_ [] _ h rfl
  rintro argument hargument hforwarded part hwithin rfl
  exact ⟨argument, hargument, hforwarded, hwithin⟩

/-- Looking types up, nobody misses a variable, unless the source says so. -/
theorem unbound_not_lookupFault {x : String}
    (hsource : ∀ target, context.options.target = some target →
      ∀ moment type, target.source.answer moment type ≠ .error (.unboundVariable x)) :
    ¬ context.LookupFault (.unboundVariable x) := by
  intro h
  cases h with
  | source htarget hanswer => exact hsource _ htarget _ _ hanswer

theorem keepsVariable_of_fails {x : String}
    (hlookups : ¬ context.LookupFault (.unboundVariable x)) {type : Option TypeName}
    {filter : FieldFilter} {selection : Selection}
    (h : Fails context (context.outlook memory) (fun _ _ _ => True) (.unboundVariable x) type filter
      selection) :
    (context.bindings.bind fun table => OrderedMap.get? table x) = none ∧
      KeepsVariable x type filter selection := by
  -- the places that are entered are found out by look-ups
  have hplace : ∀ {first : Except Fault (Option TypeName)},
      (∀ fault, first = .error fault → context.LookupFault fault) →
      (do let type ← first; let inner ← (context.outlook memory).filterAt type
          return (type, inner)) ≠ .error (.unboundVariable x) := by
    intro first hfirst herror
    rcases bind_eq_error.mp herror with h | ⟨type, -, h⟩
    · exact hlookups (hfirst _ h)
    · rcases bind_eq_error.mp h with h | ⟨inner, -, h⟩
      · exact hlookups (lookupFault_filterAt h)
      · cases h
  cases h with
  | below _ h => exact absurd h (hplace fun _ => lookupFault_typeBelow)
  | arguments hkind _ _ h =>
      obtain ⟨hunbound, hforwards⟩ := forwardsVariable_of_error h
      exact ⟨hunbound, _, _, _, _, _, _, rfl, hkind, hforwards⟩
  | undefined _ _ h => cases h
  | spread _ h => exact absurd h (hplace fun _ => lookupFault_typeWithin)
  | inline h => exact absurd h (hplace fun _ => lookupFault_typeWithin)
  | other h => cases h

/-- What a compilation comes to, reports and leaves behind does not depend on variables that are
not used, and a missing value is a fault only where a field that is kept forwards the variable. -/
theorem compileFields_bindings (hstarts : context.StartsFrom Session.anyStep memory) :
    (∀ bindings : Option Bindings,
        (∀ x, Uses context nodes x → (context.bindings.bind fun table => OrderedMap.get? table x) =
          bindings.bind fun table => OrderedMap.get? table x) →
        compileFields { context with bindings } nodes memory = compileFields context nodes memory) ∧
      (context.Steady → ∀ x,
        (∀ target, context.options.target = some target →
          ∀ moment type, target.source.answer moment type ≠ .error (.unboundVariable x)) →
        (compileFields context nodes memory).result = .error (.unboundVariable x) →
        (context.bindings.bind fun table => OrderedMap.get? table x) = none ∧
          ∃ filter, (context.outlook memory).filterAt context.root = .ok filter ∧
            Meets context (context.outlook memory) (fun _ _ _ => True) (KeepsVariable x)
              context.root filter (joined nodes)) := by
  constructor
  · intro bindings hagree
    exact (reruns_bindings hagree memory (keyed_of_startsFrom hstarts)).eq.symm
  · intro hsteady x hsource h
    have hlookups := unbound_not_lookupFault hsource
    have hnodes : nodes ≠ [] := by
      rintro rfl
      cases h
    rw [result_compileFields hsteady hnodes, map_eq_error] at h
    obtain ⟨depth, after, hafter, hwalk⟩ :=
      exists_walk_of_not_endless hsteady (h ▸ fun hendless => endless_error.mp hendless)
    rw [hwalk] at h
    rcases bind_eq_error.mp h with hroot | ⟨_, -, h⟩
    · exact absurd (lookupFault_root hroot) hlookups
    rcases bind_eq_error.mp h with hfilter | ⟨filter, hfilter, h⟩
    · exact absurd (lookupFault_filterAt hfilter) hlookups
    have hfails := meets_of_error hsteady (fun _ _ _ _ _ _ _ => trivial)
      (fun _ _ _ _ _ _ _ => trivial) id depth (joined nodes) context.root filter [] h
    rw [hafter] at hfails
    have hmeets := hfails.mono hfilter (fun _ _ _ _ => id) fun _ _ _ _ =>
      keepsVariable_of_fails hlookups
    obtain ⟨_, _, _, hunbound, -⟩ := hmeets.exists_of_sort
    exact ⟨hunbound, filter, hfilter,
      hmeets.mono hfilter (fun _ _ _ _ => id) fun _ _ _ _ => And.right⟩

/-- A person's posts, of which some are asked for; variables are passed to a field without a
selection set, to one that is left out, and in an argument that is not forwarded. -/
def somePosts : List Field :=
  [{ aliasName := none, name := "person", arguments := [], directives := []
     selectionSet := some
      [.field none "name" [("where", .variable "leaf")] [] none,
        .field none "_count" [("where", .variable "dropped")] [] (some [plainField "posts" none]),
        .field none "posts" [("first", .variable "other"), ("take", .variable "n")] []
          (some [plainField "title" none])] }]

def strictly (bindings : Option Bindings) : Context where
  fragments := none
  bindings := bindings
  options := { (aboutPeople []).options with strict := true }

theorem eq_of_uses_somePosts {bindings : Option Bindings} {x : String}
    (h : Uses (strictly bindings) somePosts x) : x = "n" := by
  obtain ⟨name, given, hbranch, hpseudo, -, argument, hargument, hforwarded, hwithin⟩ := h
  have hvariable : ∀ y, (Literal.variable x).Within (.variable y) → x = y := by
    rintro y (_ | ⟨hitem, _⟩)
    · rfl
    · cases hitem
  rcases hbranch with ⟨hnode, hbranch⟩ | ⟨hdefined, -⟩
  · rw [List.mem_singleton.mp hnode] at hbranch
    have hbranches : "_count" = name ∧ [("where", .variable "dropped")] = given ∨
        "posts" = name ∧ [("first", .variable "other"), ("take", .variable "n")] = given := by
      simpa [Selection.nested, plainField] using hbranch
    rcases hbranches with ⟨rfl, rfl⟩ | ⟨rfl, rfl⟩
    · exact absurd (by decide) hpseudo
    · rcases List.mem_cons.mp hargument with rfl | hargument
      · exact absurd hforwarded (by decide)
      · rw [List.mem_singleton.mp hargument] at hwithin
        exact hvariable "n" hwithin
  · cases hdefined

/-- One variable of the four has to be bound. -/
theorem bindings_somePosts :
    (strictly none).StartsFrom Session.anyStep Memory.empty ∧
      compileFields (strictly (some [("leaf", .null), ("n", .bool true), ("dropped", .null)]))
          somePosts .empty =
        compileFields (strictly (some [("n", .bool true)])) somePosts .empty ∧
      (compileFields (strictly none) somePosts .empty).result = .error (.unboundVariable "n") ∧
      ∃ filter, Meets (strictly none) ((strictly none).outlook .empty) (fun _ _ _ => True)
        (KeepsVariable "n") (strictly none).root filter (joined somePosts) := by
  have hstarts : ∀ bindings, (strictly bindings).StartsFrom Session.anyStep Memory.empty := by
    intro bindings target htarget
    cases htarget
    exact ⟨_, "people", _, .step .start (.openRegistry "people" people none) trivial, rfl, rfl, rfl⟩
  have hsteady : (strictly none).Steady := steady_aboutPeople []
  have hresult : (compileFields (strictly none) somePosts .empty).result =
      .error (.unboundVariable "n") := by
    rfl
  refine ⟨hstarts none, ?_, hresult, ?_⟩
  · refine (compileFields_bindings (hstarts (some [("n", .bool true)]))).1
      (some [("leaf", .null), ("n", .bool true), ("dropped", .null)]) fun x huses => ?_
    rw [eq_of_uses_somePosts huses]
    rfl
  · obtain ⟨-, filter, -, hmeets⟩ := (compileFields_bindings (hstarts none)).2 hsteady "n"
      (fun target htarget moment type => by
        cases htarget
        cases type <;> exact nofun) hresult
    exact ⟨filter, hmeets⟩

end Expansion

end QueryProjection
