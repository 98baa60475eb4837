import QueryProjection.Proofs.Document
import QueryProjection.Proofs.Expansion.Dependable

/-!
# Why a lenient compilation fails

A compilation that is not strict leaves out what it cannot resolve.  Two things are left that it
does not get past: a relation to a type that the registry does not know, and an argument that writes
too long a number.  Both count only where a field is kept and has a selection set (`Obstacle`), and
only if the walk gets there; everything else is harmless, however deep it is nested.

A compilation fails exactly if the root model is unknown or its walk is obstructed, and then in the
way of the first obstacle (`compileFields_lenient`).  It is taken for granted that the source does
not fail itself (`Source.Dependable`), that what is compiled was read from a text, and that there is
an end to it.
-/

namespace QueryProjection

/-- A literal of arguments that are forwarded is a whole number with too many digits. -/
def TooLong (arguments : List Argument) : Prop :=
  ∃ argument ∈ arguments, argument.1 ∈ relationArguments ∧
    ∃ numeral, (Literal.int numeral).Within argument.2 ∧ NumeralTooLong numeral

namespace Expansion

/-- A field that is kept and has a selection set, but is a relation to a type that the registry does
not know, or forwards a number that is too long. -/
inductive Obstacle (context : Context) (memory : Memory) :
    Option TypeName → FieldFilter → Selection → Prop where
  | unknown {type : Option TypeName} {related : TypeName} {filter : FieldFilter}
      {aliasName : Option String} {name : String} {arguments : List Argument}
      {directives : List Directive} {selections : List Selection}
      (hkind : filter.classify name = some .relation)
      (hrelated : (context.outlook memory).typeBelow type name .relation = .ok (some related))
      (hunknown : context.Unknown memory related) :
      Obstacle context memory type filter
        (.field aliasName name arguments directives (some selections))
  | tooLong {type : Option TypeName} {filter : FieldFilter} {aliasName : Option String}
      {name : String} {kind : FieldKind} {arguments : List Argument} {directives : List Directive}
      {selections : List Selection} (hkind : filter.classify name = some kind)
      (hlong : TooLong arguments) :
      Obstacle context memory type filter
        (.field aliasName name arguments directives (some selections))

def Obstructed (context : Context) (memory : Memory) :
    Option TypeName → FieldFilter → List Selection → Prop :=
  Meets context (context.outlook memory) (fun _ _ _ => True) (Obstacle context memory)

/-- A field stands in the way of a walk, with a fault: the type below it is unknown; or else nothing
below it is in the way, but a number that it forwards is too long. -/
inductive Stops (context : Context) (memory : Memory) :
    Fault → Option TypeName → FieldFilter → Selection → Prop where
  | unknown {type : Option TypeName} {related : TypeName} {filter : FieldFilter}
      {aliasName : Option String} {name : String} {arguments : List Argument}
      {directives : List Directive} {selections : List Selection}
      (hkind : filter.classify name = some .relation)
      (hrelated : (context.outlook memory).typeBelow type name .relation = .ok (some related))
      (hunknown : context.Unknown memory related) :
      Stops context memory (.unknownType related) type filter
        (.field aliasName name arguments directives (some selections))
  | tooLong {type below : Option TypeName} {filter inner : FieldFilter}
      {aliasName : Option String} {name : String} {kind : FieldKind} {arguments : List Argument}
      {directives : List Directive} {selections : List Selection}
      (hkind : filter.classify name = some kind)
      (hplace : (context.outlook memory).placeBelow type name kind = .ok (below, inner))
      (hbelow : ¬ Obstructed context memory below inner selections)
      (hlong : TooLong arguments) :
      Stops context memory .numeralTooLong type filter
        (.field aliasName name arguments directives (some selections))

/-- The walk of the selections comes to a field that stops it with a fault, and to no obstacle
before. -/
def StoppedBy (context : Context) (memory : Memory) (fault : Fault) :
    Option TypeName → FieldFilter → List Selection → Prop :=
  Meets context (context.outlook memory)
    (fun type filter selection => ¬ Obstructed context memory type filter [selection])
    (Stops context memory fault)

theorem Stops.obstacle {context : Context} {memory : Memory} {fault : Fault}
    {type : Option TypeName} {filter : FieldFilter} {selection : Selection}
    (h : Stops context memory fault type filter selection) :
    Obstacle context memory type filter selection := by
  cases h with
  | unknown hkind hrelated hunknown => exact .unknown hkind hrelated hunknown
  | tooLong hkind _ _ hlong => exact .tooLong hkind hlong

theorem StoppedBy.obstructed {context : Context} {memory : Memory} {fault : Fault}
    {type : Option TypeName} {filter : FieldFilter} {selections : List Selection}
    (h : StoppedBy context memory fault type filter selections)
    (hfilter : (context.outlook memory).filterAt type = .ok filter) :
    Obstructed context memory type filter selections :=
  h.mono hfilter (fun _ _ _ _ _ => trivial) fun _ _ _ _ => Stops.obstacle

/-! ### Arguments -/

section Arguments

variable {arguments : List Argument} {bindings : Option Bindings} {fault : Fault}

/-- Of arguments that are forwarded leniently only a number can go wrong. -/
theorem tooLong_of_error
    (h : (forwardArguments arguments bindings false relationArguments).result = .error fault) :
    TooLong arguments ∧ fault = .numeralTooLong := by
  have hleaves : (faultsAmong fun fault => TooLong arguments ∧ fault = .numeralTooLong).Leaves
      bindings bindings false false fun part =>
        ∃ argument ∈ arguments, argument.1 ∈ relationArguments ∧ part.Within argument.2 := by
    refine leaves_faultsAmong nofun ?_ nofun
    rintro numeral ⟨argument, hargument, hforwarded, hwithin⟩ hlong
    exact ⟨⟨argument, hargument, hforwarded, numeral, hwithin, hlong⟩, rfl⟩
  exact hleaves.forwardOver relationArguments arguments
    (fun argument hargument hforwarded part hpart => ⟨argument, hargument, hforwarded, hpart⟩)
    [] fault h

theorem not_ok_of_tooLong (h : TooLong arguments) (strict : Bool)
    (forwarded : OrderedMap String Datum) :
    (forwardArguments arguments bindings strict relationArguments).result ≠ .ok forwarded := by
  intro hok
  obtain ⟨argument, hargument, hforwarded, numeral, hwithin, hlong⟩ := h
  obtain ⟨value, hvalue⟩ := ok_of_forwardOver hok argument hargument hforwarded
  obtain ⟨found, hfound⟩ := ok_of_within hwithin hvalue
  rw [NumeralTooLong] at hlong
  rw [Literal.convert, convertInt, if_pos hlong] at hfound
  cases hfound

theorem error_of_tooLong (h : TooLong arguments) :
    (forwardArguments arguments bindings false relationArguments).result =
      .error .numeralTooLong := by
  cases hresult : (forwardArguments arguments bindings false relationArguments).result with
  | ok forwarded => exact absurd hresult (not_ok_of_tooLong h false forwarded)
  | error fault => rw [(tooLong_of_error hresult).2]

end Arguments

/-! ### Walks -/

/-- A walk of known selections, through fragments of known selections, meets no others. -/
theorem Meets.known {context : Context} {outlook : Outlook}
    {passes sort : Option TypeName → FieldFilter → Selection → Prop} {type : Option TypeName}
    {filter : FieldFilter} {selections : List Selection}
    (h : Meets context outlook passes sort type filter selections)
    (hfragments : ∀ name fragment, context.definition? name = some fragment →
      Selection.Known fragment.selections) (hknown : Selection.Known selections) :
    Meets context outlook
      (fun type filter selection => passes type filter selection ∧ Selection.Known [selection])
      (fun type filter selection => sort type filter selection ∧ Selection.Known [selection])
      type filter selections := by
  induction h with
  | here h => exact .here ⟨h, hknown.first⟩
  | field hkind hplace _ ih => exact .field hkind hplace (ih hknown.nested)
  | spread hdefined hplace _ ih => exact .spread hdefined hplace (ih (hfragments _ _ hdefined))
  | inline hplace _ ih => exact .inline hplace (ih hknown.nested)
  | later h _ ih => exact .later ⟨h, hknown.first⟩ (ih hknown.later)

section Walks

variable {context : Context} {memory after : Memory} {type : Option TypeName}
  {filter : FieldFilter} (hdependable : context.Dependable memory)
  (hafter : context.outlook after = context.outlook memory)

include hdependable hafter

theorem not_ok_of_obstacle {selection : Selection}
    (h : Obstacle context memory type filter selection) (depth : Nat)
    (before written : ProjectionMap) :
    (writeOne context (enterPlain context depth) type filter before selection after).result ≠
      .ok written := by
  intro hone
  have hsteady := steady_of_dependable hdependable
  have hsettled := settled_enterPlain hsteady depth
  cases h with
  | unknown hkind hrelated hunknown =>
      rw [result_branch hsteady hsettled before hkind, hafter,
        placeBelow_of_unknown hdependable hrelated hunknown] at hone
      cases hone
  | tooLong hkind hlong =>
      -- even if there is a place below and its selections are walked
      rw [result_branch hsteady hsettled before hkind, bind_eq_ok] at hone
      obtain ⟨place, -, hone⟩ := hone
      obtain ⟨select, -, hone⟩ := bind_eq_ok.mp hone
      obtain ⟨forwarded, hforwarded, -⟩ := bind_eq_ok.mp hone
      exact not_ok_of_tooLong hlong _ forwarded hforwarded

theorem not_ok_of_obstructed {selections : List Selection}
    (h : Obstructed context memory type filter selections) (depth : Nat)
    (before written : ProjectionMap) :
    (writeAll context (enterPlain context depth) type filter before selections after).result ≠
      .ok written := by
  rw [Obstructed, ← hafter] at h
  exact not_ok_of_meets (steady_of_dependable hdependable)
    (fun depth _ _ before _ written hobstacle =>
      not_ok_of_obstacle hdependable hafter hobstacle depth before written) h depth before written

theorem not_obstructed_of_ok {selection : Selection} {depth : Nat} {before written : ProjectionMap}
    (h : (writeOne context (enterPlain context depth) type filter before selection after).result =
      .ok written) : ¬ Obstructed context memory type filter [selection] := by
  intro hobstructed
  refine not_ok_of_obstructed hdependable hafter hobstructed depth before written ?_
  rw [result_writeAll_singleton (steady_of_dependable hdependable), h]

variable (hlenient : context.options.strict = false)

include hlenient

omit hafter in
theorem stops_of_fails {fault : Fault} {selection : Selection}
    (hfilter : (context.outlook memory).filterAt type = .ok filter)
    (hknown : Selection.Known [selection])
    (h : Fails context (context.outlook memory)
      (fun type filter selections => ¬ Obstructed context memory type filter selections) fault type
      filter selection) : Stops context memory fault type filter selection := by
  cases h with
  | below hkind h =>
      obtain ⟨rfl, related, hrelated, hunknown, rfl⟩ :=
        unknown_of_placeBelow hdependable hfilter h
      exact .unknown hkind hrelated hunknown
  | arguments hkind hplace hwalked h =>
      rw [hlenient] at h
      obtain ⟨hlong, rfl⟩ := tooLong_of_error h
      exact .tooLong hkind hplace hwalked hlong
  | undefined _ hstrict _ =>
      rw [hlenient] at hstrict
      cases hstrict
  | spread _ h => exact absurd h (placeWithin_ne_error hdependable hfilter _ fault)
  | inline h => exact absurd h (placeWithin_ne_error hdependable hfilter _ fault)
  | other _ => exact absurd (.here ⟨_, rfl⟩) hknown

variable (hfragments : ∀ name fragment, context.definition? name = some fragment →
  Selection.Known fragment.selections)

include hfragments

/-- A walk that fails, and not for want of an end, is stopped. -/
theorem stopped_of_error {fault : Fault} (hfault : ¬ fault.Endless) {selections : List Selection}
    (hfilter : (context.outlook memory).filterAt type = .ok filter)
    (hknown : Selection.Known selections) {depth : Nat} {before : ProjectionMap}
    (h : (writeAll context (enterPlain context depth) type filter before selections after).result =
      .error fault) : StoppedBy context memory fault type filter selections := by
  have hmeets := meets_of_error (steady_of_dependable hdependable)
    (fun depth type filter before selections written hok hobstructed =>
      not_ok_of_obstructed hdependable hafter hobstructed depth before written hok)
    (fun _ _ _ _ _ _ => not_obstructed_of_ok hdependable hafter) hfault depth selections type
    filter before h
  rw [hafter] at hmeets
  exact (hmeets.known hfragments hknown).mono hfilter (fun _ _ _ _ => And.left)
    fun _ _ _ hfilter h => stops_of_fails hdependable hlenient hfilter h.2 h.1

/-- What is not obstructed is walked to its end, if it has one. -/
theorem ok_of_not_obstructed {selections : List Selection}
    (hfilter : (context.outlook memory).filterAt type = .ok filter)
    (hknown : Selection.Known selections)
    (hnot : ¬ Obstructed context memory type filter selections) {depth : Nat}
    {before : ProjectionMap}
    (hends : ¬ Endless (writeAll context (enterPlain context depth) type filter before selections
      after).result) :
    ∃ written, (writeAll context (enterPlain context depth) type filter before selections
      after).result = .ok written := by
  cases hresult : (writeAll context (enterPlain context depth) type filter before selections
      after).result with
  | ok written => exact ⟨written, rfl⟩
  | error fault =>
      rw [hresult, endless_error] at hends
      have hstopped := stopped_of_error hdependable hafter hlenient hfragments hends hfilter hknown
        hresult
      exact absurd (hstopped.obstructed hfilter) hnot

theorem error_of_stops {fault : Fault} {selection : Selection}
    (h : Stops context memory fault type filter selection)
    (hknown : Selection.Known [selection]) {depth : Nat} {before : ProjectionMap}
    (hends : ¬ Endless (writeOne context (enterPlain context depth) type filter before selection
      after).result) :
    (writeOne context (enterPlain context depth) type filter before selection after).result =
      .error fault := by
  have hsteady := steady_of_dependable hdependable
  have hsettled := settled_enterPlain hsteady depth
  cases h with
  | unknown hkind hrelated hunknown =>
      rw [result_branch hsteady hsettled before hkind, hafter,
        placeBelow_of_unknown hdependable hrelated hunknown]
      rfl
  | @tooLong _ below _ inner _ _ _ _ _ selections hkind hplace hbelow hlong =>
      -- arguments come last, so the walk below has to succeed first
      rw [result_branch hsteady hsettled before hkind, hafter, hplace, ok_bind, hlenient,
        error_of_tooLong hlong] at hends ⊢
      dsimp only at hends ⊢
      rw [endless_bind, not_or] at hends
      have hwalked : ∃ select, (writeAll context (enterPlain context depth) below inner []
          selections after).result = .ok select :=
        ok_of_not_obstructed hdependable hafter hlenient hfragments
          (Outlook.filterAt_of_placeBelow hplace) hknown.nested hbelow hends.1
      obtain ⟨select, hselect⟩ := hwalked
      rw [hselect]
      rfl

/-- A walk that is stopped by a fault fails with it, if there is an end to it. -/
theorem error_of_stopped {fault : Fault} {selections : List Selection}
    (h : StoppedBy context memory fault type filter selections)
    (hfilter : (context.outlook memory).filterAt type = .ok filter)
    (hknown : Selection.Known selections) {depth : Nat} {before : ProjectionMap}
    (hends : ¬ Endless (writeAll context (enterPlain context depth) type filter before selections
      after).result) :
    (writeAll context (enterPlain context depth) type filter before selections after).result =
      .error fault := by
  have hmeets : Meets context (context.outlook after)
      (fun type filter selection => ¬ Obstructed context memory type filter [selection] ∧
        Selection.Known [selection] ∧ (context.outlook memory).filterAt type = .ok filter)
      (fun type filter selection => Stops context memory fault type filter selection ∧
        Selection.Known [selection]) type filter selections := by
    rw [hafter]
    exact (h.known hfragments hknown).mono hfilter (fun _ _ _ hfilter h => ⟨h.1, h.2, hfilter⟩)
      fun _ _ _ _ => id
  have hsteady := steady_of_dependable hdependable
  refine error_of_meets hsteady ?_ (fun depth _ _ before _ h hends =>
    error_of_stops hdependable hafter hlenient hfragments h.1 h.2 hends) hmeets depth before hends
  rintro depth type filter before selection ⟨hnot, hknown, hfilter⟩ hends
  rw [← result_writeAll_singleton hsteady] at hends ⊢
  exact ok_of_not_obstructed hdependable hafter hlenient hfragments hfilter hknown hnot hends

end Walks

/-! ### Compilations -/

section Compilations

variable {context : Context} {memory : Memory} (hdependable : context.Dependable memory)

include hdependable

variable {nodes : List Field} (hnodes : nodes ≠ [])
  (hends : ¬ ReentersFromRoot context (context.outlook memory) (joined nodes))

include hnodes hends

/-- Nodes are compiled by a walk from the root, unless the root model is unknown. -/
theorem exists_walk_of_not_reenters :
    (∃ type, context.root = some type ∧ context.Unknown memory type ∧
      (compileFields context nodes memory).result = .error (.unknownType type)) ∨
    ∃ filter depth after, (context.outlook memory).filterAt context.root = .ok filter ∧
      context.outlook after = context.outlook memory ∧
      ¬ Endless (writeAll context (enterPlain context depth) context.root filter [] (joined nodes)
        after).result ∧
      (compileFields context nodes memory).result =
        (writeAll context (enterPlain context depth) context.root filter [] (joined nodes)
          after).result.map ProjectionParts.ofSelect := by
  have hsteady := steady_of_dependable hdependable
  have hnot : ¬ Endless (compileSelections context (some (joined nodes)) memory).result :=
    fun h => hends (reenters_of_endless_compileSelections hsteady
      (unaware_of_dependable hdependable) h)
  obtain ⟨depth, after, hafter, hwalk⟩ := exists_walk_of_not_endless hsteady hnot
  rw [result_compileFields hsteady hnodes]
  cases hroot : (context.outlook memory).root with
  | error fault =>
      obtain ⟨type, htype, hunknown, rfl⟩ := (root_eq_error hdependable).mp hroot
      refine Or.inl ⟨type, htype, hunknown, ?_⟩
      rw [hwalk, hroot]
      rfl
  | ok =>
      cases hfilter : (context.outlook memory).filterAt context.root with
      | error fault =>
          have hfails :=
            (root_eq_error hdependable).mpr (unknown_of_filterAt hdependable hfilter)
          rw [hroot] at hfails
          cases hfails
      | ok filter =>
          rw [hroot, ok_bind, hfilter, ok_bind] at hwalk
          rw [hwalk] at hnot ⊢
          exact Or.inr ⟨filter, depth, after, rfl, hafter, hnot, rfl⟩

theorem compileFields_ne_ok {filter : FieldFilter}
    (hfilter : (context.outlook memory).filterAt context.root = .ok filter)
    (h : Obstructed context memory context.root filter (joined nodes)) (projection : Projection) :
    (compileFields context nodes memory).result ≠ .ok projection := by
  intro hok
  rcases exists_walk_of_not_reenters hdependable hnodes hends with
    ⟨type, -, -, hresult⟩ | ⟨found, depth, after, hfound, hafter, -, hresult⟩
  · rw [hresult] at hok
    cases hok
  · rw [hfilter] at hfound
    cases hfound
    rw [hresult, map_eq_ok] at hok
    obtain ⟨written, hwritten, -⟩ := hok
    exact not_ok_of_obstructed hdependable hafter h depth [] written hwritten

theorem compileFields_eq_error (hlenient : context.options.strict = false)
    (hfragments : ∀ name fragment, context.definition? name = some fragment →
      Selection.Known fragment.selections) (hknown : Selection.Known (joined nodes))
    (fault : Fault) :
    (compileFields context nodes memory).result = .error fault ↔
      (∃ type, context.root = some type ∧ context.Unknown memory type ∧
        fault = .unknownType type) ∨
      ∃ filter, (context.outlook memory).filterAt context.root = .ok filter ∧
        StoppedBy context memory fault context.root filter (joined nodes) := by
  rcases exists_walk_of_not_reenters hdependable hnodes hends with
    ⟨type, htype, hunknown, hresult⟩ | ⟨filter, depth, after, hfilter, hafter, hnot, hresult⟩
  · rw [hresult]
    constructor
    · intro h
      cases h
      exact Or.inl ⟨type, htype, hunknown, rfl⟩
    · rw [htype]
      rintro (⟨other, hother, -, rfl⟩ | ⟨filter, hfilter, -⟩)
      · cases hother
        rfl
      · exact absurd hunknown (not_unknown_of_filterAt hdependable hfilter)
  · rw [hresult, map_eq_error]
    constructor
    · intro h
      rw [h, endless_error] at hnot
      exact Or.inr ⟨filter, hfilter,
        stopped_of_error hdependable hafter hlenient hfragments hnot hfilter hknown h⟩
    · rintro (⟨type, htype, hunknown, -⟩ | ⟨found, hfound, h⟩)
      · rw [htype] at hfilter
        exact absurd hunknown (not_unknown_of_filterAt hdependable hfilter)
      · rw [hfilter] at hfound
        cases hfound
        exact error_of_stopped hdependable hafter hlenient hfragments h hfilter hknown hnot

end Compilations

/-- A compilation that is not strict fails only with a type that is unknown or a number that is too
long.  It fails if the root model is unknown, or if its walk is obstructed, and then with the first
thing that stops it. -/
theorem compileFields_lenient {text : List Char} {document : Document}
    (hread : Document.read text = .ok document) {context : Context}
    (hfragments : ∀ name fragment, context.definition? name = some fragment →
      .fragment fragment ∈ document.definitions)
    {nodes : List Field} (hnodes : nodes ≠ []) (hfields : ∀ node ∈ nodes, document.HasField node)
    (hlenient : context.options.strict = false) {memory : Memory}
    (hdependable : context.Dependable memory)
    (hends : ¬ ReentersFromRoot context (context.outlook memory) (joined nodes)) :
    (∀ fault, (compileFields context nodes memory).result = .error fault →
      (∃ type, fault = .unknownType type) ∨ fault = .numeralTooLong) ∧
    ((∃ fault, (compileFields context nodes memory).result = .error fault) ↔
      (∃ type, context.root = some type ∧ context.Unknown memory type) ∨
        ∃ filter, (context.outlook memory).filterAt context.root = .ok filter ∧
          Obstructed context memory context.root filter (joined nodes)) ∧
    ∀ fault, (compileFields context nodes memory).result = .error fault ↔
      (∃ type, context.root = some type ∧ context.Unknown memory type ∧
        fault = .unknownType type) ∨
      ∃ filter, (context.outlook memory).filterAt context.root = .ok filter ∧
        StoppedBy context memory fault context.root filter (joined nodes) := by
  have hknown : Selection.Known (joined nodes) := by
    refine .of_forall fun selection hselection => ?_
    obtain ⟨node, hnode, hmem⟩ := List.mem_flatMap.mp hselection
    exact (Document.known_of_hasField hread (hfields node hnode)).of_mem selection hmem
  have hfails := compileFields_eq_error hdependable hnodes hends hlenient
    (fun name fragment h => Document.known_of_read hread _ (hfragments name fragment h)) hknown
  refine ⟨?_, ⟨?_, ?_⟩, hfails⟩
  · intro fault h
    rcases (hfails fault).mp h with ⟨type, -, -, rfl⟩ | ⟨_, -, hstopped⟩
    · exact Or.inl ⟨type, rfl⟩
    · obtain ⟨_, _, _, hstops⟩ := hstopped.exists_of_sort
      cases hstops with
      | unknown => exact Or.inl ⟨_, rfl⟩
      | tooLong => exact Or.inr rfl
  · rintro ⟨fault, h⟩
    rcases (hfails fault).mp h with ⟨type, htype, hunknown, -⟩ | ⟨filter, hfilter, hstopped⟩
    · exact Or.inl ⟨type, htype, hunknown⟩
    · exact Or.inr ⟨filter, hfilter, hstopped.obstructed hfilter⟩
  · rintro (⟨type, htype, hunknown⟩ | ⟨filter, hfilter, hobstructed⟩)
    · exact ⟨_, (hfails _).mpr (Or.inl ⟨type, htype, hunknown, rfl⟩)⟩
    · -- the first fault is not known, but there has to be one
      cases hresult : (compileFields context nodes memory).result with
      | error fault => exact ⟨fault, rfl⟩
      | ok projection =>
          exact absurd hresult
            (compileFields_ne_ok hdependable hnodes hends hfilter hobstructed projection)

/-- Of the posts of people only the name of their type is known. -/
def peopleOnly : Source :=
  Source.ofTable
    [("Person", { scalars := ["name"], relations := [("posts", .type (.text "Post"))] })]

theorem dependable_peopleOnly : peopleOnly.Dependable := by
  apply Source.dependable_ofTable
  intro entry hentry
  rw [List.mem_singleton.mp hentry]
  apply ModelFields.related_of_relations
  intro relation hrelation
  rw [List.mem_singleton.mp hrelation]
  exact ⟨_, rfl⟩

def personsPosts : Document where
  definitions :=
    [.operation
      { description := none, kind := .query, name := none, variableDefinitions := []
        directives := []
        selections :=
          [plainField "person" (some
            [.spread "Gone" [], .field none "name" [("take", .variable "n")] [] none,
              plainField "posts" (some [plainField "title" none])])] }]

theorem read_personsPosts :
    Document.read "{ person { ...Gone name(take: $n) posts { title } } }".toList =
      .ok personsPosts := by
  rfl

def aboutPeopleOnly (document : Document) : Context where
  fragments := some document.fragments
  bindings := none
  options := { exclude := [], target := some { source := peopleOnly, model := "Person" },
               strict := false }

def personNode : Field where
  aliasName := none
  name := "person"
  arguments := []
  directives := []
  selectionSet := some
    [.spread "Gone" [], .field none "name" [("take", .variable "n")] [] none,
      plainField "posts" (some [plainField "title" none])]

theorem ends_personsPosts :
    ¬ ReentersFromRoot (aboutPeopleOnly personsPosts)
      ((aboutPeopleOnly personsPosts).outlook .empty) (joined [personNode]) := by
  intro hreenters
  have hsteady : (aboutPeopleOnly personsPosts).Steady := by
    rintro target ⟨⟩
    exact dependable_peopleOnly.steady
  have hunaware : (aboutPeopleOnly personsPosts).Unaware := by
    rintro target ⟨⟩
    exact Source.unaware_ofTable _
  have hresult : (compilePlain (aboutPeopleOnly personsPosts) 0 (some (joined [personNode]))
      .empty).result = .error (.unknownType (.text "Post")) := by
    rfl
  have hendless : Endless (compilePlain (aboutPeopleOnly personsPosts) 0
      (some (joined [personNode])) .empty).result :=
    endless_compilePlain hsteady hunaware hreenters 0
  rw [hresult, endless_error] at hendless
  exact hendless

/-- Neither the fragment nor the variable is missed, but the posts are in the way. -/
theorem lenient_personsPosts :
    Document.read "{ person { ...Gone name(take: $n) posts { title } } }".toList =
        .ok personsPosts ∧
      ∃ fault, (compileFields (aboutPeopleOnly personsPosts) [personNode] .empty).result =
        .error fault := by
  refine ⟨read_personsPosts, ?_⟩
  have hdependable : (aboutPeopleOnly personsPosts).Dependable .empty := by
    rintro target ⟨⟩
    exact ⟨dependable_peopleOnly, .opened [] 0 nofun⟩
  have hfields : ∀ node ∈ [personNode], personsPosts.HasField node := by
    intro node hnode
    rw [List.mem_singleton.mp hnode]
    exact ⟨_, List.mem_cons_self .., .here rfl⟩
  have hfragments : ∀ name fragment,
      (aboutPeopleOnly personsPosts).definition? name = some fragment →
        .fragment fragment ∈ personsPosts.definitions :=
    fun _ _ => Document.fragment_of_fragments
  refine (compileFields_lenient read_personsPosts hfragments (List.cons_ne_nil _ _) hfields rfl
    hdependable ends_personsPosts).2.1.mpr (Or.inr ⟨_, rfl, ?_⟩)
  exact .later trivial (.later trivial (.here (.unknown rfl rfl ⟨_, rfl, rfl⟩)))

end Expansion

end QueryProjection
