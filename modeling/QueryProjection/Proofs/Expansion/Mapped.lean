import QueryProjection.Proofs.Expansion.Closed
import QueryProjection.Proofs.Expansion.Failures

/-!
# Where the relations of mapped classes lead

The relations of a mapped class are named after types, and its relationships lead to classes.  A
class that some type is registered with is found again under the name that its relation is given
(`registers_relatedType`).  A class without a type gives its title instead, which is meant to be a
name that no type has: whoever selects from it is then told that there is no such type
(`error_of_selectsInto`).

But titles and types are named independently.  A class without a type is mistaken if a type happens
to go by its title, and only then does a relation lead to a type of another class, whose fields are
projected instead (`relation_leads_to_target_iff`, `author_mistaken`).
-/

namespace QueryProjection

open Expansion

namespace Mapped.Mapping

def Registers (mapping : Mapping) (type className : String) : Prop :=
  OrderedMap.get? mapping.types type = some (some (.mapped className))

def Knows (mapping : Mapping) (type : String) : Prop :=
  ∃ fields, mapping.describe type = some fields

def target? (mapping : Mapping) (className field : String) : Option String :=
  (OrderedMap.get? mapping.catalogue.outlines className).bind fun outline =>
    OrderedMap.get? (mapping.relationships outline) field

/-- A class has no type, but there is a type that goes by its title. -/
def Mistaken (mapping : Mapping) (className : String) : Prop :=
  (∀ type, ¬ mapping.Registers type className) ∧ mapping.Knows (mapping.titleOf className)

variable {mapping : Mapping} {type className field target : String}

/-! ### The name of a target -/

theorem registers_relatedType (hdistinct : (OrderedMap.keys mapping.types).Nodup)
    (h : mapping.Registers type target) :
    mapping.Registers (mapping.relatedType target) target := by
  have hmem : (type, some (Backing.mapped target)) ∈ mapping.types.filter fun entry =>
      entry.2 == some (.mapped target) :=
    List.mem_filter.mpr ⟨OrderedMap.mem_of_get? h, by simp⟩
  cases hlast : (mapping.types.filter fun entry =>
      entry.2 == some (.mapped target)).getLast? with
  | none =>
      rw [List.getLast?_eq_none_iff.mp hlast] at hmem
      cases hmem
  | some entry =>
      obtain ⟨name, backing⟩ := entry
      obtain ⟨hentry, hbacking⟩ := List.mem_filter.mp (List.mem_of_getLast? hlast)
      rw [beq_iff_eq] at hbacking
      cases hbacking
      simp only [relatedType, hlast, Option.map_some, Option.getD_some]
      exact OrderedMap.get?_of_mem hdistinct hentry

theorem relatedType_of_not_registers (h : ∀ type, ¬ mapping.Registers type target)
    (hdistinct : (OrderedMap.keys mapping.types).Nodup) :
    mapping.relatedType target = mapping.titleOf target := by
  have hnone : (mapping.types.filter fun entry => entry.2 == some (.mapped target)) = [] := by
    rw [List.filter_eq_nil_iff]
    rintro ⟨name, backing⟩ hentry hbacking
    rw [beq_iff_eq] at hbacking
    cases hbacking
    exact h name (OrderedMap.get?_of_mem hdistinct hentry)
  simp only [relatedType, hnone, List.getLast?_nil, Option.map_none, Option.getD_none]

/-- A name that is known is that of the target, unless the target is mistaken. -/
theorem registers_of_knows_iff (hdistinct : (OrderedMap.keys mapping.types).Nodup) :
    (mapping.Knows (mapping.relatedType target) →
      mapping.Registers (mapping.relatedType target) target) ↔ ¬ mapping.Mistaken target := by
  by_cases hregistered : ∃ type, mapping.Registers type target
  · obtain ⟨type, htype⟩ := hregistered
    constructor
    · rintro - ⟨hnone, -⟩
      exact hnone type htype
    · intro _ _
      exact registers_relatedType hdistinct htype
  · rw [not_exists] at hregistered
    rw [relatedType_of_not_registers hregistered hdistinct]
    constructor
    · rintro h ⟨-, hknows⟩
      exact hregistered _ (h hknows)
    · intro hmistaken hknows
      exact absurd ⟨hregistered, hknows⟩ hmistaken

/-- The fields of a class name the targets of its relationships. -/
theorem exists_related (hregisters : mapping.Registers type className)
    (htarget : mapping.target? className field = some target) :
    ∃ fields, mapping.describe type = some fields ∧
      fields.related? field = some (.type (.text (mapping.relatedType target))) := by
  obtain ⟨outline, houtline, hfield⟩ := Option.bind_eq_some_iff.mp htarget
  refine ⟨mapping.classFields outline, ?_, ?_⟩
  · rw [describe, hregisters]
    simp only [Option.bind_some, id, backingFields, houtline, Option.map_some]
  · rw [ModelFields.related?, classFields, OrderedMap.get?_mapValues, hfield]
    rfl

/-! ### Selecting from what is unknown -/

theorem view_source (mapping : Mapping) (type : String) :
    mapping.source.view (.text type) = .ok (mapping.describe type) := rfl

theorem view_of_not_knows (h : ¬ mapping.Knows type) :
    mapping.source.view (.text type) = .ok none := by
  rw [view_source]
  cases hdescribe : mapping.describe type with
  | none => rfl
  | some fields => exact absurd ⟨fields, hdescribe⟩ h

end Mapped.Mapping

namespace Expansion

/-- At a place of a type, fields are selected of what a field of the type leads to. -/
inductive SelectsInto (type : TypeName) (field : String) :
    Option TypeName → FieldFilter → Selection → Prop where
  | intro {filter : FieldFilter} {aliasName : Option String} {arguments : List Argument}
      {directives : List Directive} {selections : List Selection}
      (hkept : filter.skips field = false) :
      SelectsInto type field (some type) filter
        (.field aliasName field arguments directives (some selections))

section Unknown

variable {context : Context} {target : Target} {memory : Memory} {type next : TypeName}
  {fields : ModelFields} {field : String} (htarget : context.options.target = some target)
  (hm : memory.Faithful target.source target.source.view)

include htarget hm

/-- A filter of a type has the fields that the source describes. -/
theorem fields_of_filterAt (hview : target.source.view type = .ok (some fields))
    {filter : FieldFilter} (h : (context.outlook memory).filterAt (some type) = .ok filter) :
    filter.fields = some fields := by
  simp only [Context.outlook, htarget] at h
  rcases hm.filterOf type context.options.exclude with ⟨given, known, hgiven, hknown, hfields, -⟩ |
    ⟨fault, hfault, -⟩
  · rw [hgiven] at h
    cases h
    rw [hview] at hknown
    cases hknown
    exact hfields
  · rw [hfault] at h
    cases h

theorem filterAt_of_view (hnext : target.source.view next = .ok none) :
    (context.outlook memory).filterAt (some next) = .error (.unknownType next) := by
  have hunknown : memory.fieldsOf target.source next = .error (.unknownType next) := by
    rw [Memory.fieldsOf, hm.described, hnext]
  simp only [Context.outlook, htarget]
  rcases hm.filterOf next context.options.exclude with ⟨_, _, -, hknown, -⟩ | ⟨fault, hgiven, hfault⟩
  · rw [hnext] at hknown
    cases hknown
  · rw [hunknown] at hfault
    cases hfault
    exact hgiven

variable (hview : target.source.view type = .ok (some fields))
  (hrelated : fields.related? field = some (.type next))
  (hnext : target.source.view next = .ok none)

include hview hrelated hnext

/-- Whoever selects from what a relation leads to is told that its type is unknown, before
anything of the selection is looked at. -/
theorem error_of_selectsInto (hsteady : context.Steady) (enter : Enter) {place : Option TypeName}
    {filter : FieldFilter} (before : ProjectionMap) {selection : Selection}
    (hfilter : (context.outlook memory).filterAt place = .ok filter)
    (h : SelectsInto type field place filter selection) :
    (writeOne context enter place filter before selection memory).result =
      .error (.unknownType next) := by
  obtain ⟨hkept⟩ := h
  rename_i aliasName arguments directives selections
  have hkind : filter.classify field = some .relation := by
    simp [FieldFilter.classify, hkept, fields_of_filterAt htarget hm hview hfilter,
      ModelFields.knows, hrelated]
  have hfinds := Context.finds_typeBelow hsteady (some type) field .relation
  have hbelow : (context.typeBelow (some type) field .relation memory).result =
      .ok (some next) := by
    rw [hfinds.result memory]
    simp only [Context.outlook, htarget, Memory.below, fieldsOf_of_knows hview hm, hrelated]
  have hselect : (selectionSet context enter (some next) selections
      (context.typeBelow (some type) field .relation memory).memory).result =
        .error (.unknownType next) := by
    rw [selectionSet, Compile.bind_of_error]
    rw [(Context.finds_filterAt hsteady (some next)).result, hfinds.keeps memory]
    exact filterAt_of_view htarget hm hnext
  rw [writeOne_branch before hkind, Compile.bind_of_ok hbelow, Compile.bind_of_error hselect]

/-- A compilation that comes to such a selection, whatever it met before, does not succeed. -/
theorem not_ok_of_selectsInto (hsteady : context.Steady) {nodes : List Field} (hnodes : nodes ≠ [])
    {filter : FieldFilter} (hfilter : (context.outlook memory).filterAt context.root = .ok filter)
    (h : Meets context (context.outlook memory) (fun _ _ _ => True) (SelectsInto type field)
      context.root filter (joined nodes)) (projection : Projection) :
    (compileFields context nodes memory).result ≠ .ok projection := by
  intro hok
  rw [result_compileFields hsteady hnodes, map_eq_ok] at hok
  obtain ⟨written, hwritten, -⟩ := hok
  have hends : ¬ Endless (compileSelections context (some (joined nodes)) memory).result := by
    rw [hwritten]
    exact not_endless_ok written
  obtain ⟨depth, after, hafter, hwalk⟩ := exists_walk_of_not_endless hsteady hends
  rw [hwritten] at hwalk
  obtain ⟨-, -, hwalk⟩ := bind_eq_ok.mp hwalk.symm
  obtain ⟨given, hgiven, hwalk⟩ := bind_eq_ok.mp hwalk
  rw [hfilter] at hgiven
  cases hgiven
  -- the walk starts where the root has been checked, and finds out the same from there
  rw [← hafter] at h hfilter
  have hmeets : Meets context (context.outlook after) (fun _ _ _ => True)
      (fun place filter selection => (context.outlook after).filterAt place = .ok filter ∧
        SelectsInto type field place filter selection) context.root filter (joined nodes) :=
    h.mono hfilter (fun _ _ _ _ _ => trivial) fun _ _ _ hplace hinto => ⟨hplace, hinto⟩
  refine not_ok_of_meets hsteady ?_ hmeets depth [] written hwalk
  rintro depth place filter before selection other ⟨hplace, hinto⟩ hone
  have hsettled := settled_writeOne hsteady (settled_enterPlain hsteady depth) place filter before
    selection
  rw [hsettled.result_eq hafter, error_of_selectsInto htarget hm hview hrelated hnext hsteady _
    before (hafter ▸ hplace) hinto] at hone
  cases hone

end Unknown

end Expansion

namespace Mapped.Mapping

variable {mapping : Mapping} {type className field target : String}

/-- A relation of a registered class is named after a type.  If the name is known, the type is
registered with the target of the relationship, unless the target is mistaken.  If it is not known,
whoever selects from the target is told so, and no compilation that comes to do this succeeds. -/
theorem relation_leads_to_target_iff (hdistinct : (OrderedMap.keys mapping.types).Nodup)
    (hregisters : mapping.Registers type className)
    (htarget : mapping.target? className field = some target) {start memory : Memory}
    (hcache : start.cache = []) (hfilters : start.filters = [])
    (hserved : Served mapping.source start memory) :
    ∃ fields name, mapping.describe type = some fields ∧
      fields.related? field = some (.type (.text name)) ∧
      ((mapping.Knows name → mapping.Registers name target) ↔ ¬ mapping.Mistaken target) ∧
      (¬ mapping.Knows name → ∀ (context : Context) (model : String),
        context.options.target = some { source := mapping.source, model } →
        (∀ enter place filter before selection,
          (context.outlook memory).filterAt place = .ok filter →
          SelectsInto (.text type) field place filter selection →
          (writeOne context enter place filter before selection memory).result =
            .error (.unknownType (.text name))) ∧
        ∀ nodes filter, nodes ≠ [] → (context.outlook memory).filterAt context.root = .ok filter →
          Meets context (context.outlook memory) (fun _ _ _ => True)
            (SelectsInto (.text type) field) context.root filter (joined nodes) →
          ∀ projection, (compileFields context nodes memory).result ≠ .ok projection) := by
  have hm := hserved.view (steady_source mapping) hcache hfilters
  obtain ⟨fields, hdescribe, hrelated⟩ := exists_related hregisters htarget
  refine ⟨fields, mapping.relatedType target, hdescribe, hrelated,
    registers_of_knows_iff hdistinct, fun hunknown context model hcontext => ?_⟩
  have hview : mapping.source.view (.text type) = .ok (some fields) := by
    rw [view_source, hdescribe]
  have hnext := view_of_not_knows hunknown
  have hsteady : context.Steady := by
    intro given hgiven
    rw [hcontext] at hgiven
    cases hgiven
    exact steady_source mapping
  constructor
  · intro enter place filter before selection hfilter hinto
    exact error_of_selectsInto hcontext hm hview hrelated hnext hsteady enter before hfilter hinto
  · intro nodes filter hnodes hfilter hmeets projection
    exact not_ok_of_selectsInto hcontext hm hview hrelated hnext hsteady hnodes hfilter hmeets
      projection

/-- Users write posts, and there are accounts.  Types are registered with some of the classes. -/
def blog (types : OrderedMap String (Option Backing)) : Mapping where
  classes :=
    [{ name := "User", table := some "people", base := none
       attributes := [("id", .column "id"), ("name", .column "name")] },
     { name := "PostModel", table := some "posts", base := none
       attributes := [("id", .column "id"), ("author_id", .column "author_id"),
         ("author", .relationship "User" none)] },
     { name := "Account", table := some "accounts", base := none
       attributes := [("id", .column "id"), ("secret", .column "secret")] }]
  tables := []
  types := types

def postsAlone : Mapping := blog [("Post", some (.mapped "PostModel"))]

/-- The type of accounts has the name of the class of users. -/
def accountsAsUsers : Mapping :=
  blog [("Post", some (.mapped "PostModel")), ("User", some (.mapped "Account"))]

def secretsOfAuthors : Field where
  aliasName := none
  name := "posts"
  arguments := []
  directives := []
  selectionSet := some [plainField "author" (some [plainField "id" none, plainField "secret" none])]

def fromPosts (mapping : Mapping) : Context where
  fragments := none
  bindings := none
  options := { exclude := [], target := some { source := mapping.source, model := "Post" },
               strict := false }

/-- With a type for posts alone, nothing can be selected from their authors. -/
theorem author_unknown :
    (OrderedMap.keys postsAlone.types).Nodup ∧ postsAlone.Registers "Post" "PostModel" ∧
      postsAlone.target? "PostModel" "author" = some "User" ∧
      Served postsAlone.source .empty .empty ∧ ¬ postsAlone.Mistaken "User" ∧
      ∀ projection,
        (compileFields (fromPosts postsAlone) [secretsOfAuthors] .empty).result ≠ .ok projection := by
  have hdistinct : (OrderedMap.keys postsAlone.types).Nodup := by decide
  have hregisters : postsAlone.Registers "Post" "PostModel" := rfl
  have htarget : postsAlone.target? "PostModel" "author" = some "User" := rfl
  have hserved : Served postsAlone.source .empty .empty := .start
  obtain ⟨fields, name, hdescribe, hrelated, hiff, hfails⟩ :=
    relation_leads_to_target_iff hdistinct hregisters htarget rfl rfl hserved
  cases hdescribe
  cases hrelated
  have hunknown : ¬ postsAlone.Knows "User" := by
    rintro ⟨fields, hfields⟩
    cases hfields
  refine ⟨hdistinct, hregisters, htarget, hserved, hiff.mp fun hknows => absurd hknows hunknown,
    fun projection => ?_⟩
  exact (hfails hunknown _ "Post" rfl).2 [secretsOfAuthors] _ (List.cons_ne_nil _ _) rfl
    (.here (.intro rfl)) projection

/-- Where accounts go by the name of the class of users, the authors of posts lead to them: the type
is known, but it is that of another class, and the secrets of accounts are selected. -/
theorem author_mistaken :
    accountsAsUsers.Registers "Post" "PostModel" ∧
      accountsAsUsers.target? "PostModel" "author" = some "User" ∧
      (∃ fields, accountsAsUsers.describe "Post" = some fields ∧
        fields.related? "author" = some (.type (.text "User"))) ∧
      accountsAsUsers.Knows "User" ∧ ¬ accountsAsUsers.Registers "User" "User" ∧
      (compileFields (fromPosts accountsAsUsers) [secretsOfAuthors] .empty).result =
        .ok (.ofSelect [("author", .relation [("id", .leaf), ("secret", .leaf)] [])]) := by
  have hother : OrderedMap.get? accountsAsUsers.types "User" ≠ some (some (.mapped "User")) := by
    decide
  exact ⟨rfl, rfl, ⟨_, rfl, rfl⟩, ⟨_, rfl⟩, hother, rfl⟩

end Mapped.Mapping

end QueryProjection
