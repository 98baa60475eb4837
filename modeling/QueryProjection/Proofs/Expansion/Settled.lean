import Mathlib.Data.List.Forall2
import QueryProjection.Proofs.Expansion.Walk
import QueryProjection.Proofs.Registry.Outlook

/-!
# Compiling with a source that does not change

While a source does not change its mind, a compilation sees the same models throughout,
however much is remembered on the way.  What it sees is its `Outlook`: three functions that
say everything a walk ever finds out about types.  A computation is `Settled` if it depends
on the memory through the outlook alone and leaves the outlook as it is.  Every walk is
(`settled_selectionSet`), so its steps can all be read as if they started in one and the same
memory, and the memory disappears from the statements about walks.
-/

namespace QueryProjection

def Context.Steady (context : Context) : Prop :=
  ∀ target, context.options.target = some target → target.source.Steady

/-- What can be found out about types. -/
structure Outlook where
  /-- the filter of a place -/
  filterAt : Option TypeName → Except Fault FieldFilter
  /-- the type of the place below a field of some kind -/
  typeBelow : Option TypeName → String → FieldKind → Except Fault (Option TypeName)
  /-- is a type condition a known model? -/
  knows : String → Except Fault Bool
  /-- is the root model known? -/
  root : Except Fault Unit

/-- The type of the place inside a fragment: the condition, if there is a type to begin with
and the condition is known. -/
def Outlook.typeWithin (outlook : Outlook) (type : Option TypeName) (condition : Option String) :
    Except Fault (Option TypeName) :=
  match type, condition with
  | some outer, some inner =>
      match outlook.knows inner with
      | .ok known => .ok (if known then some (.text inner) else some outer)
      | .error fault => .error fault
  | _, _ => .ok type

/-- A look-up of which only some part is used. -/
theorem Compile.ofLookup_map {α β : Type} (lookup : Lookup α) (f : α → β) (memory : Memory) :
    (do let value ← Compile.ofLookup lookup; return f value : Compile β) memory =
      { result := (lookup.run memory).1.map f
        notices := []
        memory := (lookup.run memory).2 } := by
  cases hlooked : (lookup.run memory).1 with
  | error fault =>
      have h : (Compile.ofLookup lookup memory).result = .error fault := hlooked
      rw [Compile.bind_of_error h]
      rfl
  | ok value =>
      have h : (Compile.ofLookup lookup memory).result = .ok value := hlooked
      rw [Compile.bind_of_ok h]
      rfl

namespace Context

def outlook (context : Context) (memory : Memory) : Outlook :=
  match context.options.target with
  | none =>
      { filterAt := fun _ => .ok { fields := none, exclude := context.options.exclude }
        typeBelow := fun _ _ _ => .ok none
        knows := fun _ => .ok false
        root := .ok () }
  | some target =>
      { filterAt := fun type =>
          match type with
          | none => .ok { fields := none, exclude := context.options.exclude }
          | some name => memory.filterOf target.source name context.options.exclude
        typeBelow := fun type field kind =>
          match kind, type with
          | .relation, some name => memory.below target.source name field
          | _, _ => .ok none
        knows := fun condition =>
          (memory.described target.source (.text condition)).map Option.isSome
        root := (memory.fieldsOf target.source (.text target.model)).map fun _ => () }

variable {context : Context} {target : Target}

theorem outlook_of_alike (htarget : context.options.target = some target)
    {memory memory' : Memory}
    (h : Memory.Alike target.source context.options.exclude memory memory') :
    context.outlook memory = context.outlook memory' := by
  simp only [outlook, htarget]
  congr 1
  · funext type
    cases type with
    | none => rfl
    | some name => exact h.filterOf name
  · funext type field kind
    cases kind with
    | scalar => rfl
    | relation =>
        cases type with
        | none => rfl
        | some name => exact h.below name field
  · funext condition
    rw [h.described]
  · rw [h.fieldsOf]

/-! ### What the steps of a walk find out -/

/-- A step that reports nothing and gives what can be read off the outlook, which stays. -/
structure Finds (context : Context) {α : Type} (step : Compile α)
    (answer : Outlook → Except Fault α) : Prop where
  result : ∀ memory, (step memory).result = answer (context.outlook memory)
  quiet : ∀ memory, (step memory).notices = []
  keeps : ∀ memory, context.outlook (step memory).memory = context.outlook memory

theorem Finds.done {α : Type} {value : α} {answer : Outlook → Except Fault α}
    (h : ∀ memory, answer (context.outlook memory) = .ok value) :
    context.Finds (pure value) answer :=
  ⟨fun memory => (h memory).symm, fun _ => rfl, fun _ => rfl⟩

theorem Finds.ofLookup {α : Type} {lookup : Lookup α} {answer : Outlook → Except Fault α}
    (hresult : ∀ memory, (lookup.run memory).1 = answer (context.outlook memory))
    (hkeeps : ∀ memory, context.outlook (lookup.run memory).2 = context.outlook memory) :
    context.Finds (Compile.ofLookup lookup) answer :=
  ⟨hresult, fun _ => rfl, hkeeps⟩

theorem Finds.ofLookup_map {α β : Type} {lookup : Lookup α} {f : α → β}
    {answer : Outlook → Except Fault β}
    (hresult : ∀ memory, (lookup.run memory).1.map f = answer (context.outlook memory))
    (hkeeps : ∀ memory, context.outlook (lookup.run memory).2 = context.outlook memory) :
    context.Finds (do let value ← Compile.ofLookup lookup; return f value) answer := by
  refine ⟨fun memory => ?_, fun memory => ?_, fun memory => ?_⟩
  · rw [Compile.ofLookup_map]
    exact hresult memory
  · rw [Compile.ofLookup_map]
  · rw [Compile.ofLookup_map]
    exact hkeeps memory

theorem finds_filterAt (hsteady : context.Steady) (type : Option TypeName) :
    context.Finds (context.filterAt type) fun outlook => outlook.filterAt type := by
  cases htarget : context.options.target with
  | none =>
      simp only [filterAt, htarget]
      exact Finds.done fun memory => by simp only [outlook, htarget]
  | some target =>
      cases type with
      | none =>
          simp only [filterAt, htarget]
          exact Finds.done fun memory => by simp only [outlook, htarget]
      | some name =>
          simp only [filterAt, htarget]
          refine Finds.ofLookup_map (fun memory => ?_) fun memory => ?_
          · simp only [outlook, htarget]
            exact Registry.filter_fieldFilter target.source name _ memory
          · exact outlook_of_alike htarget
              (Registry.alike_fieldFilter (hsteady target htarget) name memory)

theorem finds_typeBelow (hsteady : context.Steady) (type : Option TypeName) (field : String)
    (kind : FieldKind) :
    context.Finds (context.typeBelow type field kind) fun outlook =>
      outlook.typeBelow type field kind := by
  cases htarget : context.options.target with
  | none =>
      have hnone : context.typeBelow type field kind = pure none := by
        cases kind <;> simp only [typeBelow, htarget]
      rw [hnone]
      exact Finds.done fun memory => by simp only [outlook, htarget]
  | some target =>
      cases kind with
      | scalar => exact Finds.done fun memory => by simp only [outlook, htarget]
      | relation =>
          cases type with
          | none =>
              simp only [typeBelow, htarget]
              exact Finds.done fun memory => by simp only [outlook, htarget]
          | some name =>
              simp only [typeBelow, htarget]
              refine Finds.ofLookup (fun memory => ?_) fun memory => ?_
              · simp only [outlook, htarget]
                rw [Registry.typeBelow_run]
              · exact outlook_of_alike htarget
                  (Registry.alike_typeBelow (hsteady target htarget) name field memory)

theorem finds_knows (hsteady : context.Steady) (htarget : context.options.target = some target)
    (condition : String) :
    context.Finds (Compile.ofLookup (Registry.hasType target.source (.text condition)))
      fun outlook => outlook.knows condition := by
  refine Finds.ofLookup (fun memory => ?_) fun memory => ?_
  · simp only [outlook, htarget]
    rw [Registry.hasType_run]
  · exact outlook_of_alike htarget
      (Registry.alike_hasType (hsteady target htarget) (.text condition) memory)

theorem finds_checkRoot (hsteady : context.Steady) :
    context.Finds context.checkRoot fun outlook => outlook.root := by
  cases htarget : context.options.target with
  | none =>
      simp only [checkRoot, htarget]
      exact Finds.done fun memory => by simp only [outlook, htarget]
  | some target =>
      simp only [checkRoot, htarget]
      refine Finds.ofLookup_map (fun memory => ?_) fun memory => ?_
      · simp only [outlook, htarget]
        rw [Registry.modelFields_run_fst]
      · exact outlook_of_alike htarget
          (Registry.alike_modelFields (hsteady target htarget) _ memory)

end Context

/-! ### Runs that go alongside each other -/

namespace Expansion

/-- When names of types, faults and notices count as alike. -/
structure Likeness where
  names : TypeName → TypeName → Prop
  faults : Fault → Fault → Prop
  notices : Notice → Notice → Prop

namespace Likeness

inductive Ends (like : Likeness) {α : Type} (values : α → α → Prop) :
    Except Fault α → Except Fault α → Prop where
  | ok {a b : α} (h : values a b) : Ends like values (.ok a) (.ok b)
  | error {fault fault' : Fault} (h : like.faults fault fault') :
      Ends like values (.error fault) (.error fault')

/-- What is related after a function is related by way of the function. -/
theorem Ends.of_map {like : Likeness} {α β : Type} {f : α → β} {values : β → β → Prop}
    {result result' : Except Fault α} (h : like.Ends values (result.map f) (result'.map f)) :
    like.Ends (fun a b => values (f a) (f b)) result result' := by
  cases result with
  | ok a =>
      cases result' with
      | ok b =>
          cases h with
          | ok hvalues => exact .ok hvalues
      | error fault => cases h
  | error fault =>
      cases result' with
      | ok b => cases h
      | error fault' =>
          cases h with
          | error hfaults => exact .error hfaults

/-- Two outcomes are alike and leave the outlook as it was. -/
structure Outcomes (like : Likeness) (context : Context) (outlook : Outlook) {α : Type}
    (values : α → α → Prop) (first second : Outcome α) : Prop where
  ends : like.Ends values first.result second.result
  reports : List.Forall₂ like.notices first.notices second.notices
  keeps : context.outlook first.memory = outlook
  keeps' : context.outlook second.memory = outlook

/-- Two computations have outcomes that are alike, if they start with the same outlook. -/
def Alongside (like : Likeness) (context : Context) {α : Type} (values : α → α → Prop)
    (first second : Compile α) : Prop :=
  ∀ outlook memory memory', context.outlook memory = outlook → context.outlook memory' = outlook →
    like.Outcomes context outlook values (first memory) (second memory')

variable {like : Likeness} {context : Context}

theorem Alongside.done {α : Type} {values : α → α → Prop} {a b : α} (h : values a b) :
    like.Alongside context values (pure a) (pure b) :=
  fun _ _ _ hm hm' => ⟨.ok h, .nil, hm, hm'⟩

theorem Alongside.step {α β : Type} {values : α → α → Prop} {values' : β → β → Prop}
    {first first' : Compile α} {second second' : α → Compile β}
    (h : like.Alongside context values first first')
    (hsteps : ∀ a b, values a b → like.Alongside context values' (second a) (second' b)) :
    like.Alongside context values' (first >>= second) (first' >>= second') := by
  intro outlook memory memory' hm hm'
  obtain ⟨hends, hreports, hkeeps, hkeeps'⟩ := h outlook memory memory' hm hm'
  generalize hr : (first memory).result = result at hends
  generalize hr' : (first' memory').result = result' at hends
  cases hends with
  | error hfaults =>
      rw [Compile.bind_of_error hr, Compile.bind_of_error hr']
      exact ⟨.error hfaults, hreports, hkeeps, hkeeps'⟩
  | ok hvalues =>
      have hafter := hsteps _ _ hvalues outlook _ _ hkeeps hkeeps'
      rw [Compile.bind_of_ok hr, Compile.bind_of_ok hr']
      exact ⟨hafter.ends, List.rel_append hreports hafter.reports, hafter.keeps, hafter.keeps'⟩

theorem Alongside.note {notice notice' : Notice} (h : like.notices notice notice') :
    like.Alongside context Eq (Compile.note notice) (Compile.note notice') :=
  fun _ _ _ hm hm' => ⟨.ok rfl, .cons h .nil, hm, hm'⟩

theorem Alongside.stop {α : Type} {values : α → α → Prop} {fault fault' : Fault}
    (h : like.faults fault fault') :
    like.Alongside context values (Compile.stop fault) (Compile.stop fault') :=
  fun _ _ _ hm hm' => ⟨.error h, .nil, hm, hm'⟩

/-- What is found out alongside each other, if what the outlook says is alike. -/
theorem Alongside.finds {α : Type} {values : α → α → Prop} {first second : Compile α}
    {answer answer' : Outlook → Except Fault α} (h : context.Finds first answer)
    (h' : context.Finds second answer')
    (hends : ∀ memory, like.Ends values (answer (context.outlook memory))
      (answer' (context.outlook memory))) :
    like.Alongside context values first second := by
  intro outlook memory memory' hm hm'
  refine ⟨?_, ?_, (h.keeps memory).trans hm, (h'.keeps memory').trans hm'⟩
  · rw [h.result, h'.result, hm', ← hm]
    exact hends memory
  · rw [h.quiet, h'.quiet]
    exact .nil

/-- Likenesses that a walk respects: types that are alike have one key, nothing is unlike
itself, and what is said of types that are alike is alike. -/
structure Lawful (like : Likeness) : Prop where
  key : ∀ {name name'}, like.names name name' → name.key = name'.key
  names_refl : ∀ name, like.names name name
  faults_refl : ∀ fault, like.faults fault fault
  notices_refl : ∀ notice, like.notices notice notice
  unknownType : ∀ {name name'}, like.names name name' →
    like.faults (.unknownType name) (.unknownType name')
  fieldDropped : ∀ {type type'} field, Option.Rel like.names type type' →
    like.notices (.fieldDropped field type) (.fieldDropped field type')
  conditionUnknown : ∀ {name name'} condition, like.names name name' →
    like.notices (.conditionUnknown condition name) (.conditionUnknown condition name')
  endlessExpansion : ∀ {type type'} fragment, Option.Rel like.names type type' →
    like.faults (.endlessExpansion fragment type) (.endlessExpansion fragment type')

namespace Lawful

variable (hl : like.Lawful)

include hl

theorem ends_refl {α : Type} {values : α → α → Prop} (hvalues : ∀ a, values a a)
    (result : Except Fault α) : like.Ends values result result := by
  cases result with
  | ok a => exact .ok (hvalues a)
  | error fault => exact .error (hl.faults_refl fault)

theorem ends_fieldsOf (memory : Memory) (source : Source) {name name' : TypeName}
    (h : like.names name name') :
    like.Ends Eq (memory.fieldsOf source name) (memory.fieldsOf source name') := by
  unfold Memory.fieldsOf
  rw [Memory.described_of_key (hl.key h)]
  split
  · exact .ok rfl
  · exact .error (hl.unknownType h)
  · exact .error (hl.faults_refl _)

theorem ends_filterOf (memory : Memory) (source : Source) (exclude : List String)
    {name name' : TypeName} (h : like.names name name') :
    like.Ends Eq (memory.filterOf source name exclude) (memory.filterOf source name' exclude) := by
  unfold Memory.filterOf
  rw [hl.key h]
  split
  · exact .ok rfl
  · have hfields := hl.ends_fieldsOf memory source h
    generalize memory.fieldsOf source name = fields at hfields ⊢
    generalize memory.fieldsOf source name' = fields' at hfields ⊢
    cases hfields with
    | ok hsame => exact .ok (by rw [hsame])
    | error hfaults => exact .error hfaults

theorem types_refl (type : Option TypeName) : Option.Rel like.names type type := by
  cases type with
  | none => exact .none
  | some name => exact .some (hl.names_refl name)

theorem ends_below (memory : Memory) (source : Source) (field : String) {name name' : TypeName}
    (h : like.names name name') :
    like.Ends (Option.Rel like.names) (memory.below source name field)
      (memory.below source name' field) := by
  unfold Memory.below
  have hfields := hl.ends_fieldsOf memory source h
  generalize memory.fieldsOf source name = fields at hfields ⊢
  generalize memory.fieldsOf source name' = fields' at hfields ⊢
  cases hfields with
  | error hfaults => exact .error hfaults
  | ok hsame =>
      rw [hsame]
      exact hl.ends_refl hl.types_refl _

end Lawful

theorem Alongside.ofLogged {α : Type} (hl : like.Lawful) (computation : Logged α) :
    like.Alongside context Eq (Compile.ofLogged computation) (Compile.ofLogged computation) :=
  fun _ _ _ hm hm' => ⟨hl.ends_refl (fun _ => rfl) _,
    List.forall₂_same.mpr fun notice _ => hl.notices_refl notice, hm, hm'⟩

def correspondence (like : Likeness) (context : Context) : Correspondence where
  types := Option.Rel like.names
  rel := like.Alongside context
  done := Alongside.done
  step := Alongside.step

theorem alongside_typeWithin (hl : like.Lawful) (hsteady : context.Steady)
    {type type' : Option TypeName} (ht : Option.Rel like.names type type')
    (condition : Option String) :
    like.Alongside context (Option.Rel like.names) (context.typeWithin type condition)
      (context.typeWithin type' condition) := by
  cases htarget : context.options.target with
  | none =>
      simp only [Context.typeWithin, htarget]
      exact .done ht
  | some target =>
      cases ht with
      | none =>
          simp only [Context.typeWithin, htarget]
          exact .done .none
      | @some name name' hnames =>
          cases condition with
          | none =>
              simp only [Context.typeWithin, htarget]
              exact .done (.some hnames)
          | some inner =>
              simp only [Context.typeWithin, htarget]
              have hknows := Context.finds_knows hsteady htarget inner
              refine Alongside.step (.finds hknows hknows fun _ => hl.ends_refl (fun _ => rfl) _)
                fun known known' hsame => ?_
              subst hsame
              cases known with
              | true => exact .done (.some (hl.names_refl _))
              | false =>
                  exact Alongside.step (.note (hl.conditionUnknown inner hnames)) fun _ _ _ =>
                    .done (.some hnames)

theorem contexts (hl : like.Lawful) (hsteady : context.Steady) :
    (like.correspondence context).Contexts context context where
  filterAt := by
    intro type type' ht
    refine Alongside.finds (Context.finds_filterAt hsteady type)
      (Context.finds_filterAt hsteady type') fun memory => ?_
    cases htarget : context.options.target with
    | none => simp only [Context.outlook, htarget]; exact .ok rfl
    | some target =>
        cases ht with
        | none => exact hl.ends_refl (fun _ => rfl) _
        | some hnames =>
            simp only [Context.outlook, htarget]
            exact hl.ends_filterOf memory _ _ hnames
  typeBelow := by
    intro type type' field kind ht
    refine Alongside.finds (Context.finds_typeBelow hsteady type field kind)
      (Context.finds_typeBelow hsteady type' field kind) fun memory => ?_
    cases htarget : context.options.target with
    | none => simp only [Context.outlook, htarget]; exact .ok .none
    | some target =>
        cases kind with
        | scalar => simp only [Context.outlook, htarget]; exact .ok .none
        | relation =>
            cases ht with
            | none => simp only [Context.outlook, htarget]; exact .ok .none
            | some hnames =>
                simp only [Context.outlook, htarget]
                exact hl.ends_below memory _ field hnames
  typeWithin condition ht := alongside_typeWithin hl hsteady ht condition
  fragment? _ := Correspondence.found_of_eq (fun _ => trivial) (Alongside.ofLogged hl _)
  forwarded _ := Alongside.ofLogged hl _
  dropped field ht := Alongside.note (hl.fieldDropped field ht)
  unexpected _ := Alongside.stop (hl.faults_refl _)

theorem Lawful.map_key (hl : like.Lawful) {type type' : Option TypeName}
    (ht : Option.Rel like.names type type') : type.map TypeName.key = type'.map TypeName.key := by
  cases ht with
  | none => rfl
  | some h => simp only [Option.map_some, hl.key h]

theorem enters_enterWithin (hl : like.Lawful) (hsteady : context.Steady) (depth : Nat)
    (active : List (String × Option Key)) :
    (like.correspondence context).Enters (enterWithin context depth active)
      (enterWithin context depth active) :=
  Correspondence.enterWithin (contexts hl hsteady) hl.map_key
    (fun name ht => Alongside.stop (hl.endlessExpansion name ht)) depth active

end Likeness

/-! ### Settled computations -/

def Likeness.exact : Likeness := { names := Eq, faults := Eq, notices := Eq }

theorem Likeness.eq_of_rel {type type' : Option TypeName}
    (h : Option.Rel Likeness.exact.names type type') : type = type' := by
  cases h with
  | none => rfl
  | some h => exact congrArg some h

theorem Likeness.eq_of_ends {α : Type} {result result' : Except Fault α}
    (h : Likeness.exact.Ends Eq result result') : result = result' := by
  cases h with
  | ok hvalues => exact congrArg Except.ok hvalues
  | error hfaults => exact congrArg Except.error hfaults

theorem Likeness.lawful_exact : Likeness.exact.Lawful where
  key h := congrArg TypeName.key h
  names_refl _ := rfl
  faults_refl _ := rfl
  notices_refl _ := rfl
  unknownType h := congrArg Fault.unknownType h
  fieldDropped field h := congrArg (Notice.fieldDropped field) (eq_of_rel h)
  conditionUnknown condition h := congrArg (Notice.conditionUnknown condition) h
  endlessExpansion fragment h := congrArg (Fault.endlessExpansion fragment) (eq_of_rel h)

/-- Depends on the memory through the outlook alone, and leaves the outlook as it is. -/
def Settled (context : Context) {α : Type} (computation : Compile α) : Prop :=
  Likeness.exact.Alongside context Eq computation computation

variable {context : Context} {α β : Type}

theorem Settled.keeps {computation : Compile α} (h : Settled context computation)
    (memory : Memory) : context.outlook (computation memory).memory = context.outlook memory :=
  (h _ memory memory rfl rfl).keeps

theorem Settled.result_eq {computation : Compile α} (h : Settled context computation)
    {memory memory' : Memory} (hm : context.outlook memory = context.outlook memory') :
    (computation memory).result = (computation memory').result :=
  Likeness.eq_of_ends (h _ memory memory' hm rfl).ends

theorem Settled.step {first : Compile α} {second : α → Compile β}
    (h : Settled context first) (hsecond : ∀ value, Settled context (second value)) :
    Settled context (first >>= second) :=
  Likeness.Alongside.step h fun value _ heq => heq ▸ hsecond value

theorem Settled.done (value : α) : Settled context (pure value) := Likeness.Alongside.done rfl

theorem Settled.finds {step : Compile α} {answer : Outlook → Except Fault α}
    (h : context.Finds step answer) : Settled context step :=
  Likeness.Alongside.finds h h fun _ => Likeness.lawful_exact.ends_refl (fun _ => rfl) _

theorem Settled.ofLogged (computation : Logged α) :
    Settled context (Compile.ofLogged computation) :=
  Likeness.Alongside.ofLogged Likeness.lawful_exact computation

theorem settled_typeWithin (hsteady : context.Steady) (type : Option TypeName)
    (condition : Option String) : Settled context (context.typeWithin type condition) := by
  intro outlook memory memory' hm hm'
  have h := Likeness.alongside_typeWithin Likeness.lawful_exact hsteady
    (Likeness.lawful_exact.types_refl type) condition outlook memory memory' hm hm'
  refine ⟨?_, h.reports, h.keeps, h.keeps'⟩
  have hends := h.ends
  generalize (context.typeWithin type condition memory).result = result at hends ⊢
  generalize (context.typeWithin type condition memory').result = result' at hends ⊢
  cases hends with
  | ok hvalues => exact .ok (Likeness.eq_of_rel hvalues)
  | error hfaults => exact .error hfaults

def SettledEnter (context : Context) (enter : Enter) : Prop :=
  ∀ name fragment type, Settled context (enter name fragment type)

section Walks

variable {enter : Enter} (hsteady : context.Steady) (henter : SettledEnter context enter)

include hsteady henter

theorem settled_writeAll (type : Option TypeName) (filter : FieldFilter)
    (before : ProjectionMap) (selections : List Selection) :
    Settled context (writeAll context enter type filter before selections) := by
  refine Correspondence.writeAll (Likeness.contexts Likeness.lawful_exact hsteady)
    (fun name fragment within within' _ hwithin => ?_) selections
    (Likeness.lawful_exact.types_refl type) rfl before
  rw [← Likeness.eq_of_rel hwithin]
  exact henter name fragment within

theorem settled_selectionSet (type : Option TypeName) (selections : List Selection) :
    Settled context (selectionSet context enter type selections) :=
  Settled.step (Settled.finds (Context.finds_filterAt hsteady type)) fun filter =>
    settled_writeAll hsteady henter type filter [] selections

end Walks

theorem settled_enterWithin (hsteady : context.Steady) (depth : Nat)
    (active : List (String × Option Key)) :
    SettledEnter context (enterWithin context depth active) :=
  fun name fragment type =>
    Likeness.enters_enterWithin Likeness.lawful_exact hsteady depth active name fragment type type
      trivial (Likeness.lawful_exact.types_refl type)

/-! ### A small model to try things on -/

def people : Source :=
  Source.ofTable
    [("Person",
      { scalars := ["id", "name"]
        relations := [("friend", .type (.text "Person")), ("posts", .type (.text "Post"))] }),
     ("Post", { scalars := ["id", "title"], relations := [] })]

def aboutPeople (fragments : List (String × String × List Selection)) : Context where
  fragments := some (fragments.map fun (name, condition, selections) =>
    (name, { description := none, name, condition, directives := [], selections }))
  bindings := none
  options :=
    { exclude := [], target := some { source := people, model := "Person" }, strict := false }

/-- A field with a selection set, if it has one, and nothing else. -/
def plainField (name : String) (selections : Option (List Selection)) : Selection :=
  .field none name [] [] selections

theorem steady_aboutPeople (fragments : List (String × String × List Selection)) :
    (aboutPeople fragments).Steady := by
  intro target htarget
  cases htarget
  exact Source.steady_ofTable _

end Expansion

end QueryProjection
