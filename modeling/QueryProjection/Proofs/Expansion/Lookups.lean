import Mathlib.Data.Option.Defs
import QueryProjection.Proofs.Conversion
import QueryProjection.Proofs.Expansion.Walk
import QueryProjection.Proofs.Registry.Outlook
import QueryProjection.Session

/-!
# Walks that correspond because look-ups do

Two contexts that have the same query, and sources that may differ, are walked in the same steps.
What the walks find out of their sources comes down to three look-ups: is a type known, what are
its fields, what is its filter.  So wherever these correspond, walks do (`Sourced.contexts`), and
so does whatever else may be asked of a registry (`Looks.answer`).

A step that looks nothing up leaves the memory as it is and may fail too, but it never says
that a type is unknown: only look-ups do.
-/

namespace QueryProjection

theorem Compile.ofLookup_apply {α : Type} (lookup : Lookup α) (memory : Memory) :
    Compile.ofLookup lookup memory =
      { result := (lookup.run memory).1, notices := [], memory := (lookup.run memory).2 } :=
  rfl

theorem Compile.ofLookup_bind {α β : Type} (first : Lookup α) (second : α → Lookup β) :
    Compile.ofLookup (first >>= second) =
      Compile.ofLookup first >>= fun value => Compile.ofLookup (second value) := by
  funext memory
  have hrun := Registry.run_bind first second memory
  cases h : first.run memory with
  | mk result after =>
      rw [h] at hrun
      cases result with
      | error fault =>
          have hfirst : (Compile.ofLookup first memory).result = .error fault := by
            simp only [Compile.ofLookup, h]
          rw [Compile.bind_of_error hfirst]
          simp only [Compile.ofLookup, hrun, h]
      | ok value =>
          have hfirst : (Compile.ofLookup first memory).result = .ok value := by
            simp only [Compile.ofLookup, h]
          rw [Compile.bind_of_ok hfirst]
          simp only [Compile.ofLookup, hrun, h, List.nil_append]

def Context.targeting (context : Context) (source : Source) (model : String) : Context :=
  { context with options := { context.options with target := some { source, model } } }

namespace Expansion.Correspondence

/-- What looks nothing up corresponds to itself. -/
structure Unlooked (R : Correspondence) : Prop where
  logged : ∀ {α : Type} (computation : Logged α),
    (∀ type, computation.result ≠ .error (.unknownType type)) →
    R.rel Eq (Compile.ofLogged computation) (Compile.ofLogged computation)

/-- Types correspond to themselves alone, and what looks nothing up corresponds to itself. -/
structure Plain (R : Correspondence) : Prop extends R.Unlooked where
  types : ∀ {type type'}, R.types type type' ↔ type = type'
  filters : ∀ filter, R.filters filter filter

structure Describes (R : Correspondence) (source source' : Source) : Prop where
  types : source'.types = source.types
  hasType : ∀ type, R.rel Eq (Compile.ofLookup (Registry.hasType source type))
    (Compile.ofLookup (Registry.hasType source' type))
  modelFields : ∀ type, R.rel Eq (Compile.ofLookup (Registry.modelFields source type))
    (Compile.ofLookup (Registry.modelFields source' type))

structure Looks (R : Correspondence) (issued : IssuedFilter → IssuedFilter → Prop)
    (source source' : Source) : Prop extends R.Describes source source' where
  filters : ∀ {first second}, issued first second → R.filters first.filter second.filter
  fieldFilter : ∀ type exclude, R.rel issued
    (Compile.ofLookup (Registry.fieldFilter source type exclude))
    (Compile.ofLookup (Registry.fieldFilter source' type exclude))

variable {R : Correspondence} {issued : IssuedFilter → IssuedFilter → Prop}

theorem Plain.types_refl (h : R.Plain) (type : Option TypeName) : R.types type type :=
  h.types.mpr rfl

namespace Unlooked

variable (h : R.Unlooked)

include h

theorem note (notice : Notice) : R.rel Eq (Compile.note notice) (Compile.note notice) :=
  h.logged (Logged.note notice) fun _ hfault => nomatch hfault

/-- A fault that ends both computations leaves no values to be related. -/
theorem stop {α : Type} {values : α → α → Prop} {fault : Fault}
    (hfault : ∀ type, fault ≠ .unknownType type) :
    R.rel values (Compile.stop fault) (Compile.stop fault) := by
  have hstop : R.rel Eq (Compile.stop fault : Compile Empty) (Compile.stop fault) := by
    refine h.logged (Logged.stop fault) fun type hresult => ?_
    cases hresult
    exact hfault type rfl
  have hstopped :
      R.rel values (Compile.stop fault >>= Empty.elim) (Compile.stop fault >>= Empty.elim) :=
    R.step hstop fun value => value.elim
  exact hstopped

theorem found (name : String) (fragments : Option FragmentTable) (strict : Bool)
    (hdefined : ∀ fragment, (fragments.bind fun table => OrderedMap.get? table name) =
      some fragment → R.defined name fragment) :
    R.rel (R.Found name) (Compile.ofLogged (resolveFragment name fragments strict))
      (Compile.ofLogged (resolveFragment name fragments strict)) := by
  unfold resolveFragment
  cases hfound : fragments.bind fun table => OrderedMap.get? table name with
  | some fragment =>
      refine R.done ⟨rfl, fun defined hsame => ?_⟩
      cases hsame
      exact hdefined fragment hfound
  | none =>
      cases strict with
      | true => exact h.stop fun _ hfault => nomatch hfault
      | false =>
          show R.rel (R.Found name)
            (do Compile.note (.fragmentUndefined name); return none)
            (do Compile.note (.fragmentUndefined name); return none)
          refine step_eq (h.note _) fun _ => R.done ⟨rfl, fun _ hsame => nomatch hsame⟩

theorem forwarded (context : Context) (arguments : List Argument) :
    R.rel Eq (context.forwarded arguments) (context.forwarded arguments) :=
  h.logged _ fun _ hfault => nomatch ofValue_forwardArguments hfault

end Unlooked

section Sources

variable {source source' : Source} (hp : R.Plain) (h : R.Describes source source')
  (type : TypeName) (field : String)

include h

theorem Describes.related :
    R.rel Eq (Compile.ofLookup (Registry.related source type field))
      (Compile.ofLookup (Registry.related source' type field)) := by
  rw [Registry.related, Registry.related, Compile.ofLookup_bind, Compile.ofLookup_bind]
  exact step_eq (h.modelFields type) fun _ => R.done rfl

include hp

theorem Describes.typeBelow :
    R.rel Eq (Compile.ofLookup (Registry.typeBelow source type field))
      (Compile.ofLookup (Registry.typeBelow source' type field)) := by
  rw [Registry.typeBelow, Registry.typeBelow, Compile.ofLookup_bind, Compile.ofLookup_bind]
  refine step_eq (h.related type field) fun found => ?_
  cases found with
  | none => exact R.done rfl
  | some target =>
      cases target with
      | type name => exact R.done rfl
      | untyped => exact R.done rfl
      | unusable value => exact hp.stop fun _ hfault => by cases hfault

end Sources

/-! ### Walks -/

/-- Two contexts that differ in their sources at most, and what is found out about types from these
corresponds. -/
structure Described (R : Correspondence) (context context' : Context) : Prop where
  fragments : context'.fragments = context.fragments
  bindings : context'.bindings = context.bindings
  exclude : context'.options.exclude = context.options.exclude
  strict : context'.options.strict = context.options.strict
  target : Option.Rel (fun target target' =>
      target'.model = target.model ∧ R.Describes target.source target'.source)
    context.options.target context'.options.target

theorem Described.self {context : Context}
    (h : ∀ target, context.options.target = some target →
      R.Describes target.source target.source) :
    R.Described context context := by
  refine ⟨rfl, rfl, rfl, rfl, ?_⟩
  cases htarget : context.options.target with
  | none => exact .none
  | some target => exact .some ⟨rfl, h target htarget⟩

namespace Described

variable {context context' : Context} (hp : R.Plain) (h : R.Described context context')

include h

theorem root : context'.root = context.root := by
  have htargets := h.target
  unfold Context.root
  generalize context.options.target = target, context'.options.target = target' at htargets
  cases htargets with
  | none => rfl
  | some hsame => simp only [Option.map_some, hsame.1]

theorem checkRoot : R.rel Eq context.checkRoot context'.checkRoot := by
  have htargets := h.target
  unfold Context.checkRoot
  generalize context.options.target = target, context'.options.target = target' at htargets
  cases htargets with
  | none => exact R.done rfl
  | some hsame =>
      simp only [hsame.1]
      exact step_eq (hsame.2.modelFields _) fun _ => R.done rfl

include hp

theorem typeBelow (type : Option TypeName) (field : String) (kind : FieldKind) :
    R.rel Eq (context.typeBelow type field kind) (context'.typeBelow type field kind) := by
  have htargets := h.target
  unfold Context.typeBelow
  generalize context.options.target = target, context'.options.target = target' at htargets
  cases kind with
  | scalar => exact R.done rfl
  | relation =>
      cases htargets with
      | none => exact R.done rfl
      | some hsame =>
          cases type with
          | none => exact R.done rfl
          | some name => exact hsame.2.typeBelow hp name field

theorem typeWithin (type : Option TypeName) (condition : Option String) :
    R.rel Eq (context.typeWithin type condition) (context'.typeWithin type condition) := by
  have htargets := h.target
  unfold Context.typeWithin
  generalize context.options.target = target, context'.options.target = target' at htargets
  cases htargets with
  | none => exact R.done rfl
  | some hsame =>
      cases type with
      | none => exact R.done rfl
      | some outer =>
          cases condition with
          | none => exact R.done rfl
          | some inner =>
              refine step_eq (hsame.2.hasType (.text inner)) fun known => ?_
              cases known with
              | true => exact R.done rfl
              | false => exact step_eq (hp.note _) fun _ => R.done rfl

theorem fragment? (hdefined : ∀ name fragment, context.definition? name = some fragment →
      R.defined name fragment) (name : String) :
    R.rel (R.Found name) (context.fragment? name) (context'.fragment? name) := by
  unfold Context.fragment?
  rw [h.fragments, h.strict]
  exact hp.found name _ _ fun fragment hfound => hdefined name fragment hfound

theorem forwarded (arguments : List Argument) :
    R.rel Eq (context.forwarded arguments) (context'.forwarded arguments) := by
  have hsame : context'.forwarded arguments = context.forwarded arguments := by
    simp only [Context.forwarded, h.bindings, h.strict]
  rw [hsame]
  exact hp.toUnlooked.forwarded context arguments

/-- Walks correspond, if their filters do. -/
theorem contexts
    (hfilterAt : ∀ type, R.rel R.filters (context.filterAt type) (context'.filterAt type))
    (hdefined : ∀ name fragment, context.definition? name = some fragment →
      R.defined name fragment) :
    R.Contexts context context' where
  filterAt ht := hp.types.mp ht ▸ hfilterAt _
  typeBelow field kind ht := weaken (hp.types.mp ht ▸ h.typeBelow hp _ field kind)
    fun _ _ hsame => hp.types.mpr hsame
  typeWithin condition ht := weaken (hp.types.mp ht ▸ h.typeWithin hp _ condition)
    fun _ _ hsame => hp.types.mpr hsame
  fragment? := h.fragment? hp hdefined
  forwarded := h.forwarded hp
  dropped _ ht := hp.types.mp ht ▸ hp.note _
  unexpected _ := hp.stop fun _ hfault => nomatch hfault

omit hp in
theorem budget (memory : Memory) :
    Expansion.budget context memory = Expansion.budget context' memory := by
  have htargets := h.target
  unfold Expansion.budget
  rw [h.fragments]
  generalize context.options.target = target, context'.options.target = target' at htargets
  cases htargets with
  | none => rfl
  | some hsame => simp only [hsame.2.types]

/-- Compilations correspond as well, if what is remembered at their start does. -/
theorem compilations
    (hfilterAt : ∀ type, R.rel R.filters (context.filterAt type) (context'.filterAt type))
    (hdefined : ∀ name fragment, R.defined name fragment)
    (hremembered : R.rel Eq Compile.remembered Compile.remembered) :
    R.Compilations context context' where
  toContexts := h.contexts hp hfilterAt fun name fragment _ => hdefined name fragment
  key ht := hp.types.mp ht ▸ rfl
  endless _ ht := hp.types.mp ht ▸ hp.stop fun _ hfault => nomatch hfault
  root := h.root ▸ hp.types_refl _
  checkRoot := h.checkRoot
  remembered := hremembered
  budget := h.budget

end Described

/-- Two contexts that differ in their sources at most, and from these all look-ups correspond. -/
structure Sourced (R : Correspondence) (issued : IssuedFilter → IssuedFilter → Prop)
    (context context' : Context) : Prop extends R.Described context context' where
  looks : Option.Rel (fun target target' => R.Looks issued target.source target'.source)
    context.options.target context'.options.target

theorem Sourced.targeting {source source' : Source} (h : R.Looks issued source source')
    (context : Context) (model : String) :
    R.Sourced issued (context.targeting source model) (context.targeting source' model) :=
  ⟨⟨rfl, rfl, rfl, rfl, .some ⟨rfl, h.toDescribes⟩⟩, .some h⟩

theorem Sourced.self {context : Context}
    (h : ∀ target, context.options.target = some target →
      R.Looks issued target.source target.source) :
    R.Sourced issued context context := by
  refine ⟨.self fun target htarget => (h target htarget).toDescribes, ?_⟩
  cases htarget : context.options.target with
  | none => exact .none
  | some target => exact .some (h target htarget)

namespace Sourced

variable {context context' : Context} (hp : R.Plain) (h : R.Sourced issued context context')

include h hp

theorem filterAt (type : Option TypeName) :
    R.rel R.filters (context.filterAt type) (context'.filterAt type) := by
  have hlooks := h.looks
  unfold Context.filterAt
  rw [h.exclude]
  generalize context.options.target = target, context'.options.target = target' at hlooks
  cases hlooks with
  | none => exact R.done (hp.filters _)
  | some hsame =>
      cases type with
      | none => exact R.done (hp.filters _)
      | some name =>
          exact R.step (hsame.fieldFilter name _) fun _ _ hissued =>
            R.done (hsame.filters hissued)

theorem contexts (hdefined : ∀ name fragment, context.definition? name = some fragment →
      R.defined name fragment) :
    R.Contexts context context' :=
  h.toDescribed.contexts hp (h.filterAt hp) hdefined

theorem compilations (hdefined : ∀ name fragment, R.defined name fragment)
    (hremembered : R.rel Eq Compile.remembered Compile.remembered) :
    R.Compilations context context' :=
  h.toDescribed.compilations hp (h.filterAt hp) hdefined hremembered

end Sourced

/-! ### Requests -/

inductive AnswersAlike (issued : IssuedFilter → IssuedFilter → Prop) : Answer → Answer → Prop where
  | same (answer : Answer) : AnswersAlike issued answer answer
  | filter {first second : IssuedFilter} (h : issued first second) :
      AnswersAlike issued (.filter first) (.filter second)

/-- Requests to two sources correspond, if compilations do. -/
theorem Looks.answer {source source' : Source} (h : R.Looks issued source source')
    (hcompile : ∀ (context : Context) (model : String) (nodes : List Field),
      R.rel Eq (compileFields (context.targeting source model) nodes)
        (compileFields (context.targeting source' model) nodes))
    {request : Request} {compile : Compile Answer}
    (hanswer : Session.answer source request = .ok compile) :
    ∃ compile', Session.answer source' request = .ok compile' ∧
      R.rel (AnswersAlike issued) compile compile' := by
  cases request with
  | hasType type =>
      cases hanswer
      exact ⟨_, rfl, step_eq (h.hasType type) fun _ => R.done (.same _)⟩
  | modelFields type =>
      cases hanswer
      exact ⟨_, rfl, step_eq (h.modelFields type) fun _ => R.done (.same _)⟩
  | related type field =>
      cases hanswer
      exact ⟨_, rfl, step_eq (h.related type field) fun _ => R.done (.same _)⟩
  | fieldFilter type exclude =>
      cases hanswer
      exact ⟨_, rfl, R.step (h.fieldFilter type exclude) fun _ _ hissued =>
        R.done (.filter hissued)⟩
  | compile exclude model strict fragments bindings nodes =>
      cases model with
      | none => cases hanswer
      | some model =>
          cases exclude with
          | text value => cases hanswer
          | names names =>
              cases hanswer
              refine ⟨_, rfl, step_eq (hcompile
                { fragments, bindings, options := { exclude := names, target := none, strict } }
                model nodes) fun _ => R.done (.same _)⟩

end Expansion.Correspondence

end QueryProjection
