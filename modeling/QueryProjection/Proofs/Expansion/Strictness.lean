import QueryProjection.Proofs.Conversion
import QueryProjection.Proofs.Expansion.Settled

/-!
# Strict compilation is lenient compilation, cut short

In lenient compilation what cannot be resolved is left out and reported; in strict
compilation it is a fault.  Up to there nothing differs: the same steps are made in the same
order, with the same notices and the same questions to the source.  So the strict outcome
can be read off the lenient one.  If no notice of the lenient run stands for something that
strictness refuses, the two outcomes are the same, and otherwise the strict run ends with the
fault that belongs to the first such notice, having reported what was reported before it.

`Curtails` is this relation between two computations.  It is handed on from step to step, so
it holds of the conversion of values (`leaves_strictValues`), of the walk, and of all that is
made of walks.  The source may change its mind at will: both runs ask it the same questions
at the same moments.
-/

namespace QueryProjection

/-- The fault with which strict compilation ends where the lenient one makes this notice. -/
def Notice.refusal? : Notice → Option Fault
  | .fragmentUndefined fragment => some (.undefinedFragment fragment)
  | .variableUnbound name => some (.unboundVariable name)
  | .valueUnrecognized kind => some (.unrecognizedValue kind)
  | .fieldDropped _ _ | .conditionUnknown _ _ | .selectionIgnored _ => none

theorem Notice.isSome_refusal? (notice : Notice) :
    notice.refusal?.isSome = notice.isDegradation := by
  cases notice <;> rfl

/-- The notices before the first one that strictness refuses. -/
def reportedBefore (notices : List Notice) : List Notice :=
  notices.takeWhile fun notice => !notice.isDegradation

theorem reportedBefore_append_of_none {notices : List Notice}
    (h : notices.find? Notice.isDegradation = none) (more : List Notice) :
    reportedBefore (notices ++ more) = notices ++ reportedBefore more := by
  refine List.takeWhile_append_of_pos fun notice hmem => ?_
  have hnot := List.find?_eq_none.mp h notice hmem
  simpa using hnot

theorem reportedBefore_append_of_some {notices : List Notice} {notice : Notice}
    (h : notices.find? Notice.isDegradation = some notice) (more : List Notice) :
    reportedBefore (notices ++ more) = reportedBefore notices := by
  induction notices with
  | nil => cases h
  | cons first rest ih =>
      cases hfirst : first.isDegradation with
      | true => simp [reportedBefore, hfirst]
      | false =>
          rw [List.find?_cons_of_neg (by simp [hfirst])] at h
          have hrest := ih h
          simp only [reportedBefore] at hrest ⊢
          simp [hfirst, hrest]

theorem Compile.exists_notices_bind {α β : Type} (first : Compile α) (second : α → Compile β)
    (memory : Memory) :
    ∃ more, ((first >>= second) memory).notices = (first memory).notices ++ more := by
  cases h : (first memory).result with
  | error fault => exact ⟨[], by rw [Compile.bind_of_error h, List.append_nil]⟩
  | ok value => exact ⟨_, by rw [Compile.bind_of_ok h]⟩

theorem Compile.ofLogged_bind {α β : Type} (first : Logged α) (second : α → Logged β) :
    Compile.ofLogged (first >>= second) =
      Compile.ofLogged first >>= fun value => Compile.ofLogged (second value) := by
  obtain ⟨result, notices⟩ := first
  funext memory
  cases result <;> rfl

namespace Expansion

/-- A strict outcome is the lenient one, cut short where strictness first refuses something. -/
inductive Curtailed {α : Type} (values : α → α → Prop) (lenient strict : Outcome α) : Prop where
  | same (hnone : lenient.notices.find? Notice.isDegradation = none)
      (hends : Likeness.exact.Ends values lenient.result strict.result)
      (hnotices : strict.notices = lenient.notices) (hmemory : strict.memory = lenient.memory)
  | refused {notice : Notice} {fault : Fault}
      (hfirst : lenient.notices.find? Notice.isDegradation = some notice)
      (hrefusal : notice.refusal? = some fault) (hresult : strict.result = .error fault)
      (hnotices : strict.notices = reportedBefore lenient.notices)

def Curtails {α : Type} (values : α → α → Prop) (lenient strict : Compile α) : Prop :=
  ∀ memory, Curtailed values (lenient memory) (strict memory)

namespace Curtails

variable {α β : Type} {values : α → α → Prop} {values' : β → β → Prop}

theorem done {a b : α} (h : values a b) : Curtails values (pure a) (pure b) :=
  fun _ => .same rfl (.ok h) rfl rfl

theorem step {lenient strict : Compile α} {lenient' strict' : α → Compile β}
    (h : Curtails values lenient strict)
    (hsteps : ∀ a b, values a b → Curtails values' (lenient' a) (strict' b)) :
    Curtails values' (lenient >>= lenient') (strict >>= strict') := by
  intro memory
  cases h memory with
  | refused hfirst hrefusal hresult hnotices =>
      -- the lenient run goes on, but only adds to what it has reported
      obtain ⟨more, hmore⟩ := Compile.exists_notices_bind lenient lenient' memory
      rw [Compile.bind_of_error hresult]
      refine .refused ?_ hrefusal rfl ?_
      · rw [hmore, List.find?_append, hfirst, Option.some_or]
      · rw [hmore, reportedBefore_append_of_some hfirst]
        exact hnotices
  | same hnone hends hnotices hmemory =>
      generalize hr : (lenient memory).result = result at hends
      generalize hr' : (strict memory).result = result' at hends
      cases hends with
      | error hfaults =>
          rw [Compile.bind_of_error hr, Compile.bind_of_error hr']
          exact .same hnone (.error hfaults) hnotices hmemory
      | @ok a b hvalues =>
          have hafter := hsteps a b hvalues (lenient memory).memory
          rw [Compile.bind_of_ok hr, Compile.bind_of_ok hr', hnotices, hmemory]
          cases hafter with
          | same hnone' hends' hnotices' hmemory' =>
              refine .same ?_ hends' ?_ hmemory'
              · rw [List.find?_append, hnone, hnone']
                rfl
              · rw [hnotices']
          | refused hfirst hrefusal hresult hnotices' =>
              refine .refused ?_ hrefusal hresult ?_
              · rw [List.find?_append, hnone, hfirst]
                rfl
              · rw [reportedBefore_append_of_none hnone, hnotices']

theorem step_eq {lenient strict : Compile α} {lenient' strict' : α → Compile β}
    (h : Curtails Eq lenient strict) (hsteps : ∀ a, Curtails values' (lenient' a) (strict' a)) :
    Curtails values' (lenient >>= lenient') (strict >>= strict') :=
  h.step fun a _ heq => heq ▸ hsteps a

/-- A step that strictness has nothing to refuse in is the same for both. -/
theorem refl {step : Compile α}
    (h : ∀ memory, (step memory).notices.find? Notice.isDegradation = none) :
    Curtails Eq step step :=
  fun memory =>
    .same (h memory) (Likeness.lawful_exact.ends_refl (fun _ => rfl) _) rfl rfl

theorem ofLookup (lookup : Lookup α) :
    Curtails Eq (Compile.ofLookup lookup) (Compile.ofLookup lookup) :=
  refl fun _ => rfl

theorem note {notice : Notice} (h : notice.isDegradation = false) :
    Curtails Eq (Compile.note notice) (Compile.note notice) :=
  refl fun _ => by simp [Compile.note, h]

theorem stop (fault : Fault) :
    Curtails values (Compile.stop fault) (Compile.stop fault) :=
  fun _ => .same rfl (.error rfl) rfl rfl

/-- Where the lenient run leaves something out with a notice, the strict one refuses it. -/
theorem refuse {notice : Notice} {fault : Fault} (h : notice.refusal? = some fault)
    (rest : Compile α) :
    Curtails values (do Compile.note notice; rest) (Compile.stop fault) := by
  intro memory
  have hdegradation : notice.isDegradation = true := by
    rw [← Notice.isSome_refusal?, h]
    rfl
  obtain ⟨more, hmore⟩ := Compile.exists_notices_bind (Compile.note notice) (fun _ => rest) memory
  have hfirst : (notice :: more).find? Notice.isDegradation = some notice :=
    List.find?_cons_of_pos hdegradation
  refine .refused (hmore ▸ hfirst) h rfl ?_
  rw [hmore]
  simp [Compile.note, Compile.stop, reportedBefore, hdegradation]

end Curtails

/-! ### Values and arguments -/

def CurtailsLogged {α : Type} (lenient strict : Logged α) : Prop :=
  Curtails Eq (Compile.ofLogged lenient) (Compile.ofLogged strict)

namespace CurtailsLogged

variable {α β : Type}

theorem done (value : α) : CurtailsLogged (pure value) (pure value) := Curtails.done rfl

theorem step {lenient strict : Logged α} {lenient' strict' : α → Logged β}
    (h : CurtailsLogged lenient strict)
    (hsteps : ∀ value, CurtailsLogged (lenient' value) (strict' value)) :
    CurtailsLogged (lenient >>= lenient') (strict >>= strict') := by
  unfold CurtailsLogged
  rw [Compile.ofLogged_bind, Compile.ofLogged_bind]
  exact Curtails.step_eq h hsteps

theorem refuse {notice : Notice} {fault : Fault} (h : notice.refusal? = some fault) (value : α) :
    CurtailsLogged (do Logged.note notice; return value) (Logged.stop fault) := by
  unfold CurtailsLogged
  rw [Compile.ofLogged_bind]
  exact Curtails.refuse h _

end CurtailsLogged

theorem curtails_resolveVariable (name : String) (bindings : Option Bindings) :
    CurtailsLogged (resolveVariable name bindings false) (resolveVariable name bindings true) := by
  unfold resolveVariable
  split
  · exact .done _
  · exact .refuse rfl none

theorem curtails_resolveFragment (name : String) (fragments : Option FragmentTable) :
    CurtailsLogged (resolveFragment name fragments false)
      (resolveFragment name fragments true) := by
  unfold resolveFragment
  split
  · exact .done _
  · exact .refuse rfl none

theorem curtails_convertInt (numeral : String) :
    CurtailsLogged (convertInt numeral) (convertInt numeral) := by
  unfold convertInt
  simp only
  split
  · exact Curtails.stop _
  · exact .done _

def strictValues : LoggedRelation where
  rel := CurtailsLogged
  done := CurtailsLogged.done
  step := CurtailsLogged.step

theorem leaves_strictValues (bindings : Option Bindings) :
    strictValues.Leaves bindings bindings false true fun _ => True where
  bound name _ := curtails_resolveVariable name bindings
  int numeral _ := curtails_convertInt numeral
  other kind _ := by
    simp only [Literal.convert]
    exact CurtailsLogged.refuse rfl none

/-! ### Walks and compilations -/

end Expansion

def Context.withStrict (context : Context) (strict : Bool) : Context :=
  { context with options := { context.options with strict } }

namespace Expansion

def strictness : Correspondence where
  types := Eq
  rel := Curtails
  done := Curtails.done
  step := Curtails.step

variable (context : Context)

theorem curtails_filterAt (type : Option TypeName) :
    Curtails Eq ((context.withStrict false).filterAt type)
      ((context.withStrict true).filterAt type) := by
  simp only [Context.filterAt, Context.withStrict]
  split
  · exact (Curtails.ofLookup _).step_eq fun _ => .done rfl
  · exact .done rfl

theorem curtails_typeBelow (type : Option TypeName) (field : String) (kind : FieldKind) :
    Curtails Eq ((context.withStrict false).typeBelow type field kind)
      ((context.withStrict true).typeBelow type field kind) := by
  simp only [Context.typeBelow, Context.withStrict]
  split
  · exact .ofLookup _
  · exact .done rfl

theorem curtails_typeWithin (type : Option TypeName) (condition : Option String) :
    Curtails Eq ((context.withStrict false).typeWithin type condition)
      ((context.withStrict true).typeWithin type condition) := by
  simp only [Context.typeWithin, Context.withStrict]
  split
  · refine (Curtails.ofLookup _).step_eq fun known => ?_
    cases known with
    | true => exact .done rfl
    | false => exact (Curtails.note rfl).step_eq fun _ => .done rfl
  · exact .done rfl

theorem curtails_checkRoot :
    Curtails Eq (context.withStrict false).checkRoot (context.withStrict true).checkRoot := by
  simp only [Context.checkRoot, Context.withStrict]
  split
  · exact .done rfl
  · exact (Curtails.ofLookup _).step_eq fun _ => .done rfl

theorem curtails_compilations :
    strictness.Compilations (context.withStrict false) (context.withStrict true) where
  filterAt ht := ht ▸ curtails_filterAt context _
  typeBelow field kind ht := ht ▸ curtails_typeBelow context _ field kind
  typeWithin condition ht := ht ▸ curtails_typeWithin context _ condition
  fragment? name := Correspondence.found_of_eq (fun _ => trivial)
    (curtails_resolveFragment name context.fragments)
  forwarded arguments :=
    (leaves_strictValues context.bindings).forwardOver relationArguments arguments
      (fun _ _ _ _ _ => trivial) []
  dropped _ ht := ht ▸ Curtails.note rfl
  unexpected _ := Curtails.stop _
  key ht := congrArg (Option.map TypeName.key) ht
  endless _ ht := ht ▸ Curtails.stop _
  root := rfl
  checkRoot := curtails_checkRoot context
  remembered := Curtails.refl fun _ => rfl
  budget _ := rfl

/-- Strict compilation ends as the lenient one does and reports the same, if that reports
nothing that strictness refuses.  Otherwise it ends with the fault that belongs to the first
such notice, having reported what comes before it. -/
theorem compileFields_strict (nodes : List Field) (memory : Memory) :
    let lenient := compileFields (context.withStrict false) nodes memory
    let strict := compileFields (context.withStrict true) nodes memory
    match lenient.notices.find? Notice.isDegradation with
    | none => strict.logged = lenient.logged
    | some notice =>
        ∃ fault, notice.refusal? = some fault ∧
          strict.logged = { result := .error fault, notices := reportedBefore lenient.notices } := by
  intro lenient strict
  have hcurtailed : Curtailed Eq lenient strict :=
    (curtails_compilations context).compileFields nodes memory
  cases hcurtailed with
  | same hnone hends hnotices _ =>
      rw [hnone]
      have hresult := Likeness.eq_of_ends hends
      simp only [Outcome.logged, hresult, hnotices]
  | @refused notice fault hfirst hrefusal hresult hnotices =>
      rw [hfirst]
      refine ⟨fault, hrefusal, ?_⟩
      simp only [Outcome.logged, hresult, hnotices]

/-- What is dropped before the first missing fragment is still reported, and nothing after it. -/
example :
    (compileFields ((aboutPeople []).withStrict true)
      [{ aliasName := none, name := "person", arguments := [], directives := []
         selectionSet := some
          [plainField "password" none, .spread "Missing" [], plainField "secret" none] }]
      Memory.empty).logged =
      { result := .error (.undefinedFragment "Missing")
        notices := [.fieldDropped "password" (some (.text "Person"))] } :=
  rfl

end Expansion

end QueryProjection
