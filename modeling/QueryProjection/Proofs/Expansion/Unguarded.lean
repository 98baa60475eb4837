import QueryProjection.Proofs.Conversion
import QueryProjection.Proofs.Expansion.Results
import QueryProjection.Proofs.Sources

/-!
# The walk without a guard

The walk as one would first write it keeps no list of the fragments being expanded: it
expands every fragment it comes to, and if fragments spread each other in a circle it goes
on forever.  `enterPlain` is this walk cut off at a depth.  It runs forever exactly if it
ends by being cut off at every depth, and it ends in some way exactly if from some depth on
it always ends in that way.

Here are the facts that make such statements easy to handle.  Nothing but the entering of
fragments ever fails for want of an end (`not_endless_forwarded` and its like).  A walk that
is not cut off goes just the same at every greater depth (`refines_enterPlain`), and so does
the guarded walk if its guard does not stop it (`refines_enterWithin`).  And whether a
fragment is cut off does not depend on how the name of its type is written
(`endless_enterPlain_of_key`).
-/

namespace QueryProjection

def Context.Unaware (context : Context) : Prop :=
  ∀ target, context.options.target = some target → target.source.Unaware

/-- The faults of look-ups: types that are not known, relations that lead to no name, and whatever
the source says. -/
inductive Context.LookupFault (context : Context) : Fault → Prop where
  | unknown (type : TypeName) : LookupFault context (.unknownType type)
  | noName (shape : Shape) : LookupFault context (.noName shape)
  | source {target : Target} {moment : Nat} {type : Key} {fault : Fault}
      (htarget : context.options.target = some target)
      (h : target.source.answer moment type = .error fault) : LookupFault context fault

namespace Expansion

/-! ### What never fails for want of an end -/

section Lookups

variable {context : Context} {memory : Memory} {fault : Fault}

theorem lookupFault_described {target : Target} (htarget : context.options.target = some target)
    {type : TypeName} (h : memory.described target.source type = .error fault) :
    context.LookupFault fault := by
  unfold Memory.described at h
  split at h
  · cases h
  · exact .source htarget h

theorem lookupFault_fieldsOf {target : Target} (htarget : context.options.target = some target)
    {type : TypeName} (h : memory.fieldsOf target.source type = .error fault) :
    context.LookupFault fault := by
  unfold Memory.fieldsOf at h
  split at h
  · cases h
  · cases h
    exact .unknown type
  · rename_i found hfound
    cases h
    exact lookupFault_described htarget hfound

theorem lookupFault_filterAt {type : Option TypeName}
    (h : (context.outlook memory).filterAt type = .error fault) : context.LookupFault fault := by
  cases htarget : context.options.target with
  | none =>
      simp only [Context.outlook, htarget] at h
      cases h
  | some target =>
      simp only [Context.outlook, htarget] at h
      split at h
      · cases h
      · unfold Memory.filterOf at h
        split at h
        · cases h
        · split at h
          · cases h
          · rename_i found hfound
            cases h
            exact lookupFault_fieldsOf htarget hfound

theorem lookupFault_typeBelow {type : Option TypeName} {field : String} {kind : FieldKind}
    (h : (context.outlook memory).typeBelow type field kind = .error fault) :
    context.LookupFault fault := by
  cases htarget : context.options.target with
  | none =>
      simp only [Context.outlook, htarget] at h
      cases h
  | some target =>
      simp only [Context.outlook, htarget] at h
      split at h
      · unfold Memory.below at h
        split at h
        · rename_i found hfound
          cases h
          exact lookupFault_fieldsOf htarget hfound
        · split at h
          · cases h
          · cases h
          · cases h
          · cases h
            exact .noName _
      · cases h

theorem lookupFault_typeWithin {type : Option TypeName} {condition : Option String}
    (h : (context.outlook memory).typeWithin type condition = .error fault) :
    context.LookupFault fault := by
  unfold Outlook.typeWithin at h
  split at h
  · split at h
    · cases h
    · rename_i inner _ found hfound
      cases h
      cases htarget : context.options.target with
      | none =>
          simp only [Context.outlook, htarget] at hfound
          cases hfound
      | some target =>
          simp only [Context.outlook, htarget, map_eq_error] at hfound
          exact lookupFault_described htarget hfound
  · cases h

theorem lookupFault_root (h : (context.outlook memory).root = .error fault) :
    context.LookupFault fault := by
  cases htarget : context.options.target with
  | none =>
      simp only [Context.outlook, htarget] at h
      cases h
  | some target =>
      simp only [Context.outlook, htarget, map_eq_error] at h
      exact lookupFault_fieldsOf htarget h

end Lookups

section Unaware

variable {context : Context} (hunaware : context.Unaware) (memory : Memory)

include hunaware

theorem not_endless_of_lookupFault {fault : Fault} (h : context.LookupFault fault) :
    ¬ fault.Endless := by
  cases h with
  | unknown type => exact id
  | noName shape => exact id
  | source htarget hanswer => exact hunaware _ htarget _ _ fault hanswer

theorem not_endless_filterAt (type : Option TypeName) :
    ¬ Endless ((context.outlook memory).filterAt type) :=
  fun ⟨_, h, hendless⟩ =>
    not_endless_of_lookupFault hunaware (lookupFault_filterAt h) hendless

theorem not_endless_typeBelow (type : Option TypeName) (field : String) (kind : FieldKind) :
    ¬ Endless ((context.outlook memory).typeBelow type field kind) :=
  fun ⟨_, h, hendless⟩ =>
    not_endless_of_lookupFault hunaware (lookupFault_typeBelow h) hendless

theorem not_endless_typeWithin (type : Option TypeName) (condition : Option String) :
    ¬ Endless ((context.outlook memory).typeWithin type condition) :=
  fun ⟨_, h, hendless⟩ =>
    not_endless_of_lookupFault hunaware (lookupFault_typeWithin h) hendless

theorem not_endless_root : ¬ Endless (context.outlook memory).root :=
  fun ⟨_, h, hendless⟩ => not_endless_of_lookupFault hunaware (lookupFault_root h) hendless

end Unaware

theorem not_endless_forwarded (context : Context) (arguments : List Argument) (memory : Memory) :
    ¬ Endless (context.forwarded arguments memory).result := by
  rintro ⟨fault, hfault, hendless⟩
  cases ofValue_forwardArguments hfault with
  | unbound name => exact hendless
  | unrecognized kind => exact hendless
  | tooLong => exact hendless

/-! ### Entering fragments without a guard -/

/-- Expands a fragment, nested at most so deep, whatever is being expanded. -/
def enterPlain (context : Context) : Nat → Enter
  | 0 => fun name _ type => Compile.stop (.endlessExpansion name type)
  | depth + 1 => fun _ fragment type =>
      selectionSet context (enterPlain context depth) type fragment.selections

/-- The compilation of a selection set without a guard, cut off at a depth. -/
def compilePlain (context : Context) (depth : Nat) (selections : Option (List Selection)) :
    Compile ProjectionMap :=
  compileEntering context (fun _ => enterPlain context depth) selections

theorem enterPlain_succ (context : Context) (depth : Nat) (name : String) (fragment : Fragment)
    (type : Option TypeName) :
    enterPlain context (depth + 1) name fragment type =
      selectionSet context (enterPlain context depth) type fragment.selections :=
  rfl

theorem endless_stop {α : Type} (name : String) (type : Option TypeName) (memory : Memory) :
    Endless ((Compile.stop (.endlessExpansion name type) : Compile α) memory).result :=
  ⟨_, rfl, trivial⟩

/-- Two outcomes are the same, unless the first was cut off. -/
inductive Refined {α : Type} (values : α → α → Prop) (first second : Outcome α) : Prop where
  | endless (h : Endless first.result)
  | same (hends : Likeness.exact.Ends values first.result second.result)
      (hnotices : second.notices = first.notices) (hmemory : second.memory = first.memory)

def Refines {α : Type} (values : α → α → Prop) (first second : Compile α) : Prop :=
  ∀ memory, Refined values (first memory) (second memory)

namespace Refines

variable {α β : Type} {values : α → α → Prop} {values' : β → β → Prop}

theorem done {a b : α} (h : values a b) : Refines values (pure a) (pure b) :=
  fun _ => .same (.ok h) rfl rfl

theorem refl (computation : Compile α) : Refines Eq computation computation :=
  fun _ => .same (Likeness.lawful_exact.ends_refl (fun _ => rfl) _) rfl rfl

theorem step {first first' : Compile α} {second second' : α → Compile β}
    (h : Refines values first first')
    (hsteps : ∀ a b, values a b → Refines values' (second a) (second' b)) :
    Refines values' (first >>= second) (first' >>= second') := by
  intro memory
  cases h memory with
  | endless h =>
      obtain ⟨fault, hfault, hendless⟩ := h
      refine .endless ⟨fault, ?_, hendless⟩
      rw [Compile.bind_of_error hfault]
  | same hends hnotices hmemory =>
      generalize hr : (first memory).result = result at hends
      generalize hr' : (first' memory).result = result' at hends
      cases hends with
      | error hfaults =>
          rw [Compile.bind_of_error hr, Compile.bind_of_error hr']
          exact .same (.error hfaults) hnotices hmemory
      | @ok a b hvalues =>
          rw [Compile.bind_of_ok hr, Compile.bind_of_ok hr', hnotices, hmemory]
          cases hsteps a b hvalues (first memory).memory with
          | endless h => exact .endless h
          | same hends' hnotices' hmemory' =>
              refine .same hends' ?_ hmemory'
              rw [hnotices']

/-- A computation that is not cut off is the same as one that goes its way. -/
theorem eq_of_not_endless {first second : Compile α} (h : Refines Eq first second)
    {memory : Memory} (hnot : ¬ Endless (first memory).result) :
    second memory = first memory := by
  cases h memory with
  | endless hendless => exact absurd hendless hnot
  | same hends hnotices hmemory =>
      have hresult := Likeness.eq_of_ends hends
      cases hfirst : first memory with
      | mk result notices after =>
          cases hsecond : second memory with
          | mk result' notices' after' =>
              rw [hfirst, hsecond] at hresult hnotices hmemory
              simp only at hresult hnotices hmemory
              rw [hresult, hnotices, hmemory]

end Refines

def refinement : Correspondence where
  types := Eq
  rel := Refines
  done := Refines.done
  step := Refines.step

variable (context : Context)

theorem refines_contexts : refinement.Contexts context context where
  filterAt ht := ht ▸ Refines.refl _
  typeBelow _ _ ht := ht ▸ Refines.refl _
  typeWithin _ ht := ht ▸ Refines.refl _
  fragment? _ := Correspondence.found_of_eq (fun _ => trivial) (Refines.refl _)
  forwarded _ := Refines.refl _
  dropped _ ht := ht ▸ Refines.refl _
  unexpected _ := Refines.refl _

theorem refines_enterPlain {depth deeper : Nat} (h : depth ≤ deeper) :
    refinement.Enters (enterPlain context depth) (enterPlain context deeper) := by
  induction depth generalizing deeper with
  | zero =>
      rintro name fragment type _ - rfl memory
      exact .endless (endless_stop name type memory)
  | succ depth ih =>
      rintro name fragment type _ - rfl
      obtain ⟨further, rfl⟩ : ∃ further, deeper = further + 1 := ⟨deeper - 1, by omega⟩
      exact Correspondence.selectionSet (refines_contexts context) (ih (by omega)) rfl
        fragment.selections

theorem refines_enterWithin {depth deeper : Nat} (h : depth ≤ deeper)
    (active : List (String × Option Key)) :
    refinement.Enters (enterWithin context depth active) (enterPlain context deeper) := by
  induction depth generalizing deeper active with
  | zero =>
      rintro name fragment type _ - rfl memory
      exact .endless (endless_stop name type memory)
  | succ depth ih =>
      rintro name fragment type _ - rfl
      obtain ⟨further, rfl⟩ : ∃ further, deeper = further + 1 := ⟨deeper - 1, by omega⟩
      rw [enterWithin_succ]
      split
      · exact fun memory => .endless (endless_stop name type memory)
      · exact Correspondence.selectionSet (refines_contexts context) (ih (by omega) _) rfl
          fragment.selections

/-! ### Types that are written in two ways -/

variable {context}

theorem enters_enterPlain {like : Likeness} (hl : like.Lawful) (hsteady : context.Steady)
    (depth : Nat) :
    (like.correspondence context).Enters (enterPlain context depth)
      (enterPlain context depth) := by
  induction depth with
  | zero => exact fun name _ _ _ _ ht => Likeness.Alongside.stop (hl.endlessExpansion name ht)
  | succ depth ih =>
      intro name fragment type type' _ ht
      exact Correspondence.selectionSet (Likeness.contexts hl hsteady) ih ht fragment.selections

theorem settled_enterPlain (hsteady : context.Steady) (depth : Nat) :
    SettledEnter context (enterPlain context depth) :=
  fun name fragment type =>
    enters_enterPlain Likeness.lawful_exact hsteady depth name fragment type type trivial
      (Likeness.lawful_exact.types_refl type)

/-- Types are alike if they have one key, and faults if both say that there is no end or neither
does. -/
def Likeness.byKey : Likeness where
  names name name' := name.key = name'.key
  faults fault fault' := fault.Endless ↔ fault'.Endless
  notices _ _ := True

theorem Likeness.lawful_byKey : Likeness.byKey.Lawful where
  key h := h
  names_refl _ := rfl
  faults_refl _ := Iff.rfl
  notices_refl _ := trivial
  unknownType _ := Iff.rfl
  fieldDropped _ _ := trivial
  conditionUnknown _ _ := trivial
  endlessExpansion _ _ := Iff.rfl

theorem endless_enterPlain_of_key (hsteady : context.Steady) {depth : Nat} {memory : Memory}
    {name : String} {fragment : Fragment} {type type' : Option TypeName}
    (hkey : type.map TypeName.key = type'.map TypeName.key)
    (h : Endless (enterPlain context depth name fragment type memory).result) :
    Endless (enterPlain context depth name fragment type' memory).result := by
  have htypes : Option.Rel Likeness.byKey.names type type' := by
    cases type with
    | none =>
        cases type' with
        | none => exact .none
        | some name' => cases hkey
    | some name =>
        cases type' with
        | none => cases hkey
        | some name' => exact .some (Option.some.inj hkey)
  have hends := (enters_enterPlain Likeness.lawful_byKey hsteady depth name fragment type type'
    trivial htypes _ memory memory rfl rfl).ends
  obtain ⟨fault, hfault, hendless⟩ := h
  rw [hfault] at hends
  generalize (enterPlain context depth name fragment type' memory).result = result' at hends
  cases hends with
  | error hfaults => exact ⟨_, rfl, hfaults.mp hendless⟩

end Expansion

end QueryProjection
