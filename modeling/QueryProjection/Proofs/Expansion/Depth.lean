import QueryProjection.Proofs.Expansion.Revisions
import QueryProjection.Proofs.Expansion.Visits
import QueryProjection.Proofs.Registry.Faithful

/-!
# More depth than is needed

A compilation expands fragments to a depth that it works out from how many there are and from the
types that it knows.  Any greater depth would do as well, and to the very same outcome
(`compileEntering_deeper`).  The guard is why.  What is being expanded are distinct pairs of a
fragment and the key of a type, and a pair is expanded only if its type has a filter.

The source may change its mind in the meantime, so it is not settled at the start which types have
filters.  But it is settled which keys may: those that the source lists, and those that are
remembered already.  No look-up ever adds to these (`along_typeKeys`).
-/

namespace QueryProjection

namespace Expansion

variable {context : Context} {memory after : Memory}

/-! ### Keys that may have a filter -/

theorem mem_typeKeys_iff {target : Target} (htarget : context.options.target = some target)
    {key : Key} :
    some key ∈ typeKeys context memory ↔
      key ∈ target.source.types ∨ key ∈ OrderedMap.keys memory.cache ∨
        ∃ entry ∈ memory.filters, entry.1.type = key := by
  simp only [typeKeys, htarget, List.mem_cons, reduceCtorEq, false_or, List.mem_map,
    Option.some.injEq, exists_eq_right, List.mem_append, OrderedMap.keys, or_assoc]

/-- What was learnt from the source is listed there. -/
theorem mem_typeKeys_of_learnt {target : Target} (htarget : context.options.target = some target)
    (hlearnt : Learnt target.source memory after) {key : Key}
    (h : key ∈ OrderedMap.keys after.cache) : some key ∈ typeKeys context memory := by
  obtain ⟨added, hcache, hadded⟩ := hlearnt.cache
  rw [OrderedMap.keys, hcache, List.map_append, List.mem_append] at h
  rw [mem_typeKeys_iff htarget]
  rcases h with hold | hnew
  · exact Or.inr (Or.inl hold)
  · obtain ⟨entry, hentry, rfl⟩ := List.mem_map.mp hnew
    obtain ⟨moment, -, -, -, hanswer⟩ := hadded entry hentry
    exact Or.inl (target.source.listed moment entry.1 entry.2.2 hanswer)

theorem typeKeys_subset {target : Target} (htarget : context.options.target = some target)
    (hlearnt : Learnt target.source memory after)
    (hfilters : ∀ entry ∈ after.filters, entry ∈ memory.filters ∨
      entry.1.type ∈ OrderedMap.keys after.cache) :
    typeKeys context after ⊆ typeKeys context memory := by
  intro key hkey
  cases key with
  | none => exact List.mem_cons_self ..
  | some key =>
      rcases (mem_typeKeys_iff htarget).mp hkey with hlisted | hcached | ⟨entry, hentry, rfl⟩
      · exact (mem_typeKeys_iff htarget).mpr (Or.inl hlisted)
      · exact mem_typeKeys_of_learnt htarget hlearnt hcached
      · rcases hfilters entry hentry with hold | hnew
        · exact (mem_typeKeys_iff htarget).mpr (Or.inr (Or.inr ⟨entry, hold, rfl⟩))
        · exact mem_typeKeys_of_learnt htarget hlearnt hnew

/-- No look-up adds to the keys that may have a filter. -/
theorem lookups_typeKeys {target : Target} (htarget : context.options.target = some target)
    (keys : List (Option Key)) :
    (Law.ofInvariant fun memory => typeKeys context memory ⊆ keys).Lookups target.source where
  hasType type memory h := by
    refine List.Subset.trans (typeKeys_subset htarget (Lesson.hasType type).learnt ?_) h
    intro entry hentry
    rw [Compile.ofLookup_apply] at hentry
    exact Or.inl (Registry.filters_hasType type memory ▸ hentry)
  modelFields type memory h := by
    refine List.Subset.trans (typeKeys_subset htarget (Lesson.modelFields type).learnt ?_) h
    intro entry hentry
    rw [Compile.ofLookup_apply] at hentry
    exact Or.inl (Registry.filters_modelFields type memory ▸ hentry)
  fieldFilter type exclude memory h := by
    refine List.Subset.trans (typeKeys_subset htarget (Lesson.fieldFilter type exclude).learnt ?_) h
    intro entry hentry
    rw [Compile.ofLookup_apply] at hentry ⊢
    rcases Registry.mem_filters_fieldFilter hentry with hold | ⟨_, fields, hfields, hcache, rfl⟩
    · exact Or.inl hold
    · refine Or.inr (Classical.byContradiction fun hnot => ?_)
      have hknown := Registry.fields?_modelFields hfields
      rw [← hcache, FieldCache.fields?, (OrderedMap.get?_eq_none_iff _ _).mpr hnot] at hknown
      cases hknown

/-- A place has a filter only if the key of its type is among these. -/
theorem mem_typeKeys_of_filterAt {type : Option TypeName} {filter : FieldFilter}
    (hplaced : Placed context type) (h : (context.filterAt type memory).result = .ok filter) :
    type.map TypeName.key ∈ typeKeys context memory := by
  have hsame : (context.outlook memory).filterAt type = (context.filterAt type memory).result := by
    unfold Context.filterAt Context.outlook
    cases context.options.target with
    | none => rfl
    | some target =>
        cases type with
        | none => rfl
        | some name =>
            simp only [Compile.ofLookup_map]
            exact (Registry.filter_fieldFilter target.source name _ memory).symm
  exact mem_typeKeys hplaced (hsame.trans h)

/-! ### Entering fragments to any greater depth -/

/-- Both computations are the same from every memory that has no more keys than there were. -/
def deepening (context : Context) (start : Memory) : Correspondence where
  types type type' := type = type' ∧ Placed context type
  filters := Eq
  defined name fragment := context.definition? name = some fragment
  rel := Reruns True fun memory => typeKeys context memory ⊆ typeKeys context start
  done := Reruns.done
  step := Reruns.step

theorem contexts_deepening (context : Context) (start : Memory) :
    (deepening context start).Contexts context context := by
  have hlookups : ∀ target, context.options.target = some target →
      (Law.ofInvariant fun memory => typeKeys context memory ⊆ typeKeys context start).Lookups
        target.source :=
    fun _ htarget => lookups_typeKeys htarget (typeKeys context start)
  have hlaw := Law.along_compilations hlookups
  refine ⟨⟨?_, ?_, ?_, ?_, ?_⟩, ?_, ?_⟩
  · rintro type _ ⟨rfl, -⟩
    exact .of_along (hlaw.filterAt rfl)
  · rintro type _ name kind ⟨rfl, -⟩
    refine .refl fun memory hm => ⟨(hlaw.typeBelow name kind rfl memory).1 hm, fun below hbelow => ?_⟩
    exact ⟨rfl, (quiet_of_typeBelow (Compile.returns_of_ok hbelow)).2⟩
  · rintro type _ condition ⟨rfl, hplaced⟩
    refine .refl fun memory hm => ⟨(hlaw.typeWithin condition rfl memory).1 hm,
      fun within hwithin => ?_⟩
    exact ⟨rfl, (asks_of_typeWithin hplaced (Compile.returns_of_ok hwithin)).1⟩
  · rintro type _ name ⟨rfl, -⟩
    exact .of_along (hlaw.dropped name rfl)
  · exact fun name => .stop _
  · intro name
    refine .refl fun memory hm => ⟨hm, fun found hfound => ⟨rfl, fun fragment hsome => ?_⟩⟩
    exact (definition?_of_fragment? (Compile.returns_of_ok hfound)).1.trans hsome
  · exact fun given => .of_along (hlaw.forwarded given)

variable {start : Memory} {depth : Nat} {active : List Entry}

theorem enters_deeper (hspare : Spare context start depth active) (more : Nat) :
    (deepening context start).Enters (enterWithin context depth active)
      (enterWithin context (depth + more) active) := by
  induction depth generalizing active with
  | zero => exact absurd rfl hspare.depth_ne_zero
  | succ depth ih =>
      rintro name fragment type _ hdefined ⟨rfl, hplaced⟩
      rw [Nat.succ_add, enterWithin_succ, enterWithin_succ]
      split
      · exact .stop _
      · rename_i hcontains
        by_cases hkey : type.map TypeName.key ∈ typeKeys context start
        · have hentry : (name, type.map TypeName.key) ∈ entries context start :=
            List.mem_product.mpr ⟨mem_keys_of_definition? hdefined, hkey⟩
          exact Correspondence.selectionSet (contexts_deepening context start)
            (ih (hspare.cons hcontains hentry)) ⟨rfl, hplaced⟩ fragment.selections
        · -- without a filter the fragment is not even looked into
          intro memory hm
          have hnone : ∃ fault, (context.filterAt type memory).result = .error fault := by
            cases hresult : (context.filterAt type memory).result with
            | error fault => exact ⟨fault, rfl⟩
            | ok filter => exact absurd (hm (mem_typeKeys_of_filterAt hplaced hresult)) hkey
          obtain ⟨fault, hfault⟩ := hnone
          have hkeeps := ((contexts_deepening context start).filterAt ⟨rfl, hplaced⟩ memory hm).keeps
          rw [selectionSet, selectionSet, Compile.bind_of_error hfault, Compile.bind_of_error hfault]
          exact ⟨.error rfl, fun _ => rfl, rfl, hkeeps⟩

/-- Fragments may be expanded deeper than a compilation does, and nothing changes. -/
theorem compileEntering_deeper (more : Memory → Nat) (selections : Option (List Selection)) :
    compileEntering context
        (fun memory => enterWithin context (budget context memory + more memory) []) selections =
      compileSelections context selections := by
  unfold compileSelections compileEntering
  refine bind_congr fun _ => ?_
  funext memory
  have hentered := Correspondence.selectionSet (contexts_deepening context memory)
    (enters_deeper (Spare.start context memory) (more memory)) ⟨rfl, placed_root⟩
    (selections.getD [])
  exact (hentered memory (List.Subset.refl _)).eq.symm

end Expansion

end QueryProjection
