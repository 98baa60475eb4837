import Mathlib.Data.List.Forall2
import Mathlib.Data.List.Induction
import Mathlib.Data.List.Nodup
import QueryProjection.OrderedMap

/-!
# What a sequence of writes leaves behind

Merging a table is writing its entries one by one.  If the merged table was itself made by
writes, the table in between can be left out: its writes may as well be made directly.  This
holds to the last detail, the order of the keys included, and it is what makes a nested
selection the same as its selections written in its place.

The table of a list of writes is described by two facts: its keys are the written keys in
the order in which they first appear, and under each stands what was written last.  If the writes
come from several writers, it is the last of them to write to the key that counts
(`get?_ofList_flatMap`).
-/

namespace QueryProjection.OrderedMap

variable {κ : Type w} {α : Type u} [DecidableEq κ]

theorem mem_keys_insert (m : OrderedMap κ α) (key other : κ) (value : α) :
    other ∈ keys (insert m key value) ↔ other = key ∨ other ∈ keys m := by
  rw [keys_insert]
  by_cases h : key ∈ keys m
  · simp only [h, if_true]
    constructor
    · exact Or.inr
    · rintro (rfl | hmem)
      · exact h
      · exact hmem
  · simp only [h, if_false, List.mem_append, List.mem_singleton]
    exact or_comm

theorem exists_get?_of_mem {m : OrderedMap κ α} {key : κ} (h : key ∈ keys m) :
    ∃ value, get? m key = some value := by
  cases hget : get? m key with
  | none => exact absurd h ((get?_eq_none_iff m key).mp hget)
  | some value => exact ⟨value, rfl⟩

theorem mem_of_get? {m : OrderedMap κ α} {key : κ} {value : α} (h : get? m key = some value) :
    (key, value) ∈ m := by
  induction m with
  | nil => cases h
  | cons entry rest ih =>
      obtain ⟨k, v⟩ := entry
      by_cases hk : k = key
      · simp only [get?, hk, if_true, Option.some.injEq] at h
        rw [hk, h]
        exact List.mem_cons_self ..
      · simp only [get?, hk, if_false] at h
        exact List.mem_cons_of_mem _ (ih h)

theorem get?_of_mem {m : OrderedMap κ α} (hm : (keys m).Nodup) {key : κ} {value : α}
    (h : (key, value) ∈ m) : get? m key = some value := by
  induction m with
  | nil => cases h
  | cons entry rest ih =>
      obtain ⟨k, v⟩ := entry
      simp only [keys, List.map_cons, List.nodup_cons] at hm
      rcases List.mem_cons.mp h with hfirst | hrest
      · cases hfirst
        rw [get?, if_pos rfl]
      · have hne : k ≠ key := fun heq => hm.1 (heq ▸ List.mem_map_of_mem (f := Prod.fst) hrest)
        rw [get?, if_neg hne, ih hm.2 hrest]

theorem get?_mapValues {β : Type v} (f : α → β) (m : OrderedMap κ α) (key : κ) :
    get? (mapValues f m) key = (get? m key).map f := by
  induction m with
  | nil => rfl
  | cons entry rest ih =>
      obtain ⟨k, v⟩ := entry
      show (if k = key then some (f v) else get? (mapValues f rest) key) =
        (if k = key then some v else get? rest key).map f
      split
      · rfl
      · exact ih

theorem mapValues_insert {β : Type v} (f : α → β) (m : OrderedMap κ α) (key : κ) (value : α) :
    mapValues f (insert m key value) = insert (mapValues f m) key (f value) := by
  induction m with
  | nil => rfl
  | cons entry rest ih =>
      obtain ⟨k, v⟩ := entry
      by_cases h : k = key
      · simp only [insert, mapValues, List.map_cons, h, if_true]
      · simp only [insert, mapValues, List.map_cons, h, if_false] at ih ⊢
        rw [ih]

theorem mapValues_merge {β : Type v} (f : α → β) (base update : OrderedMap κ α) :
    mapValues f (merge base update) = merge (mapValues f base) (mapValues f update) := by
  induction update generalizing base with
  | nil => rfl
  | cons entry rest ih =>
      obtain ⟨k, v⟩ := entry
      rw [merge_cons, ih, mapValues_insert]
      rfl

theorem get?_insert_eq_some {m : OrderedMap κ α} {key other : κ} {value found : α}
    (h : get? (insert m key value) other = some found) :
    (key = other ∧ found = value) ∨ get? m other = some found := by
  by_cases hkey : key = other
  · rw [← hkey, get?_insert_self, Option.some.injEq] at h
    exact Or.inl ⟨hkey, h.symm⟩
  · rw [get?_insert_of_ne _ _ hkey] at h
    exact Or.inr h

theorem get?_append (first second : OrderedMap κ α) (key : κ) :
    get? (first ++ second) key = (get? first key).or (get? second key) := by
  induction first with
  | nil => rfl
  | cons entry rest ih =>
      obtain ⟨k, v⟩ := entry
      by_cases h : k = key
      · simp [get?, h]
      · simp [get?, h, ih]

/-- Writing to a new key adds an entry at the end. -/
theorem insert_of_not_mem {m : OrderedMap κ α} {key : κ} (h : key ∉ keys m) (value : α) :
    insert m key value = m ++ [(key, value)] := by
  induction m with
  | nil => rfl
  | cons entry rest ih =>
      obtain ⟨k, v⟩ := entry
      simp only [keys, List.map_cons, List.mem_cons, not_or] at h
      simp [insert, Ne.symm h.1, ih h.2]

theorem insert_insert_self (m : OrderedMap κ α) (key : κ) (first second : α) :
    insert (insert m key first) key second = insert m key second := by
  induction m with
  | nil => simp [insert]
  | cons entry rest ih =>
      obtain ⟨k, v⟩ := entry
      by_cases h : k = key
      · simp [insert, h]
      · simp [insert, h, ih]

/-- Writing to a key that has its place commutes with writing to another key. -/
theorem insert_comm_of_mem {m : OrderedMap κ α} {key other : κ} (hmem : key ∈ keys m)
    (hne : other ≠ key) (value written : α) :
    insert (insert m other written) key value = insert (insert m key value) other written := by
  induction m with
  | nil => simp [keys] at hmem
  | cons entry rest ih =>
      obtain ⟨k, v⟩ := entry
      by_cases hk : k = key
      · subst hk
        simp [insert, hne.symm]
      · have hrest : key ∈ keys rest := by
          simpa [keys, Ne.symm hk] using hmem
        by_cases ho : k = other
        · simp [insert, ho, hne]
        · simp [insert, hk, ho, ih hrest]

theorem insert_merge_of_mem {m : OrderedMap κ α} {key : κ} (hmem : key ∈ keys m)
    {update : OrderedMap κ α} (hnot : key ∉ keys update) (value : α) :
    insert (merge m update) key value = merge (insert m key value) update := by
  induction update generalizing m with
  | nil => rfl
  | cons entry rest ih =>
      obtain ⟨k, v⟩ := entry
      simp only [keys, List.map_cons, List.mem_cons, not_or] at hnot
      have hk : key ∈ keys (insert m k v) := (mem_keys_insert m k key v).mpr (Or.inr hmem)
      rw [merge_cons, ih hk hnot.2, insert_comm_of_mem hmem (Ne.symm hnot.1), merge_cons]

/-- Writing into a table before it is merged is writing into the merged table. -/
theorem merge_insert (base : OrderedMap κ α) {m : OrderedMap κ α} (hm : (keys m).Nodup)
    (key : κ) (value : α) :
    merge base (insert m key value) = insert (merge base m) key value := by
  induction m generalizing base with
  | nil => rfl
  | cons entry rest ih =>
      obtain ⟨k, v⟩ := entry
      simp only [keys, List.map_cons, List.nodup_cons] at hm
      by_cases h : k = key
      · subst h
        have hmem : k ∈ keys (insert base k v) := (mem_keys_insert base k k v).mpr (Or.inl rfl)
        rw [merge_cons, insert_merge_of_mem hmem hm.1, insert_insert_self]
        simp only [insert, if_true]
        rw [merge_cons]
      · simp only [insert, h, if_false]
        rw [merge_cons, merge_cons, ih (insert base k v) hm.2]

theorem merge_assoc (base : OrderedMap κ α) {m : OrderedMap κ α} (hm : (keys m).Nodup)
    (update : OrderedMap κ α) :
    merge base (merge m update) = merge (merge base m) update := by
  induction update generalizing m with
  | nil => rfl
  | cons entry rest ih =>
      obtain ⟨k, v⟩ := entry
      rw [merge_cons, ih (nodup_keys_insert hm k v), merge_insert base hm, ← merge_cons]

theorem nodup_keys_ofList (entries : List (κ × α)) : (keys (ofList entries)).Nodup :=
  nodup_keys_merge (by simp [keys]) entries

/-- The table of some writes can be left out of a merge: it is the same to make the writes. -/
theorem merge_ofList (base : OrderedMap κ α) (entries : List (κ × α)) :
    merge base (ofList entries) = merge base entries :=
  merge_assoc base (by simp [keys]) entries

theorem ofList_append_singleton (entries : List (κ × α)) (key : κ) (value : α) :
    ofList (entries ++ [(key, value)]) = insert (ofList entries) key value := by
  rw [ofList, merge_append]
  rfl

/-- The keys of some writes stand in the order in which they first appear. -/
theorem keys_ofList (entries : List (κ × α)) :
    keys (ofList entries) = (entries.map Prod.fst).eraseDups := by
  induction entries using List.reverseRecOn with
  | nil => rfl
  | append_singleton entries entry ih =>
      obtain ⟨key, value⟩ := entry
      rw [ofList_append_singleton, keys_insert, ih, List.map_append, List.eraseDups_append]
      by_cases h : key ∈ entries.map Prod.fst
      · simp [h, List.removeAll]
      · simp [h, List.removeAll, List.eraseDups_cons]

theorem nodup_eraseDups (names : List κ) : names.eraseDups.Nodup := by
  have h := nodup_keys_ofList (names.map fun name => (name, ()))
  rw [keys_ofList, List.map_map] at h
  simpa [Function.comp_def] using h

/-- Under each key stands what was written to it last. -/
theorem get?_ofList (entries : List (κ × α)) (key : κ) :
    get? (ofList entries) key =
      ((entries.filter fun entry => entry.1 = key).getLast?).map Prod.snd := by
  induction entries using List.reverseRecOn with
  | nil => rfl
  | append_singleton entries entry ih =>
      obtain ⟨k, value⟩ := entry
      rw [ofList_append_singleton]
      by_cases h : k = key
      · subst h
        simp [get?_insert_self]
      · rw [get?_insert_of_ne _ _ h, ih]
        simp [h]

theorem ofList_ofList (entries : List (κ × α)) : ofList (ofList entries) = ofList entries :=
  merge_ofList [] entries

/-- In a merged table stands what the update writes last, and else what stood there before. -/
theorem get?_merge (base : OrderedMap κ α) (update : List (κ × α)) (key : κ) :
    get? (merge base update) key = (get? (ofList update) key).or (get? base key) := by
  induction update using List.reverseRecOn with
  | nil => rfl
  | append_singleton entries entry ih =>
      obtain ⟨k, value⟩ := entry
      rw [ofList_append_singleton, merge_append]
      show get? (insert (merge base entries) k value) key = _
      by_cases h : k = key
      · subst h
        rw [get?_insert_self, get?_insert_self, Option.some_or]
      · rw [get?_insert_of_ne _ _ h, get?_insert_of_ne _ _ h, ih]

/-- A table is told by its keys and what stands under them. -/
theorem eq_of_get?_eq {first second : OrderedMap κ α} (hkeys : keys first = keys second)
    (hnodup : (keys first).Nodup) (hget : ∀ key ∈ keys first, get? first key = get? second key) :
    first = second := by
  induction first generalizing second with
  | nil =>
      cases second with
      | nil => rfl
      | cons entry rest => cases hkeys
  | cons entry rest ih =>
      obtain ⟨key, value⟩ := entry
      cases second with
      | nil => cases hkeys
      | cons entry' rest' =>
          obtain ⟨key', value'⟩ := entry'
          simp only [keys, List.map_cons, List.cons.injEq] at hkeys
          obtain ⟨rfl, hrest⟩ := hkeys
          simp only [keys, List.map_cons, List.nodup_cons] at hnodup
          have hhead : value = value' := by
            have h := hget key (List.mem_cons_self ..)
            simpa [get?] using h
          have htail : rest = rest' := by
            refine ih hrest hnodup.2 fun other hother => ?_
            have hne : key ≠ other := fun h => hnodup.1 (h ▸ hother)
            have h := hget other (List.mem_cons_of_mem _ hother)
            simpa [get?, hne] using h
          rw [hhead, htail]

theorem mem_keys_ofList (entries : List (κ × α)) (key : κ) :
    key ∈ keys (ofList entries) ↔ key ∈ entries.map Prod.fst := by
  rw [keys_ofList, List.mem_eraseDups]

theorem get?_ofList_append (first second : List (κ × α)) (key : κ) :
    get? (ofList (first ++ second)) key =
      (get? (ofList second) key).or (get? (ofList first) key) := by
  rw [ofList, merge_append, get?_merge]
  rfl

/-- Where several writers write one after the other, what stands under a key is what the last of
them that writes to the key leaves there. -/
theorem get?_ofList_flatMap {ι : Type v} (writes : ι → List (κ × α)) (writers : List ι) (key : κ)
    (value : α) :
    get? (ofList (writers.flatMap writes)) key = some value ↔
      ∃ before writer after, writers = before ++ writer :: after ∧
        get? (ofList (writes writer)) key = some value ∧
        ∀ later ∈ after, key ∉ (writes later).map Prod.fst := by
  induction writers with
  | nil => simp [get?, ofList]
  | cons first rest ih =>
      have hsilent : get? (ofList (rest.flatMap writes)) key = none ↔
          ∀ later ∈ rest, key ∉ (writes later).map Prod.fst := by
        rw [get?_eq_none_iff, mem_keys_ofList, List.map_flatMap, List.mem_flatMap]
        simp only [not_exists, not_and]
      rw [List.flatMap_cons, get?_ofList_append, Option.or_eq_some_iff, ih, hsilent]
      constructor
      · rintro (⟨before, writer, after, rfl, hwriter, hafter⟩ | ⟨hrest, hfirst⟩)
        · exact ⟨first :: before, writer, after, rfl, hwriter, hafter⟩
        · exact ⟨[], first, rest, rfl, hfirst, hrest⟩
      · rintro ⟨before, writer, after, hsplit, hwriter, hafter⟩
        cases before with
        | nil =>
            cases hsplit
            exact Or.inr ⟨hafter, hwriter⟩
        | cons _ before =>
            cases hsplit
            exact Or.inl ⟨before, writer, after, rfl, hwriter, hafter⟩

/-- A table of new keys is added as it is. -/
theorem merge_eq_append {base update : OrderedMap κ α} (h : (keys (base ++ update)).Nodup) :
    merge base update = base ++ update := by
  induction update generalizing base with
  | nil => rw [merge_nil, List.append_nil]
  | cons entry rest ih =>
      obtain ⟨key, value⟩ := entry
      have hnew : key ∉ keys base := by
        intro hmem
        rw [keys, List.map_append, List.nodup_append] at h
        exact h.2.2 key hmem key (List.mem_cons_self ..) rfl
      have hsplit : base ++ (key, value) :: rest = base ++ [(key, value)] ++ rest := by
        rw [List.append_assoc, List.singleton_append]
      rw [merge_cons, insert_of_not_mem hnew, hsplit]
      exact ih (hsplit ▸ h)

theorem ofList_of_nodup {m : OrderedMap κ α} (h : (keys m).Nodup) : ofList m = m := by
  have happend : merge [] m = [] ++ m := merge_eq_append h
  exact happend

theorem mem_of_mem_ofList {entries : List (κ × α)} {entry : κ × α} (h : entry ∈ ofList entries) :
    entry ∈ entries := by
  have hget := get?_of_mem (nodup_keys_ofList entries) h
  rw [get?_ofList, Option.map_eq_some_iff] at hget
  obtain ⟨last, hlast, hvalue⟩ := hget
  obtain ⟨hlast, hkey⟩ := List.mem_filter.mp (List.mem_of_getLast? hlast)
  have hsame : last = entry := Prod.ext (of_decide_eq_true hkey) hvalue
  exact hsame ▸ hlast

/-- Where one value is written to all keys, each key is written once. -/
theorem ofList_const (names : List κ) (value : α) :
    ofList (names.map fun name => (name, value)) =
      names.eraseDups.map fun name => (name, value) := by
  have hget : ∀ {m : OrderedMap κ α}, (∀ entry ∈ m, entry.2 = value) → ∀ key ∈ keys m,
      get? m key = some value := by
    intro m hconst key hkey
    obtain ⟨found, hfound⟩ := exists_get?_of_mem hkey
    exact hfound.trans (congrArg some (hconst (key, found) (mem_of_get? hfound)))
  have hkeys : keys (ofList (names.map fun name => (name, value))) =
      keys (names.eraseDups.map fun name => (name, value)) := by
    rw [keys_ofList, keys, List.map_map, List.map_map]
    simp only [Function.comp_def, List.map_id']
  refine eq_of_get?_eq hkeys (nodup_keys_ofList _) fun key hkey => ?_
  rw [hget (fun entry hentry => ?_) key hkey, hget (fun entry hentry => ?_) key (hkeys ▸ hkey)]
  · obtain ⟨_, -, rfl⟩ := List.mem_map.mp hentry
    rfl
  · obtain ⟨_, -, rfl⟩ := List.mem_map.mp (mem_of_mem_ofList hentry)
    rfl

theorem eraseDups_of_nodup {names : List κ} (h : names.Nodup) : names.eraseDups = names := by
  have hkeys : keys (names.map fun name => (name, ())) = names := by
    simp [keys, Function.comp_def]
  have htable := keys_ofList (names.map fun name => (name, ()))
  rw [ofList_of_nodup (hkeys.symm ▸ h), ← keys, hkeys] at htable
  exact htable.symm

theorem perm_eraseDups {names names' : List κ} (h : names.Perm names') :
    names.eraseDups.Perm names'.eraseDups := by
  refine (List.perm_ext_iff_of_nodup (nodup_eraseDups names) (nodup_eraseDups names')).mpr ?_
  intro name
  rw [List.mem_eraseDups, List.mem_eraseDups]
  exact h.mem_iff

theorem mapValues_ofList {β : Type v} (f : α → β) (entries : List (κ × α)) :
    mapValues f (ofList entries) = ofList (mapValues f entries) :=
  mapValues_merge f [] entries

abbrev Related {β : Type v} (R : α → β → Prop) : OrderedMap κ α → OrderedMap κ β → Prop :=
  List.Forall₂ fun entry entry' => entry'.1 = entry.1 ∧ R entry.2 entry'.2

namespace Related

variable {β : Type v} {R : α → β → Prop}

theorem insert {m : OrderedMap κ α} {m' : OrderedMap κ β} (h : Related R m m') (key : κ)
    {value : α} {value' : β} (hvalue : R value value') :
    Related R (OrderedMap.insert m key value) (OrderedMap.insert m' key value') := by
  induction h with
  | nil => exact .cons ⟨rfl, hvalue⟩ .nil
  | @cons entry entry' rest rest' hentry hrest ih =>
      obtain ⟨hkey, hold⟩ := hentry
      by_cases hsame : entry.1 = key
      · rw [OrderedMap.insert, OrderedMap.insert, if_pos hsame, if_pos (hkey.trans hsame)]
        exact .cons ⟨hkey, hvalue⟩ hrest
      · rw [OrderedMap.insert, OrderedMap.insert, if_neg hsame, if_neg (hkey.symm ▸ hsame)]
        exact .cons ⟨hkey, hold⟩ ih

theorem merge {base update : OrderedMap κ α} {base' update' : OrderedMap κ β}
    (h : Related R update update') (hbase : Related R base base') :
    Related R (OrderedMap.merge base update) (OrderedMap.merge base' update') := by
  induction h generalizing base base' with
  | nil => exact hbase
  | @cons entry entry' _ _ hentry _ ih =>
      obtain ⟨key, value⟩ := entry
      obtain ⟨key', value'⟩ := entry'
      obtain ⟨rfl, hvalue⟩ := hentry
      exact ih (hbase.insert _ hvalue)

end Related

end QueryProjection.OrderedMap
