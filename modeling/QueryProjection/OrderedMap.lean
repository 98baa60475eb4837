/-!
# Tables that remember the order of their keys

A projection is read by people and written out as text, so the order in which its
fields first appear is part of the result.  An `OrderedMap` is a list of entries with
the convention that a key keeps the place of its first entry: writing to a key that is
present changes the value and moves nothing, writing to a new key goes to the end.

The view of a table is the pair of `get?` (what a key holds) and `keys` (in what
order).  `insert` and `merge` are described through that view alone.
-/

namespace QueryProjection

/-- Entries in the order in which their keys were first written. -/
abbrev OrderedMap (κ : Type w) (α : Type u) := List (κ × α)

namespace OrderedMap

variable {κ : Type w} {α : Type u} {β : Type v}

def keys (m : OrderedMap κ α) : List κ := m.map Prod.fst

def mapValues (f : α → β) (m : OrderedMap κ α) : OrderedMap κ β :=
  m.map fun e => (e.1, f e.2)

variable [DecidableEq κ]

def get? : OrderedMap κ α → κ → Option α
  | [], _ => none
  | (k, v) :: rest, key => if k = key then some v else get? rest key

/-- Writes a value under a key; a key that is present keeps its place. -/
def insert : OrderedMap κ α → κ → α → OrderedMap κ α
  | [], key, value => [(key, value)]
  | (k, v) :: rest, key, value =>
      if k = key then (k, value) :: rest else (k, v) :: insert rest key value

/-- Writes every entry of the second table, in order, over the first. -/
def merge (base update : OrderedMap κ α) : OrderedMap κ α :=
  update.foldl (fun acc entry => insert acc entry.1 entry.2) base

/-- The table of a list of writes: the last write to a key wins, the first fixes its place. -/
def ofList (entries : List (κ × α)) : OrderedMap κ α := merge [] entries

def contains (m : OrderedMap κ α) (key : κ) : Bool := (get? m key).isSome

def erase (m : OrderedMap κ α) (key : κ) : OrderedMap κ α := m.filter fun e => e.1 != key

/-! ### What an insertion does to the view -/

theorem get?_insert_self (m : OrderedMap κ α) (key : κ) (value : α) :
    get? (insert m key value) key = some value := by
  induction m with
  | nil => simp [insert, get?]
  | cons entry rest ih =>
      obtain ⟨k, v⟩ := entry
      by_cases h : k = key
      · simp [insert, get?, h]
      · simp [insert, get?, h, ih]

theorem get?_insert_of_ne (m : OrderedMap κ α) {key other : κ} (value : α)
    (hne : key ≠ other) : get? (insert m key value) other = get? m other := by
  induction m with
  | nil => simp [insert, get?, hne]
  | cons entry rest ih =>
      obtain ⟨k, v⟩ := entry
      by_cases h : k = key
      · simp [insert, get?, h, hne]
      · simp [insert, get?, h, ih]

theorem keys_insert (m : OrderedMap κ α) (key : κ) (value : α) :
    keys (insert m key value) = if key ∈ keys m then keys m else keys m ++ [key] := by
  induction m with
  | nil => simp [insert, keys]
  | cons entry rest ih =>
      obtain ⟨k, v⟩ := entry
      by_cases h : k = key
      · simp [insert, keys, h]
      · have hne : key ≠ k := fun heq => h heq.symm
        simp only [keys, insert, h, if_false, List.map_cons, List.mem_cons, hne, false_or] at ih ⊢
        by_cases hk : key ∈ rest.map Prod.fst
        · simp only [ih, hk, if_true]
        · simp only [ih, hk, if_false, List.cons_append]

theorem get?_eq_none_iff (m : OrderedMap κ α) (key : κ) :
    get? m key = none ↔ key ∉ keys m := by
  induction m with
  | nil => simp [get?, keys]
  | cons entry rest ih =>
      obtain ⟨k, v⟩ := entry
      by_cases h : k = key
      · simp [get?, keys, h]
      · have hne : key ≠ k := fun heq => h heq.symm
        simp only [get?, h, if_false, keys, List.map_cons, List.mem_cons, hne, false_or] at ih ⊢
        exact ih

theorem nodup_keys_insert {m : OrderedMap κ α} (hm : (keys m).Nodup) (key : κ) (value : α) :
    (keys (insert m key value)).Nodup := by
  rw [keys_insert]
  split
  · exact hm
  · rename_i hnot
    rw [List.nodup_append]
    refine ⟨hm, by simp, ?_⟩
    intro a ha b hb heq
    simp only [List.mem_singleton] at hb
    subst hb
    exact hnot (heq ▸ ha)

/-! ### Merging is a sequence of insertions -/

@[simp] theorem merge_nil (m : OrderedMap κ α) : merge m [] = m := rfl

theorem merge_cons (m : OrderedMap κ α) (key : κ) (value : α) (rest : OrderedMap κ α) :
    merge m ((key, value) :: rest) = merge (insert m key value) rest := rfl

theorem merge_append (m first second : OrderedMap κ α) :
    merge m (first ++ second) = merge (merge m first) second := by
  simp [merge, List.foldl_append]

theorem nodup_keys_merge {m : OrderedMap κ α} (hm : (keys m).Nodup) (update : OrderedMap κ α) :
    (keys (merge m update)).Nodup := by
  induction update generalizing m with
  | nil => exact hm
  | cons entry rest ih => exact ih (nodup_keys_insert hm entry.1 entry.2)

end OrderedMap

end QueryProjection
