import Kahuna.FiniteMap.Basic
import Mathlib.Data.List.Induction
import Mathlib.Data.List.Nodup

/-!
# Lists of keys

The order of the entries of a finite map may be kept in a list of keys next to it. The list and the map
are in step when the list has each key of the map once, and no other. This file says how the list has to
change with the map.

- `InStep.insert`, `InStep.removeAll`, `InStep.updateValues`: the list after a change of the map.
- `InStep.perm`: the order of the list does not matter.
-/

namespace FiniteMap

variable {α β : Type*} [DecidableEq α] {m : FiniteMap α β} {keys keys' dropped : List α} {k : α}

/-- What is left after several keys are removed. -/
theorem get_removeAll (m : FiniteMap α β) (ks : List α) (k : α) :
    (ks.foldl FiniteMap.remove m).get k = if k ∈ ks then none else m.get k := by
  induction ks generalizing m with
  | nil => simp
  | cons k' ks ih =>
    rw [List.foldl_cons, ih, get_remove]
    by_cases hk : k = k' <;> by_cases hks : k ∈ ks <;> simp [hk, hks]

/-- The keys of a map are those with a value. -/
theorem isSome_get_iff : (m.get k).isSome ↔ k ∈ m.keys := by
  rw [get, AList.lookup_isSome, AList.mem_keys]

/-- A new key is one more. -/
theorem size_insert_of_get_eq_none {v : β} (h : m.get k = none) : (m.insert k v).size = m.size + 1 := by
  have hmem : k ∉ m := AList.lookup_eq_none.1 h
  rw [size, insert, AList.entries_insert_of_notMem hmem]
  rfl

/-- A map that is filled with a value that depends on the key alone. -/
theorem get_foldl_insert (f : α → β) (k : α) (ks : List α) (m : FiniteMap α β) :
    ((ks.map fun k => (k, f k)).foldl (fun m e => m.insert e.1 e.2) m).get k =
      if k ∈ ks then some (f k) else m.get k := by
  induction ks generalizing m with
  | nil => rfl
  | cons k' ks ih =>
    rw [List.map_cons, List.foldl_cons, ih, FiniteMap.get_insert]
    by_cases hk : k = k'
    · subst hk
      simp
    · simp [hk]

/-- Entries with different keys are all kept. -/
theorem get_foldl_insert_of_mem {entries : List (α × β)} {e : α × β}
    (hnodup : (entries.map Prod.fst).Nodup) (he : e ∈ entries) (m : FiniteMap α β) :
    (entries.foldl (fun m e => m.insert e.1 e.2) m).get e.1 = some e.2 := by
  induction entries using List.reverseRecOn with
  | nil => cases he
  | append_singleton entries last ih =>
    rw [List.foldl_append, List.foldl_cons, List.foldl_nil, get_insert]
    rw [List.map_append, List.map_singleton, List.nodup_append'] at hnodup
    rcases List.mem_append.1 he with he | he
    · have hne : e.1 ≠ last.1 := by
        intro heq
        exact hnodup.2.2 (List.mem_map_of_mem he) (by simp [heq])
      rw [if_neg hne, ih hnodup.1 he]
    · rw [List.mem_singleton.1 he, if_pos rfl]

/-- The keys of a map to which entries were added. -/
theorem isSome_get_foldl_insert_of {γ : Type*} (key : γ → α) (val : γ → β) (entries : List γ) (m : FiniteMap α β)
    (k : α) : ((entries.foldl (fun m e => m.insert (key e) (val e)) m).get k).isSome = true ↔
      (m.get k).isSome = true ∨ k ∈ entries.map key := by
  induction entries generalizing m with
  | nil => simp
  | cons e entries ih =>
    rw [List.foldl_cons, ih, FiniteMap.get_insert, List.map_cons, List.mem_cons]
    by_cases hk : k = key e
    · simp [hk]
    · simp [hk]

/-- The keys of a map to which values were added under keys of their own. -/
theorem isSome_get_foldl_insert (key : β → α) (values : List β) (m : FiniteMap α β) (k : α) :
    ((values.foldl (fun m v => m.insert (key v) v) m).get k).isSome = true ↔
      (m.get k).isSome = true ∨ k ∈ values.map key :=
  isSome_get_foldl_insert_of key id values m k

/-- The list has each key of the map, once, and no other. -/
structure InStep (keys : List α) (m : FiniteMap α β) : Prop where
  nodup : keys.Nodup
  mem_iff (k : α) : k ∈ keys ↔ (m.get k).isSome

theorem inStep_empty : InStep [] (empty : FiniteMap α β) := ⟨List.nodup_nil, by simp⟩

namespace InStep

/-- The order of the list does not matter. -/
theorem perm (h : InStep keys m) (hperm : keys'.Perm keys) : InStep keys' m :=
  ⟨hperm.nodup_iff.2 h.nodup, fun k => hperm.mem_iff.trans (h.mem_iff k)⟩

/-- Other values for the same keys. -/
theorem congr {γ : Type*} {m' : FiniteMap α γ} (h : InStep keys m)
    (hkeys : ∀ k, (m'.get k).isSome = (m.get k).isSome) : InStep keys m' :=
  ⟨h.nodup, fun k => by rw [h.mem_iff, hkeys]⟩

/-- A new key is added to both. -/
theorem insert (h : InStep keys m) (hk : k ∉ keys) (v : β) (hperm : keys'.Perm (k :: keys)) :
    InStep keys' (m.insert k v) := by
  refine ⟨hperm.nodup_iff.2 (List.nodup_cons.2 ⟨hk, h.nodup⟩), fun k' => ?_⟩
  rw [hperm.mem_iff, List.mem_cons, get_insert, h.mem_iff]
  split <;> simp [*]

/-- Setting the value of a key that is there leaves the list as it is. -/
theorem insert_of_mem (h : InStep keys m) (hk : k ∈ keys) (v : β) : InStep keys (m.insert k v) := by
  refine h.congr fun k' => ?_
  rw [get_insert]
  split
  next heq =>
    subst heq
    exact ((h.mem_iff _).1 hk).symm
  next => rfl

/-- Keys are removed from both. -/
theorem removeAll (h : InStep keys m) (hperm : keys.Perm (dropped ++ keys')) :
    InStep keys' (dropped.foldl FiniteMap.remove m) := by
  obtain ⟨-, hnodup, hdisjoint⟩ := List.nodup_append'.1 (hperm.nodup_iff.1 h.nodup)
  refine ⟨hnodup, fun k => ?_⟩
  have hmem := h.mem_iff k
  rw [hperm.mem_iff, List.mem_append] at hmem
  rw [get_removeAll]
  split
  next hk => simpa using hdisjoint hk
  next hk => rw [← hmem, or_iff_right hk]

/-- The keys whose values are dropped are removed from the list. -/
theorem updateValues (h : InStep keys m) {f : α → β → Option β}
    (hperm : keys.Perm (dropped ++ keys'))
    (hdropped : ∀ k v, m.get k = some v → (k ∈ dropped ↔ f k v = none)) :
    InStep keys' (m.updateValues f) := by
  refine (h.removeAll hperm).congr fun k => ?_
  rw [get_updateValues, get_removeAll]
  cases hk : m.get k with
  | none => simp
  | some v =>
    have hiff := hdropped k v hk
    split
    next hmem => simp [hiff.1 hmem]
    next hmem =>
      have hsome := Option.isSome_iff_ne_none.2 (mt hiff.2 hmem)
      simpa using hsome

end InStep

end FiniteMap

/-!
## Groups

Values collected under a key, one list for each key.

- `getD_groupBy`: a group holds the values of its key, in their order.
- `mem_keys_groupBy`: there is a group for each key that occurs, and for no other.
-/

namespace FiniteMap

variable {α β : Type*} [DecidableEq α]

/-- The values under their keys. A value without a key is left out. -/
def groupBy (key : β → Option α) (values : List β) : FiniteMap α (List β) :=
  values.foldl (fun groups v => match key v with
    | some k => groups.insert k ((groups.get k).getD [] ++ [v])
    | none => groups) empty

variable (key : β → Option α)

theorem groupBy_concat (values : List β) (v : β) :
    groupBy key (values ++ [v]) = match key v with
      | some k => (groupBy key values).insert k (((groupBy key values).get k).getD [] ++ [v])
      | none => groupBy key values := by
  rw [groupBy, List.foldl_append]
  rfl

/-- A group holds the values of its key, in their order. -/
theorem getD_groupBy (values : List β) (k : α) :
    ((groupBy key values).get k).getD [] = values.filter fun v => key v = some k := by
  induction values using List.reverseRecOn with
  | nil => rfl
  | append_singleton values v ih =>
    rw [groupBy_concat, List.filter_append, ← ih]
    cases hkey : key v with
    | none => simp [hkey]
    | some k' =>
      simp only [get_insert]
      by_cases hk : k = k'
      · simp [hk, hkey]
      · simp [hk, hkey, Ne.symm hk]

/-- There is a group for each key that occurs. -/
theorem mem_keys_groupBy {values : List β} {k : α} :
    k ∈ (groupBy key values).keys ↔ ∃ v ∈ values, key v = some k := by
  rw [← isSome_get_iff]
  induction values using List.reverseRecOn with
  | nil => simp [groupBy]
  | append_singleton values v ih =>
    rw [groupBy_concat]
    cases hkey : key v with
    | none => simp [ih, hkey, or_and_right, exists_or]
    | some k' =>
      simp only [get_insert]
      by_cases hk : k = k'
      · simp [hk, hkey, or_and_right, exists_or]
      · simp [hk, ih, hkey, Ne.symm hk, or_and_right, exists_or]

/-- A group with two different values has more than one. -/
theorem one_lt_length_of_mem {γ : Type*} {group : List γ} {v v' : γ} (hv : v ∈ group) (hv' : v' ∈ group)
    (hne : v ≠ v') : 1 < group.length := by
  have hpair : [v, v'].Nodup := by simpa using hne
  have hsub : [v, v'] ⊆ group := by simp [hv, hv']
  exact (List.subperm_of_subset hpair hsub).length_le

end FiniteMap
