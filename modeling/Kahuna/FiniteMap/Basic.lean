import Mathlib.Data.List.AList

/-!
# Finite maps

Association lists without duplicate keys, as maps to values of one type: how a map is changed value
by value, and how a property of all values survives the operations.

- `get_insert`, `get_remove`, `get_updateValues`: what a changed map holds.
- `All.insert`, `All.remove`, `All.updateValues`: a property of all values is kept.
- `fetch`: a map used as a cache, which holds one entry for each key.
-/

/-- A finite map. -/
abbrev FiniteMap (α β : Type*) := AList fun _ : α => β

namespace FiniteMap

variable {α β : Type*}

/-- The map without keys. -/
def empty : FiniteMap α β := ∅

/-- Change each value, or drop it. -/
def updateValues (f : α → β → Option β) (m : FiniteMap α β) : FiniteMap α β where
  entries := m.entries.filterMap fun e => (f e.1 e.2).map fun v => ⟨e.1, v⟩
  nodupKeys := by
    have hsub : ∀ l : List ((_ : α) × β),
        ((l.filterMap fun e => (f e.1 e.2).map fun v => (⟨e.1, v⟩ : (_ : α) × β)).keys).Sublist
          l.keys := by
      intro l
      induction l with
      | nil => exact .slnil
      | cons e rest ih =>
        cases hf : f e.1 e.2 with
        | none => simpa [List.filterMap_cons, hf] using ih.cons e.1
        | some v => simpa [List.filterMap_cons, hf] using ih
    exact (hsub m.entries).nodup m.nodupKeys

/-- The number of keys. -/
def size (m : FiniteMap α β) : ℕ := m.entries.length

/-- Values that are all kept keep their keys. -/
theorem keys_updateValues {f : α → β → Option β} (hf : ∀ k v, (f k v).isSome) (m : FiniteMap α β) :
    (m.updateValues f).keys = m.keys := by
  have hentries : ∀ l : List ((_ : α) × β),
      (l.filterMap fun e => (f e.1 e.2).map fun v => (⟨e.1, v⟩ : (_ : α) × β)).keys = l.keys := by
    intro l
    induction l with
    | nil => rfl
    | cons e rest ih =>
      obtain ⟨v, hv⟩ := Option.isSome_iff_exists.1 (hf e.1 e.2)
      simp [hv, ih]
  exact hentries m.entries

variable [DecidableEq α]

/-- The value at a key. -/
def get (m : FiniteMap α β) (k : α) : Option β := m.lookup k

/-- Set the value at a key. -/
def insert (m : FiniteMap α β) (k : α) (v : β) : FiniteMap α β := AList.insert k v m

/-- Remove a key. -/
def remove (m : FiniteMap α β) (k : α) : FiniteMap α β := AList.erase k m

@[simp]
theorem get_empty (k : α) : (empty : FiniteMap α β).get k = none := rfl

theorem get_insert (m : FiniteMap α β) (k k' : α) (v : β) :
    (m.insert k v).get k' = if k' = k then some v else m.get k' := by
  split
  next h => subst h; exact AList.lookup_insert m
  next h => exact AList.lookup_insert_ne h

theorem get_remove (m : FiniteMap α β) (k k' : α) :
    (m.remove k).get k' = if k' = k then none else m.get k' := by
  split
  next h => subst h; exact AList.lookup_erase _ _
  next h => exact AList.lookup_erase_ne h

/-- A changed map holds the changed values. -/
@[simp]
theorem get_updateValues (f : α → β → Option β) (m : FiniteMap α β) (k : α) :
    (m.updateValues f).get k = (m.get k).bind (f k) := by
  obtain ⟨entries, hnodup⟩ := m
  have hlookup : ∀ (g : (_ : α) × β → Option ((_ : α) × β)),
      (g = fun e => (f e.1 e.2).map fun v => ⟨e.1, v⟩) →
      (List.dlookup k (entries.filterMap g) : Option β) = (List.dlookup k entries).bind (f k) := by
    rintro g hg
    induction entries with
    | nil => rfl
    | cons e rest ih =>
      obtain ⟨k', v⟩ := e
      rw [List.nodupKeys_cons] at hnodup
      have hrest := ih hnodup.2
      rcases eq_or_ne k k' with rfl | hne
      · have habsent : List.dlookup k rest = none := List.dlookup_eq_none.2 hnodup.1
        rw [habsent] at hrest
        cases hf : f k v with
        | none => simpa [hg, hf] using hrest
        | some v' => simp [hg, hf]
      · have hskip : ∀ (w : β) (l : List ((_ : α) × β)),
            (List.dlookup k (⟨k', w⟩ :: l) : Option β) = List.dlookup k l :=
          fun w l => dif_neg (Ne.symm hne)
        rw [hskip]
        cases hf : f k' v with
        | none => simpa [hg, hf] using hrest
        | some v' => simpa [hg, hf, hskip] using hrest
  exact hlookup _ rfl

/-! ## Properties of all values -/

variable {P Q : α → β → Prop}

/-- Every value of the map satisfies `P`. -/
def All (P : α → β → Prop) (m : FiniteMap α β) : Prop := ∀ k v, m.get k = some v → P k v

theorem all_empty : All P (empty : FiniteMap α β) := by simp [All]

theorem All.mono {m : FiniteMap α β} (h : All P m) (hPQ : ∀ k v, P k v → Q k v) : All Q m :=
  fun k v hv => hPQ k v (h k v hv)

theorem All.insert {m : FiniteMap α β} (h : All P m) {k : α} {v : β} (hv : P k v) :
    All P (m.insert k v) := by
  intro k' v' hv'
  rw [get_insert] at hv'
  split at hv'
  next heq => subst heq; exact Option.some.inj hv' ▸ hv
  next => exact h k' v' hv'

theorem All.remove {m : FiniteMap α β} (h : All P m) (k : α) : All P (m.remove k) := by
  intro k' v' hv'
  rw [get_remove] at hv'
  split at hv'
  next => simp at hv'
  next => exact h k' v' hv'

theorem All.updateValues {m : FiniteMap α β} (h : All P m) {f : α → β → Option β}
    (hf : ∀ k v v', P k v → f k v = some v' → Q k v') : All Q (m.updateValues f) := by
  intro k v' hv'
  rw [get_updateValues, Option.bind_eq_some_iff] at hv'
  obtain ⟨v, hv, hfv⟩ := hv'
  exact hf k v v' (h k v hv) hfv

/-! ## Caches -/

/-- The entry at a key if it is valid, otherwise a fresh one, which replaces it. -/
def fetch (m : FiniteMap α β) (valid : β → Bool) (k : α) (fresh : β) : β × FiniteMap α β :=
  match m.get k with
  | some v => if valid v then (v, m) else (fresh, m.insert k fresh)
  | none => (fresh, m.insert k fresh)

/-- Keep the entries of some keys. -/
def retain (m : FiniteMap α β) (keep : α → Bool) : FiniteMap α β :=
  m.updateValues fun k v => if keep k then some v else none

theorem get_retain (m : FiniteMap α β) (keep : α → Bool) (k : α) :
    (m.retain keep).get k = if keep k then m.get k else none := by
  rw [retain, get_updateValues]
  split <;> cases m.get k <;> simp [*]

section fetch

variable {m : FiniteMap α β} {valid : β → Bool} {k k' : α} {fresh v : β}

/-- What is fetched is a valid entry of the cache, or fresh. -/
theorem fetch_fst :
    (∃ v, m.get k = some v ∧ valid v = true ∧ (m.fetch valid k fresh).1 = v) ∨
      (m.fetch valid k fresh).1 = fresh := by
  unfold fetch
  split
  next v hv =>
    split
    next hvalid => exact .inl ⟨v, hv, hvalid, rfl⟩
    next => exact .inr rfl
  next => exact .inr rfl

/-- What was fetched is in the cache now. -/
theorem get_fetch_self : (m.fetch valid k fresh).2.get k = some (m.fetch valid k fresh).1 := by
  unfold fetch
  split
  next v hv =>
    split
    · exact hv
    · simp [get_insert]
  next => simp [get_insert]

/-- The other entries are the same. -/
theorem get_fetch_of_ne (h : k' ≠ k) : (m.fetch valid k fresh).2.get k' = m.get k' := by
  unfold fetch
  split
  · split
    · rfl
    · rw [get_insert, if_neg h]
  · rw [get_insert, if_neg h]

/-- A property of the entries and of the fresh one holds after fetching it. -/
theorem All.fetch (h : All P m) (hfresh : P k fresh) : All P (m.fetch valid k fresh).2 := by
  intro k' v hv
  by_cases hk : k' = k
  · subst hk
    rw [get_fetch_self] at hv
    have hself : (m.fetch valid k' fresh).1 = v := Option.some.inj hv
    rcases m.fetch_fst (k := k') with ⟨v', hget, -, heq⟩ | heq
    · exact h k' v (hget.trans (congrArg some (heq.symm.trans hself)))
    · rw [← hself, heq]
      exact hfresh
  · rw [get_fetch_of_ne hk] at hv
    exact h k' v hv

end fetch

end FiniteMap
