import Kahuna.FiniteMap.Basic
import Kahuna.ItemTree.Basic
import Kahuna.Transition.Basic
import Mathlib.Order.Basic

/-!
# The registry of analog caches that are being built

The model of the messages `BuildAnalogCache` and `AnalogCacheBuilt` in `lib.rs`, of reloading a waveform, and of
what other messages do to the displayed items. A build is registered by its key while it runs, so that a second
request for the key shares its entry. A reload starts a new generation and forgets the builds of the last one,
which go on running.

A build that is completed unregisters its key, whichever entry is registered there by then.

* `registered_of_reachable`: as long as no build of an older generation is completed while its key is registered
  again, the registry is right in every state, and every step keeps what it has to.
* `not_registered_of_reachable`: otherwise two builds of one key and generation may run at once.
-/

namespace Analog

open ItemTree (DisplayedItemRef)

/-- `AnalogCacheEntry`. Entries are shared, and the number of an entry says which one it is. -/
structure AnalogCacheEntry (K : Type) where
  id : ℕ
  cacheKey : K
  generation : ℕ
  deriving DecidableEq

/-- `AnalogVarState`, by its cache. -/
structure AnalogVarState (K : Type) where
  cache : Option (AnalogCacheEntry K)

/-- `DisplayedItem`: a variable, which may be displayed as an analog signal, or another item. -/
inductive DisplayedItem (K : Type) where
  | var (analog : Option (AnalogVarState K))
  | other

/-- The fields of `WaveData` that are read and written, and the builds. -/
structure WaveData (K C : Type) where
  cacheGeneration : ℕ
  inflightCaches : FiniteMap K (AnalogCacheEntry K)
  displayedItems : FiniteMap DisplayedItemRef (DisplayedItem K)
  /-- The entries that were made, the last one first. -/
  made : List (AnalogCacheEntry K)
  /-- The caches that were set, by the numbers of their entries. -/
  caches : FiniteMap ℕ C
  /-- The entries of the builds whose completion has not been handled. -/
  running : List (AnalogCacheEntry K)
  /-- The entries of the builds that could not be started. -/
  unstarted : List (AnalogCacheEntry K)

/-- What happens to the waveform. -/
inductive Message (K C : Type) where
  /-- `BuildAnalogCache`, and whether the build can be started, which depends on the signals that are loaded. -/
  | buildAnalogCache (displayId : DisplayedItemRef) (cacheKey : K) (starts : Bool)
  /-- `AnalogCacheBuilt`. -/
  | analogCacheBuilt (entry : AnalogCacheEntry K) (result : Except String C)
  /-- The waveform is reloaded, with the items that are kept. -/
  | reload (items : FiniteMap DisplayedItemRef (DisplayedItem K))
  /-- Another message adds, changes or removes an item. -/
  | setItem (displayId : DisplayedItemRef) (item : Option (DisplayedItem K))

variable {K C : Type} [DecidableEq K]

namespace DisplayedItem

/-- The entry that an item shows. -/
def cache : DisplayedItem K → Option (AnalogCacheEntry K)
  | var (some analog) => analog.cache
  | _ => none

end DisplayedItem

namespace WaveData

/-- The state behind a waveform that is loaded, with items of a saved state. -/
def fresh (items : FiniteMap DisplayedItemRef (DisplayedItem K)) : WaveData K C where
  cacheGeneration := 0
  inflightCaches := .empty
  displayedItems := items
  made := []
  caches := .empty
  running := []
  unstarted := []

variable (w : WaveData K C)

/-- The variable shows an entry. -/
def setCache (displayId : DisplayedItemRef) (entry : AnalogCacheEntry K) : WaveData K C :=
  { w with displayedItems := w.displayedItems.insert displayId (.var (some { cache := some entry })) }

/-- A new entry is made and registered, and its build is started. -/
def register (displayId : DisplayedItemRef) (cacheKey : K) (starts : Bool) : WaveData K C :=
  let entry : AnalogCacheEntry K := { id := w.made.length, cacheKey, generation := w.cacheGeneration }
  { w.setCache displayId entry with
    made := entry :: w.made
    inflightCaches := w.inflightCaches.insert cacheKey entry
    running := if starts then entry :: w.running else w.running
    unstarted := if starts then w.unstarted else entry :: w.unstarted }

/-- The entry of another variable that can be shared. -/
def existing (cacheKey : K) : Option (AnalogCacheEntry K) :=
  (w.displayedItems.entries.filterMap fun e => DisplayedItem.cache e.2).find? fun e =>
    e.cacheKey = cacheKey ∧ e.generation = w.cacheGeneration

/-- An entry is made unless one can be shared with another variable. -/
def shareOrRegister (displayId : DisplayedItemRef) (cacheKey : K) (starts : Bool) : WaveData K C :=
  match w.existing cacheKey with
  | some entry => w.setCache displayId entry
  | none => w.register displayId cacheKey starts

/-- `BuildAnalogCache`. -/
def buildAnalogCache (displayId : DisplayedItemRef) (cacheKey : K) (starts : Bool) : WaveData K C :=
  match w.displayedItems.get displayId with
  | some (.var (some analog)) =>
    if analog.cache.any fun e => e.generation = w.cacheGeneration ∧ e.cacheKey = cacheKey then w
    else
      match w.inflightCaches.get cacheKey with
      | some entry =>
        if entry.generation = w.cacheGeneration then w.setCache displayId entry
        else w.shareOrRegister displayId cacheKey starts
      | none => w.shareOrRegister displayId cacheKey starts
  | _ => w

/-- `AnalogCacheBuilt`. A cache is set once. -/
def analogCacheBuilt (entry : AnalogCacheEntry K) (result : Except String C) : WaveData K C :=
  { w with
    inflightCaches := w.inflightCaches.remove entry.cacheKey
    caches :=
      match result with
      | .ok cache => if (w.caches.get entry.id).isSome then w.caches else w.caches.insert entry.id cache
      | .error _ => w.caches
    running := w.running.erase entry }

/-- `update_with_waves`. -/
def reload (items : FiniteMap DisplayedItemRef (DisplayedItem K)) : WaveData K C :=
  { w with cacheGeneration := w.cacheGeneration + 1, inflightCaches := .empty, displayedItems := items }

/-- Another item in the place of one, or none. -/
def setItem (displayId : DisplayedItemRef) (item : Option (DisplayedItem K)) : WaveData K C :=
  { w with
    displayedItems :=
      match item with
      | some item => w.displayedItems.insert displayId item
      | none => w.displayedItems.remove displayId }

/-- A message is handled. Only a build that is running is completed. -/
def step (w : WaveData K C) : Message K C → Except String (WaveData K C)
  | .buildAnalogCache displayId cacheKey starts => .ok (w.buildAnalogCache displayId cacheKey starts)
  | .analogCacheBuilt entry result =>
    if entry ∈ w.running then .ok (w.analogCacheBuilt entry result) else .error "no such build"
  | .reload items => .ok (w.reload items)
  | .setItem displayId item => .ok (w.setItem displayId item)

/-- A build of an older generation is not completed while its key is registered again. -/
def KeepsRegistration (w : WaveData K C) : Message K C → Prop
  | .analogCacheBuilt entry _ =>
    entry.generation < w.cacheGeneration → w.inflightCaches.get entry.cacheKey = none
  | _ => True

/-! ## What is registered -/

/-- Builds of this generation are registered while they run, and no two builds of a key and generation run. -/
structure Registered (w : WaveData K C) : Prop where
  registered : ∀ e ∈ w.running, e.generation = w.cacheGeneration → w.inflightCaches.get e.cacheKey = some e
  running : ∀ k e, w.inflightCaches.get k = some e →
    e.cacheKey = k ∧ e.generation = w.cacheGeneration ∧ (e ∈ w.running ∨ e ∈ w.unstarted)
  apart : w.running.Pairwise fun a b => ¬ (a.cacheKey = b.cacheKey ∧ a.generation = b.generation)

/-- What a step keeps: an entry stays registered until its build is completed or the generation ends, and the
completion of an older build changes neither what is registered nor a newer cache. -/
structure Keeps (w : WaveData K C) (m : Message K C) (w' : WaveData K C) : Prop where
  stays : ∀ k e, w.inflightCaches.get k = some e → w'.cacheGeneration = w.cacheGeneration →
    w'.inflightCaches.get k = some e ∨ ∃ result, m = .analogCacheBuilt e result
  older : ∀ e result, m = .analogCacheBuilt e result → e.generation < w.cacheGeneration →
    (∀ k, w'.inflightCaches.get k = w.inflightCaches.get k) ∧ w'.displayedItems = w.displayedItems ∧
      ∀ e' ∈ w.made, e.generation < e'.generation → w'.caches.get e'.id = w.caches.get e'.id

/-- The invariant: the registry is right, and entries are told apart by their numbers. -/
structure Inv (w : WaveData K C) : Prop extends w.Registered where
  made_of_running : ∀ e ∈ w.running, e ∈ w.made ∧ e.generation ≤ w.cacheGeneration
  id_lt : ∀ e ∈ w.made, e.id < w.made.length
  id_inj : ∀ a ∈ w.made, ∀ b ∈ w.made, a.id = b.id → a = b

variable {w} {w' : WaveData K C} {m : Message K C}

theorem inv_fresh (items : FiniteMap DisplayedItemRef (DisplayedItem K)) : (fresh items : WaveData K C).Inv where
  registered e he := absurd he List.not_mem_nil
  running k e he := by
    rw [fresh, FiniteMap.get_empty] at he
    cases he
  apart := .nil
  made_of_running e he := absurd he List.not_mem_nil
  id_lt e he := absurd he List.not_mem_nil
  id_inj a ha := absurd ha List.not_mem_nil

theorem shareOrRegister_cases (displayId : DisplayedItemRef) (cacheKey : K) (starts : Bool) :
    (∃ items, w.shareOrRegister displayId cacheKey starts = { w with displayedItems := items }) ∨
      w.shareOrRegister displayId cacheKey starts = w.register displayId cacheKey starts := by
  rw [shareOrRegister]
  cases w.existing cacheKey with
  | some entry => exact .inl ⟨_, rfl⟩
  | none => exact .inr rfl

/-- A request changes an item, or makes an entry for a key that has none of this generation. -/
theorem buildAnalogCache_cases (displayId : DisplayedItemRef) (cacheKey : K) (starts : Bool) :
    (∃ items, w.buildAnalogCache displayId cacheKey starts = { w with displayedItems := items }) ∨
      (∀ e, w.inflightCaches.get cacheKey = some e → e.generation ≠ w.cacheGeneration) ∧
        w.buildAnalogCache displayId cacheKey starts = w.register displayId cacheKey starts := by
  rw [buildAnalogCache]
  split
  next analog hitem =>
    split
    · -- the variable shows the cache of this generation already
      exact .inl ⟨w.displayedItems, rfl⟩
    · cases hget : w.inflightCaches.get cacheKey with
      | none =>
        rcases w.shareOrRegister_cases displayId cacheKey starts with hshared | hnew
        · exact .inl hshared
        · refine .inr ⟨fun e he => ?_, hnew⟩
          cases he
      | some entry =>
        dsimp only
        split
        · exact .inl ⟨_, rfl⟩
        -- what is registered belongs to an older generation
        next hgeneration =>
          rcases w.shareOrRegister_cases displayId cacheKey starts with hshared | hnew
          · exact .inl hshared
          · exact .inr ⟨fun e he => Option.some.inj he ▸ hgeneration, hnew⟩
  next => exact .inl ⟨w.displayedItems, rfl⟩

/-- What a step can do. -/
theorem step_cases (h : w.step m = .ok w') :
    (∃ items, w' = { w with displayedItems := items } ∧ ∀ e result, m ≠ .analogCacheBuilt e result) ∨
    (∃ displayId cacheKey starts, m = .buildAnalogCache displayId cacheKey starts ∧
      (∀ e, w.inflightCaches.get cacheKey = some e → e.generation ≠ w.cacheGeneration) ∧
      w' = w.register displayId cacheKey starts) ∨
    (∃ e result, m = .analogCacheBuilt e result ∧ e ∈ w.running ∧ w' = w.analogCacheBuilt e result) ∨
    (∃ items, m = .reload items ∧ w' = w.reload items) := by
  cases m with
  | analogCacheBuilt e result =>
    rw [step] at h
    split at h
    next hrunning =>
      cases h
      exact .inr (.inr (.inl ⟨e, result, rfl, hrunning, rfl⟩))
    next => cases h
  | reload items =>
    cases h
    exact .inr (.inr (.inr ⟨items, rfl, rfl⟩))
  | setItem displayId item =>
    cases h
    exact .inl ⟨_, rfl, fun _ _ => nofun⟩
  | buildAnalogCache displayId cacheKey starts =>
    cases h
    rcases w.buildAnalogCache_cases displayId cacheKey starts with ⟨items, hitems⟩ | ⟨hfree, hnew⟩
    · exact .inl ⟨items, hitems, fun _ _ => nofun⟩
    · exact .inr (.inl ⟨displayId, cacheKey, starts, rfl, hfree, hnew⟩)

/-! ## The steps keep the registry -/

/-- Nothing of this generation is registered or running under the key. -/
theorem Inv.free (h : w.Inv) {cacheKey : K}
    (hfree : ∀ e, w.inflightCaches.get cacheKey = some e → e.generation ≠ w.cacheGeneration) :
    w.inflightCaches.get cacheKey = none ∧ ∀ e ∈ w.running, e.generation = w.cacheGeneration → e.cacheKey ≠ cacheKey := by
  have hnone : w.inflightCaches.get cacheKey = none := by
    cases hget : w.inflightCaches.get cacheKey with
    | none => rfl
    | some e => exact absurd (h.running cacheKey e hget).2.1 (hfree e hget)
  refine ⟨hnone, fun e he hgeneration hkey => ?_⟩
  have hregistered := h.registered e he hgeneration
  rw [hkey, hnone] at hregistered
  cases hregistered

section Register

variable (displayId : DisplayedItemRef) (cacheKey : K) (starts : Bool)

/-- The entry that a request makes. -/
def newEntry (w : WaveData K C) (cacheKey : K) : AnalogCacheEntry K where
  id := w.made.length
  cacheKey
  generation := w.cacheGeneration

theorem get_inflightCaches_register (k : K) : (w.register displayId cacheKey starts).inflightCaches.get k =
    if k = cacheKey then some (w.newEntry cacheKey) else w.inflightCaches.get k := FiniteMap.get_insert _ _ _ _

theorem mem_running_register {e : AnalogCacheEntry K} : e ∈ (w.register displayId cacheKey starts).running ↔
    (starts = true ∧ e = w.newEntry cacheKey) ∨ e ∈ w.running := by
  cases starts <;> simp [register, newEntry]

theorem mem_unstarted_register {e : AnalogCacheEntry K} : e ∈ (w.register displayId cacheKey starts).unstarted ↔
    (starts = false ∧ e = w.newEntry cacheKey) ∨ e ∈ w.unstarted := by
  cases starts <;> simp [register, newEntry]

end Register

/-- A new entry is registered, and no other build of the generation has its key. -/
theorem Inv.registered_register (h : w.Inv) {displayId : DisplayedItemRef} {cacheKey : K} {starts : Bool}
    (hfree : ∀ e, w.inflightCaches.get cacheKey = some e → e.generation ≠ w.cacheGeneration) :
    (w.register displayId cacheKey starts).Registered := by
  obtain ⟨-, hrunning⟩ := h.free hfree
  refine ⟨?_, ?_, ?_⟩
  · intro e he hgeneration
    rw [get_inflightCaches_register]
    rcases (mem_running_register ..).1 he with ⟨-, rfl⟩ | he
    · exact if_pos rfl
    · rw [if_neg (hrunning e he hgeneration)]
      exact h.registered e he hgeneration
  · intro k e he
    rw [mem_running_register, mem_unstarted_register]
    rw [get_inflightCaches_register] at he
    split at he
    next hk =>
      obtain rfl := Option.some.inj he
      refine ⟨hk.symm, rfl, ?_⟩
      cases starts <;> simp
    next =>
      obtain ⟨hkey, hgeneration, hbuild⟩ := h.running k e he
      exact ⟨hkey, hgeneration, hbuild.imp .inr .inr⟩
  · cases starts with
    | false => exact h.apart
    | true =>
      refine List.pairwise_cons.2 ⟨?_, h.apart⟩
      rintro e he ⟨hkey, hgeneration⟩
      exact hrunning e he hgeneration.symm hkey.symm

theorem Inv.register (h : w.Inv) {displayId : DisplayedItemRef} {cacheKey : K} {starts : Bool}
    (hfree : ∀ e, w.inflightCaches.get cacheKey = some e → e.generation ≠ w.cacheGeneration) :
    (w.register displayId cacheKey starts).Inv := by
  refine ⟨h.registered_register hfree, ?_, ?_, ?_⟩
  · intro e he
    rcases (mem_running_register ..).1 he with ⟨-, rfl⟩ | he
    · exact ⟨List.mem_cons_self, le_rfl⟩
    · obtain ⟨hmade, hle⟩ := h.made_of_running e he
      exact ⟨List.mem_cons_of_mem _ hmade, hle⟩
  · intro e he
    rcases List.mem_cons.1 he with rfl | he
    · exact Nat.lt_succ_self _
    · exact (h.id_lt e he).trans (Nat.lt_succ_self _)
  · -- the number of the new entry is that of no other one
    intro a ha b hb hid
    rcases List.mem_cons.1 ha with rfl | ha
    · rcases List.mem_cons.1 hb with rfl | hb
      · rfl
      · exact absurd hid.symm (h.id_lt b hb).ne
    · rcases List.mem_cons.1 hb with rfl | hb
      · exact absurd hid (h.id_lt a ha).ne
      · exact h.id_inj a ha b hb hid

theorem Inv.nodup_running (h : w.Inv) : w.running.Nodup :=
  h.apart.imp fun hab heq => hab ⟨congrArg AnalogCacheEntry.cacheKey heq, congrArg AnalogCacheEntry.generation heq⟩

theorem get_inflightCaches_analogCacheBuilt (entry : AnalogCacheEntry K) (result : Except String C) (k : K) :
    (w.analogCacheBuilt entry result).inflightCaches.get k =
      if k = entry.cacheKey then none else w.inflightCaches.get k := FiniteMap.get_remove _ _ _

/-- Only the entry itself is registered under the key of a build. -/
theorem Inv.eq_of_registered (h : w.Inv) {entry : AnalogCacheEntry K} (hentry : entry ∈ w.running)
    (hkeeps : entry.generation < w.cacheGeneration → w.inflightCaches.get entry.cacheKey = none)
    {e : AnalogCacheEntry K} (he : w.inflightCaches.get entry.cacheKey = some e) : e = entry := by
  rcases (h.made_of_running entry hentry).2.lt_or_eq with hold | hnew
  · rw [hkeeps hold] at he
    cases he
  · rw [h.registered entry hentry hnew] at he
    exact (Option.some.inj he).symm

/-- A build that is completed leaves no other one of this generation behind with its key. -/
theorem Inv.key_ne (h : w.Inv) {entry : AnalogCacheEntry K} (hentry : entry ∈ w.running)
    (hkeeps : entry.generation < w.cacheGeneration → w.inflightCaches.get entry.cacheKey = none) :
    ∀ e ∈ w.running.erase entry, e.generation = w.cacheGeneration → e.cacheKey ≠ entry.cacheKey := by
  intro e he hgeneration hkey
  obtain ⟨hne, he⟩ := h.nodup_running.mem_erase_iff.1 he
  have hregistered := h.registered e he hgeneration
  rw [hkey] at hregistered
  exact hne (h.eq_of_registered hentry hkeeps hregistered)

theorem Inv.analogCacheBuilt (h : w.Inv) {entry : AnalogCacheEntry K} (hentry : entry ∈ w.running)
    (hkeeps : entry.generation < w.cacheGeneration → w.inflightCaches.get entry.cacheKey = none)
    (result : Except String C) : (w.analogCacheBuilt entry result).Inv := by
  have hmem : ∀ {e}, e ∈ w.running.erase entry → e ∈ w.running := List.mem_of_mem_erase
  refine ⟨⟨?_, ?_, h.apart.sublist List.erase_sublist⟩, fun e he => h.made_of_running e (hmem he), h.id_lt, h.id_inj⟩
  · intro e he hgeneration
    rw [get_inflightCaches_analogCacheBuilt, if_neg (h.key_ne hentry hkeeps e he hgeneration)]
    exact h.registered e (hmem he) hgeneration
  · intro k e he
    rw [get_inflightCaches_analogCacheBuilt] at he
    split at he
    next => cases he
    next hk =>
      obtain ⟨hkey, hgeneration, hbuild⟩ := h.running k e he
      have hne : e ≠ entry := by
        rintro rfl
        exact hk hkey.symm
      exact ⟨hkey, hgeneration, hbuild.imp_left fun he => (List.mem_erase_of_ne hne).2 he⟩

/-- No build of the new generation runs yet. -/
theorem Inv.reload (h : w.Inv) (items : FiniteMap DisplayedItemRef (DisplayedItem K)) : (w.reload items).Inv where
  registered e he hgeneration := by
    have hle := (h.made_of_running e he).2
    have hlt : e.generation < e.generation := hle.trans_lt (hgeneration ▸ Nat.lt_succ_self _)
    exact absurd hlt (lt_irrefl _)
  running k e he := by
    rw [WaveData.reload, FiniteMap.get_empty] at he
    cases he
  apart := h.apart
  made_of_running e he := ⟨(h.made_of_running e he).1, (h.made_of_running e he).2.trans (Nat.le_succ _)⟩
  id_lt := h.id_lt
  id_inj := h.id_inj

theorem Inv.step (h : w.Inv) (hkeeps : w.KeepsRegistration m) (hstep : w.step m = .ok w') : w'.Inv := by
  rcases step_cases hstep with ⟨items, rfl, -⟩ | ⟨displayId, cacheKey, starts, rfl, hfree, rfl⟩ |
    ⟨e, result, rfl, he, rfl⟩ | ⟨items, rfl, rfl⟩
  · exact ⟨⟨h.registered, h.running, h.apart⟩, h.made_of_running, h.id_lt, h.id_inj⟩
  · exact h.register hfree
  · exact h.analogCacheBuilt he hkeeps result
  · exact h.reload items

/-! ## What a step keeps -/

/-- Setting the cache of one entry leaves the others alone. -/
theorem caches_analogCacheBuilt {entry e : AnalogCacheEntry K} (hne : e.id ≠ entry.id) (result : Except String C) :
    (w.analogCacheBuilt entry result).caches.get e.id = w.caches.get e.id := by
  cases result with
  | error _ => rfl
  | ok cache =>
    dsimp only [WaveData.analogCacheBuilt]
    split
    · rfl
    · rw [FiniteMap.get_insert, if_neg hne]

theorem Inv.keeps (h : w.Inv) (hkeeps : w.KeepsRegistration m) (hstep : w.step m = .ok w') : w.Keeps m w' := by
  rcases step_cases hstep with ⟨items, rfl, hother⟩ | ⟨displayId, cacheKey, starts, rfl, hfree, rfl⟩ |
    ⟨entry, result, rfl, hentry, rfl⟩ | ⟨items, rfl, rfl⟩
  · exact ⟨fun k e he _ => .inl he, fun e result hm => absurd hm (hother e result)⟩
  · refine ⟨fun k e he _ => .inl ?_, fun e result hm => by cases hm⟩
    have hne : k ≠ cacheKey := by
      rintro rfl
      rw [(h.free hfree).1] at he
      cases he
    rw [get_inflightCaches_register, if_neg hne, he]
  · refine ⟨fun k e he _ => ?_, fun e result' hm hold => ?_⟩
    · by_cases hk : k = entry.cacheKey
      · obtain rfl := h.eq_of_registered hentry hkeeps (hk ▸ he)
        exact .inr ⟨result, rfl⟩
      · exact .inl (by rw [get_inflightCaches_analogCacheBuilt, if_neg hk, he])
    · -- a build of an older generation unregisters nothing, and sets its own cache
      cases hm
      refine ⟨fun k => ?_, rfl, fun e' he' hnewer => ?_⟩
      · rw [get_inflightCaches_analogCacheBuilt]
        split
        next hk => rw [hk, hkeeps hold]
        next => rfl
      · refine caches_analogCacheBuilt (fun hid => ?_) result
        obtain rfl := h.id_inj e' he' entry (h.made_of_running entry hentry).1 hid
        exact lt_irrefl _ hnewer
  · exact ⟨fun k e he heq => absurd heq (Nat.succ_ne_self _), fun e result hm => by cases hm⟩

/-! ## Runs -/

/-- As long as no build of an older generation is completed while its key is registered again, in every state the
builds of the current generation are registered while they run, no two builds of a key and generation run, and
every step keeps the entries that it has to. -/
theorem registered_of_reachable {items : FiniteMap DisplayedItemRef (DisplayedItem K)} {w : WaveData K C}
    (h : Transition.Reachable step KeepsRegistration (fresh items) w) :
    w.Registered ∧ ∀ m w', w.KeepsRegistration m → w.step m = .ok w' → w.Keeps m w' := by
  have hinv : w.Inv := h.invariant (inv_fresh items) fun _ _ _ hinv hkeeps hstep => hinv.step hkeeps hstep
  exact ⟨hinv.toRegistered, fun m w' => hinv.keeps⟩

/-- Two variables that are displayed as analog signals. -/
def twoVariables : FiniteMap DisplayedItemRef (DisplayedItem ℕ) :=
  (FiniteMap.empty.insert 0 (.var (some ⟨none⟩))).insert 1 (.var (some ⟨none⟩))

theorem registered_of_reachable_one :
    ((fresh twoVariables : WaveData ℕ ℕ).buildAnalogCache 0 7 true).Registered ∧
      ∀ m w', ((fresh twoVariables : WaveData ℕ ℕ).buildAnalogCache 0 7 true).KeepsRegistration m →
        ((fresh twoVariables : WaveData ℕ ℕ).buildAnalogCache 0 7 true).step m = .ok w' →
        ((fresh twoVariables : WaveData ℕ ℕ).buildAnalogCache 0 7 true).Keeps m w' :=
  registered_of_reachable (.step (a := .buildAnalogCache 0 7 true) .start trivial rfl)

/-- A build is overtaken by a reload. Its completion unregisters the build of its key that was started since, and
when the variable of that one is removed, another variable starts a second one. -/
def overtaken : List (Message ℕ ℕ) :=
  [.buildAnalogCache 0 7 true, .reload twoVariables, .buildAnalogCache 0 7 true,
    .analogCacheBuilt ⟨0, 7, 0⟩ (.ok 0), .setItem 0 none, .buildAnalogCache 1 7 true]

theorem not_registered_of_reachable :
    ¬ ∀ (items : FiniteMap DisplayedItemRef (DisplayedItem ℕ)) (w : WaveData ℕ ℕ),
      Transition.Reachable step (fun _ _ => True) (fresh items) w → w.Registered := by
  intro h
  obtain ⟨w, -, hreachable, htest⟩ := Transition.exists_reachable_of_run step (fun _ _ => True)
    (fresh twoVariables) overtaken (fun w => decide (w.running = [⟨2, 7, 1⟩, ⟨1, 7, 1⟩]))
    (fun _ _ _ => trivial) (by decide)
  have hrunning : w.running = [⟨2, 7, 1⟩, ⟨1, 7, 1⟩] := of_decide_eq_true htest
  have hapart := (h twoVariables w hreachable).apart
  rw [hrunning] at hapart
  exact (List.pairwise_cons.1 hapart).1 ⟨1, 7, 1⟩ (by simp) ⟨rfl, rfl⟩

end WaveData

end Analog
