import Kahuna.Decoders.Settings
import Kahuna.Greedy.Basic

/-!
# Guessed bindings

The roles of a protocol are the owners and the positions of the candidates the places of a greedy
matching whose requests are the aliases, from the longest to the shortest.
-/

namespace Decoders.RoleBindings

open Wave (VariableRef)

variable {candidates : List VariableRef}

/-- The aliases of a protocol with the index of their role, in the order in which they claim. -/
def byRank (protocol : Protocol) : List (ℕ × String) :=
  (protocol.roles.zipIdx.flatMap fun entry => entry.1.aliases.map fun a => (entry.2, a)).insertionSort
    fun a b => b.2.length ≤ a.2.length

/-- The candidate at a position has a name that contains the alias. -/
def Suggests (candidates : List VariableRef) (a : String) (p : ℕ) : Prop :=
  ∃ cand, candidates[p]? = some cand ∧ nameContains cand.name a

/-- A longer alias claims before a shorter one. -/
theorem byRank_pairwise (protocol : Protocol) :
    (byRank protocol).Pairwise fun a b => b.2.length ≤ a.2.length := by
  have htotal : Std.Total fun a b : ℕ × String => b.2.length ≤ a.2.length :=
    ⟨fun a b => le_total b.2.length a.2.length⟩
  have htrans : IsTrans (ℕ × String) fun a b => b.2.length ≤ a.2.length :=
    ⟨fun _ _ _ hab hbc => hbc.trans hab⟩
  exact List.pairwise_insertionSort _ _

/-- The order has the aliases of the roles and no others. -/
theorem mem_byRank {protocol : Protocol} {r : ℕ} {a : String} :
    (r, a) ∈ byRank protocol ↔ ∃ role, protocol.roles[r]? = some role ∧ a ∈ role.aliases := by
  simp only [byRank, List.mem_insertionSort, List.mem_flatMap, List.mem_map, Prod.exists,
    List.mem_zipIdx_iff_getElem?, Prod.mk.injEq]
  constructor
  · rintro ⟨role, i, hrole, b, hb, rfl, rfl⟩
    exact ⟨role, hrole, hb⟩
  · rintro ⟨role, hrole, ha⟩
    exact ⟨role, r, hrole, a, ha, rfl, rfl⟩

/-- The state of the loop, with the positions that the roles hold. -/
structure Holds (candidates : List VariableRef) (n : ℕ)
    (acc : List (Option VariableRef) × List ℕ) (held : ℕ → Option ℕ) : Prop where
  signals : acc.1 = (List.range n).map fun r => (held r).bind (candidates[·]?)
  taken : ∀ p, p ∈ acc.2 ↔ ∃ r, held r = some p
  bounds : ∀ r p, held r = some p → r < n ∧ p < candidates.length

/-- The loop starts without a binding. -/
theorem Holds.init (n : ℕ) : Holds candidates n (List.replicate n none, []) fun _ => none where
  signals := by simp [List.map_const']
  taken := by simp
  bounds := by simp

namespace Holds

variable {n r : ℕ} {acc : List (Option VariableRef) × List ℕ} {held : ℕ → Option ℕ}

/-- A role is bound in the state iff it holds a position. -/
theorem isSome_iff (h : Holds candidates n acc held) (hr : r < n) :
    (acc.1[r]?.getD none).isSome ↔ held r ≠ none := by
  rw [h.signals, List.getElem?_map, List.getElem?_range hr]
  cases hheld : held r with
  | none => simp [hheld]
  | some p => simp [hheld, (h.bounds r p hheld).2]

/-- A position is taken in the state iff a role holds it. -/
theorem not_taken_iff (h : Holds candidates n acc held) {p : ℕ} :
    (!acc.2.contains p) = true ↔ Greedy.Unused held p := by
  simp [h.taken p, Greedy.Unused]

/-- Giving a role a position. -/
theorem update (h : Holds candidates n acc held) (hr : r < n) (hnone : held r = none) {p : ℕ}
    {cand : VariableRef} (hcand : candidates[p]? = some cand) :
    Holds candidates n (acc.1.set r (some cand), p :: acc.2) (Function.update held r (some p)) where
  signals := by
    rw [h.signals]
    apply List.ext_getElem?
    intro i
    rw [List.getElem?_set]
    by_cases hi : r = i
    · subst hi
      simp [hr, hcand]
    · simp only [if_neg hi, List.getElem?_map]
      rcases hget : (List.range n)[i]? with _ | j
      · rfl
      · obtain ⟨-, rfl⟩ := List.getElem?_eq_some_iff.mp hget
        simp [Function.update_of_ne (Ne.symm hi)]
  taken := by
    intro q
    simp only [List.mem_cons, h.taken q]
    constructor
    · rintro (rfl | ⟨r', hr'⟩)
      · exact ⟨r, Function.update_self ..⟩
      · have hne : r' ≠ r := by
          rintro rfl
          simp [hnone] at hr'
        exact ⟨r', by rw [Function.update_of_ne hne, hr']⟩
    · rintro ⟨r', hr'⟩
      by_cases hr : r' = r
      · rw [hr, Function.update_self, Option.some.injEq] at hr'
        exact .inl hr'.symm
      · rw [Function.update_of_ne hr] at hr'
        exact .inr ⟨r', hr'⟩
  bounds := by
    intro r' q hheld
    by_cases hr' : r' = r
    · rw [hr', Function.update_self, Option.some.injEq] at hheld
      obtain ⟨hlt, -⟩ := List.getElem?_eq_some_iff.mp hcand
      exact ⟨hr' ▸ hr, hheld ▸ hlt⟩
    · rw [Function.update_of_ne hr'] at hheld
      exact h.bounds r' q hheld

end Holds

/-- One turn of the loop serves one request. -/
theorem bindRole_served {n : ℕ} {acc : List (Option VariableRef) × List ℕ} {held : ℕ → Option ℕ}
    {requests : List (ℕ × String)} {request : ℕ × String} (hr : request.1 < n)
    (hholds : Holds candidates n acc held)
    (hserved : Greedy.Served (Suggests candidates) requests held) :
    ∃ held', Holds candidates n (bindRole candidates acc request) held' ∧
      Greedy.Served (Suggests candidates) (requests ++ [request]) held' := by
  obtain ⟨r, a⟩ := request
  obtain ⟨signals, taken⟩ := acc
  simp only [bindRole]
  split
  next hbound =>
    -- the role is bound already
    exact ⟨held, hholds, hserved.keep a ((hholds.isSome_iff hr).mp hbound)⟩
  next hunbound =>
    have hnone : held r = none := by
      by_contra hsome
      exact hunbound ((hholds.isSome_iff hr).mpr hsome)
    split
    next hfind =>
      -- the search ends without a candidate
      refine ⟨held, hholds, hserved.refuse r ?_⟩
      rintro q hq ⟨cand, hcand, hname⟩
      have hmem : (cand, q) ∈ candidates.zipIdx := List.mem_zipIdx_iff_getElem?.mpr hcand
      have hfree : (!taken.contains q) = true := hholds.not_taken_iff.mpr hq
      have hrefused := List.find?_eq_none.mp hfind _ hmem
      simp only [hfree, hname, Bool.and_self, not_true_eq_false] at hrefused
    next cand p hfind =>
      have hsuits := List.find?_some hfind
      simp only [Bool.and_eq_true] at hsuits
      have hcand : candidates[p]? = some cand :=
        List.mem_zipIdx_iff_getElem?.mp (List.mem_of_find?_eq_some hfind)
      refine ⟨Function.update held r (some p), hholds.update hr hnone hcand, ?_⟩
      exact hserved.take hnone (hholds.not_taken_iff.mp hsuits.1) ⟨cand, hcand, hsuits.2⟩

/-- The loop serves its requests in their order. -/
theorem foldl_bindRole_served {n : ℕ} (rest : List (ℕ × String)) :
    ∀ {acc : List (Option VariableRef) × List ℕ} {held : ℕ → Option ℕ}
      {requests : List (ℕ × String)}, (∀ request ∈ rest, request.1 < n) →
      Holds candidates n acc held → Greedy.Served (Suggests candidates) requests held →
      ∃ held', Holds candidates n (rest.foldl (bindRole candidates) acc) held' ∧
        Greedy.Served (Suggests candidates) (requests ++ rest) held' := by
  induction rest with
  | nil =>
    intro acc held requests _ hholds hserved
    exact ⟨held, hholds, by simpa using hserved⟩
  | cons request rest ih =>
    intro acc held requests hroles hholds hserved
    obtain ⟨held', hholds', hserved'⟩ :=
      bindRole_served (hroles request List.mem_cons_self) hholds hserved
    obtain ⟨held'', hholds'', hserved''⟩ :=
      ih (fun e he => hroles e (List.mem_cons_of_mem _ he)) hholds' hserved'
    exact ⟨held'', hholds'', by simpa using hserved''⟩

/-- The positions of the candidates that the roles of a protocol hold after a guess. -/
structure Guessed (protocol : Protocol) (candidates : List VariableRef) (held : ℕ → Option ℕ) :
    Prop where
  /-- Roles and candidates that exist. -/
  bounds : ∀ r p, held r = some p → r < protocol.roles.length ∧ p < candidates.length
  /-- No candidate is bound to two roles. -/
  injective : ∀ r r' p, held r = some p → held r' = some p → r = r'
  /-- A role is bound to a candidate that one of its aliases suggests. -/
  suggested : ∀ r p role, held r = some p → protocol.roles[r]? = some role →
    ∃ a ∈ role.aliases, Suggests candidates a p
  /-- No alias of an unbound role suggests a candidate that is left. -/
  maximal : ∀ r role, held r = none → protocol.roles[r]? = some role →
    ∀ a ∈ role.aliases, ∀ p, Greedy.Unused held p → ¬ Suggests candidates a p
  /-- A role is bound through the first of its aliases that suggests the candidate, and no earlier
  one suggests a candidate that is left. -/
  ranked : ∀ r p, held r = some p →
    ∃ (k : ℕ) (a : String), (byRank protocol)[k]? = some (r, a) ∧ Suggests candidates a p ∧
      ∀ (j : ℕ) (a' : String), j < k → (byRank protocol)[j]? = some (r, a') →
        ¬ Suggests candidates a' p ∧ ∀ q, Greedy.Unused held q → ¬ Suggests candidates a' q

/-- Guessed bindings are injective and maximal. -/
theorem guess_matching (protocol : Protocol) (candidates : List VariableRef) :
    ∃ held : ℕ → Option ℕ, Guessed protocol candidates held ∧
      (guess protocol candidates).signals =
        (List.range protocol.roles.length).map fun r => (held r).bind (candidates[·]?) := by
  have hroles : ∀ request ∈ byRank protocol, request.1 < protocol.roles.length := by
    rintro ⟨r, a⟩ hmem
    obtain ⟨role, hrole, -⟩ := mem_byRank.mp hmem
    exact (List.getElem?_eq_some_iff.mp hrole).1
  obtain ⟨held, hholds, hserved⟩ :=
    @foldl_bindRole_served candidates _ (byRank protocol) _ _ [] hroles
      (Holds.init protocol.roles.length) Greedy.Served.nil
  refine ⟨held, ?_, hholds.signals⟩
  constructor
  · exact hholds.bounds
  · exact hserved.injective
  · intro r p role hheld hrole
    obtain ⟨earlier, a, later, hsplit, hfits, -⟩ := hserved.through r p hheld
    have hmem : (r, a) ∈ byRank protocol := by
      rw [List.nil_append] at hsplit
      simp [hsplit]
    obtain ⟨role', hrole', ha⟩ := mem_byRank.mp hmem
    obtain rfl : role' = role := Option.some.inj (hrole'.symm.trans hrole)
    exact ⟨a, ha, hfits⟩
  · intro r role hnone hrole a ha p hp
    exact hserved.refused r hnone a (mem_byRank.mpr ⟨role, hrole, ha⟩) p hp
  · intro r p hheld
    obtain ⟨earlier, a, later, hsplit, hfits, hbefore⟩ := hserved.through r p hheld
    rw [List.nil_append] at hsplit
    refine ⟨earlier.length, a, by simp [hsplit], hfits, ?_⟩
    intro j a' hj hget
    rw [hsplit, List.getElem?_append_left hj] at hget
    exact hbefore a' (List.mem_of_getElem? hget)

end Decoders.RoleBindings
