import Kahuna.ItemTree.Insertion
import Kahuna.Outline.Folding

/-!
# Which nodes are shown

The visible nodes are those without a folded ancestor. The walks over the tree find them in their own ways:
forwards, past the subtrees of folded nodes, and backwards from a node to the visible one before it.

- `Shown`, `shown_iff`: a node is shown when all its ancestors are unfolded;
- `visible_eq`, `toDisplayed_eq_some_iff`: the visible indices count the nodes that are shown;
- `EndsIn`, `exists_endsIn`, `visiblePredecessor_of_endsIn`: the node found backwards is the last one shown.
-/

namespace ItemTree

open Outline DisplayedItemTree

variable {t : DisplayedItemTree} {items : List Node} {i idx vidx : ℕ} {x : Node}

/-- The level below which nodes behind a list of nodes are hidden. -/
def limitAfter (items : List Node) : Option ℕ := Outline.limitAfter Node.level Node.unfolded none items

/-- The number of nodes of a list that are shown. -/
def shownCount (items : List Node) : ℕ := (shownFrom Node.level Node.unfolded none 0 items).length

theorem limitAfter_append_eq (xs ys : List Node) : limitAfter (xs ++ ys)
    = Outline.limitAfter Node.level Node.unfolded (limitAfter xs) ys := limitAfter_append

theorem shownFrom_append_eq (xs ys : List Node) : shownFrom Node.level Node.unfolded none 0 (xs ++ ys)
    = shownFrom Node.level Node.unfolded none 0 xs
      ++ shownFrom Node.level Node.unfolded (limitAfter xs) xs.length ys := by
  rw [shownFrom_append, Nat.zero_add]
  rfl

/-- The node at an index is shown. -/
def DisplayedItemTree.Shown (t : DisplayedItemTree) (i : ℕ) : Prop :=
  ∀ node ∈ t.items[i]?, Shows (limitAfter (t.items.take i)) node.level

/-- A node is shown when all its ancestors are unfolded. -/
theorem shown_iff (hi : i < t.items.length) : t.Shown i ↔
    ∀ j (hj : j < i), i < subtreeEnd t.items j → t.items[j].unfolded = true := by
  rw [Shown, List.getElem?_eq_getElem hi]
  simp only [Option.mem_def, Option.some.injEq, forall_eq']
  exact shows_take_iff hi

/-! ## Forwards -/

/-- Behind a node that is shown, up to the next one, everything is below it. -/
theorem limitAfter_nextVisibleItem (hi : i < items.length)
    (hshows : Shows (limitAfter (items.take i)) items[i].level) :
    limitAfter (items.take (nextVisibleItem items i))
        = (if items[i].unfolded then none else some items[i].level) ∧
      ∀ j, i < j → j < nextVisibleItem items i → items[i].level < levelAt items j := by
  have hget : items[i]? = some items[i] := List.getElem?_eq_getElem hi
  have hlimit : limitAfter (items.take (i + 1))
      = if items[i].unfolded then none else some items[i].level := by
    rw [List.take_succ_eq_append_getElem hi, limitAfter_append_eq, limitAfter_cons, limitAfter_nil]
    exact limitStep_of_shows hshows
  rw [nextVisibleItem, hget]
  dsimp only
  split
  next hunfolded =>
    rw [hlimit, if_pos hunfolded]
    exact ⟨rfl, fun j hij hj => by omega⟩
  next hfolded =>
    -- the subtree of a folded node is passed over
    obtain ⟨pre, y, sub, rest, heq, hgety, rfl, -, -, -, hbelow⟩ := exists_split hi
    obtain rfl : items[pre.length] = y := Option.some.inj (hget.symm.trans hgety)
    have hend : subtreeEnd items pre.length = pre.length + 1 + sub.length := by
      conv_lhs => rw [heq]
      exact subtreeEnd_split pre hbelow
    have hdrop : items.drop (pre.length + 1) = sub ++ rest := by
      conv_lhs => rw [heq]
      rw [List.drop_length_add_append]
      rfl
    have htake : items.take (subtreeEnd items pre.length) = items.take (pre.length + 1) ++ sub := by
      rw [hend, List.take_add, hdrop, List.take_left]
    refine ⟨?_, fun j hij hj => ?_⟩
    · rw [htake, limitAfter_append_eq, hlimit, if_neg hfolded, limitAfter_hidden hbelow.deeper]
    · have hmem : items[j]? = sub[j - (pre.length + 1)]? := by
        have hback := congrArg (·[j - (pre.length + 1)]?) hdrop
        rw [List.getElem?_drop, Nat.add_sub_cancel' hij,
          List.getElem?_append_left (by omega)] at hback
        exact hback
      rw [levelAt, hmem, List.getElem?_eq_getElem (by omega)]
      exact hbelow.deeper _ (List.getElem_mem _)

/-- The walk from a node that is shown. -/
theorem visibleFrom_eq {steps : ℕ} (hsteps : items.length ≤ i + steps)
    (hshown : ∀ node ∈ items[i]?, Shows (limitAfter (items.take i)) node.level) :
    visibleFrom items steps i
      = shownFrom Node.level Node.unfolded (limitAfter (items.take i)) i (items.drop i) := by
  induction steps generalizing i with
  | zero => rw [visibleFrom, List.drop_of_length_le (by omega), shownFrom]
  | succ steps ih =>
    by_cases hi : i < items.length
    · have hget : items[i]? = some items[i] := List.getElem?_eq_getElem hi
      have hshows := hshown items[i] hget
      have hnext := lt_nextVisibleItem hi
      obtain ⟨hlimit, -⟩ := limitAfter_nextVisibleItem hi hshows
      rw [visibleFrom, if_pos hi, List.drop_eq_getElem_cons hi, shownFrom, if_pos hshows,
        limitStep_of_shows hshows]
      simp only [List.cons.injEq, true_and]
      cases hunfolded : items[i].unfolded with
      | true =>
        rw [hunfolded, if_pos rfl] at hlimit
        rw [nextVisibleItem, hget] at hlimit ⊢
        simp only [hunfolded, if_true] at hlimit ⊢
        rw [ih (by omega) (fun node _ => by rw [hlimit]; exact shows_none), hlimit]
      | false =>
        -- the subtree of a folded node is passed over
        rw [hunfolded, if_neg (by simp)] at hlimit
        rw [nextVisibleItem, hget] at hlimit hnext ⊢
        simp only [hunfolded, Bool.false_eq_true, if_false] at hlimit hnext ⊢
        obtain ⟨pre, y, sub, rest, heq, hgety, rfl, -, -, hrest, hbelow⟩ := exists_split hi
        obtain rfl : items[pre.length] = y := Option.some.inj (hget.symm.trans hgety)
        have hend : subtreeEnd items pre.length = pre.length + 1 + sub.length := by
          conv_lhs => rw [heq]
          exact subtreeEnd_split pre hbelow
        have hdrop : items.drop (pre.length + 1) = sub ++ rest := by
          conv_lhs => rw [heq]
          rw [List.drop_length_add_append]
          rfl
        rw [ih (by omega), hlimit, hrest, hdrop, shownFrom_append, shownFrom_hidden hbelow.deeper,
          limitAfter_hidden hbelow.deeper, List.nil_append, hend]
        intro node hnode
        rw [hlimit, shows_some]
        exact hbelow.behind node (by rw [← hrest, List.head?_drop]; exact hnode)
    · rw [visibleFrom, if_neg hi, List.drop_of_length_le (by omega), shownFrom]

/-- The visible nodes are those that are shown. -/
theorem visible_eq (t : DisplayedItemTree) :
    t.visible = shownFrom Node.level Node.unfolded none 0 t.items := by
  exact @visibleFrom_eq t.items 0 t.items.length (by omega) fun _ _ => shows_none

/-- The visible index of a node that is shown is the number of those before it. -/
theorem toDisplayed_eq_some_iff : t.toDisplayed vidx = some idx ↔
    idx < t.items.length ∧ t.Shown idx ∧ shownCount (t.items.take idx) = vidx := by
  have h := @shownFrom_getElem? _ Node.level Node.unfolded none 0 vidx idx t.items
  rw [Nat.zero_add] at h
  rw [toDisplayed, visible_eq, h]
  constructor
  · rintro ⟨hidx, hshows, hcount⟩
    refine ⟨hidx, fun node hnode => ?_, hcount⟩
    rw [List.getElem?_eq_getElem hidx] at hnode
    obtain rfl := Option.some.inj hnode
    exact hshows
  · rintro ⟨hidx, hshown, hcount⟩
    exact ⟨hidx, hshown _ (List.getElem?_eq_getElem hidx), hcount⟩

/-- The visible indices are those of the nodes that are shown. -/
theorem mem_visible_iff : i ∈ t.visible ↔ i < t.items.length ∧ t.Shown i := by
  rw [List.mem_iff_getElem?]
  constructor
  · rintro ⟨vidx, hvidx⟩
    obtain ⟨hlt, hshown, -⟩ := toDisplayed_eq_some_iff.1 hvidx
    exact ⟨hlt, hshown⟩
  · exact fun ⟨hlt, hshown⟩ => ⟨_, toDisplayed_eq_some_iff.2 ⟨hlt, hshown, rfl⟩⟩

/-! ## Backwards -/

/-- What the loop of `visible_predecessor` has found out when it has looked at the nodes from `i` to `n`:
the shallowest of them, and the outermost folded one of those with nothing but deeper nodes behind them. -/
structure LooksBack (items : List Node) (n i candidate limitLevel : ℕ) : Prop where
  le : i ≤ candidate
  lt : candidate < n
  limit_le : ∀ j, i ≤ j → j < n → limitLevel ≤ levelAt items j
  limit_eq : ∃ j, i ≤ j ∧ j < n ∧ levelAt items j = limitLevel
  deeper : ∀ j, candidate < j → j < n → levelAt items candidate < levelAt items j
  folded : candidate + 1 = n ∨ (items[candidate]?).elim true Node.unfolded = false
  outermost : ∀ a, i ≤ a → a < candidate → (∀ j, a < j → j < n → levelAt items a < levelAt items j) →
    (items[a]?).elim true Node.unfolded = true

/-- One more node is looked at. -/
theorem LooksBack.step {n candidate limitLevel : ℕ} (h : LooksBack items n (i + 1) candidate limitLevel) :
    LooksBack items n i
      (if levelAt items i < limitLevel ∧ ¬ (items[i]?.elim true Node.unfolded) then i else candidate)
      (if levelAt items i < limitLevel then levelAt items i else limitLevel) := by
  have hle := h.le
  have hlt := h.lt
  by_cases hless : levelAt items i < limitLevel
  · have hdeeper : ∀ j, i < j → j < n → levelAt items i < levelAt items j :=
      fun j hij hj => hless.trans_le (h.limit_le j hij hj)
    have hlimit : ∀ j, i ≤ j → j < n → levelAt items i ≤ levelAt items j := by
      intro j hij hj
      rcases hij.lt_or_eq with hij | rfl
      · exact (hdeeper j hij hj).le
      · exact le_rfl
    rw [if_pos hless]
    cases hunfolded : (items[i]?).elim true Node.unfolded with
    | false =>
      -- the whole subtree that was looked at is hidden
      rw [if_pos ⟨hless, by simp⟩]
      exact ⟨le_rfl, by omega, hlimit, ⟨i, le_rfl, by omega, rfl⟩, hdeeper, .inr hunfolded,
        fun a hia hai => by omega⟩
    | true =>
      rw [if_neg (by simp)]
      refine ⟨by omega, hlt, hlimit, ⟨i, le_rfl, by omega, rfl⟩, h.deeper, h.folded, fun a hia hac hall => ?_⟩
      rcases hia.lt_or_eq with hia | rfl
      · exact h.outermost a hia hac hall
      · exact hunfolded
  · rw [if_neg (fun hand => hless hand.1), if_neg hless]
    obtain ⟨j, hij, hj, hlevel⟩ := h.limit_eq
    refine ⟨by omega, hlt, fun k hik hk => ?_, ⟨j, by omega, hj, hlevel⟩, h.deeper, h.folded,
      fun a hia hac hall => ?_⟩
    · rcases hik.lt_or_eq with hik | rfl
      · exact h.limit_le k hik hk
      · exact not_lt.1 hless
    · rcases hia.lt_or_eq with hia | rfl
      · exact h.outermost a hia hac hall
      · -- something behind this node is not deeper
        have := hall j hij hj
        omega

/-- What the loop returns. -/
theorem visiblePredecessorLoop_spec {n startLevel candidate limitLevel : ℕ}
    (h : LooksBack items n i candidate limitLevel) (hi : 0 < i) :
    ∃ j limitLevel', LooksBack items n j
        (visiblePredecessorLoop items startLevel i candidate limitLevel) limitLevel' ∧
      (levelAt items j ≤ startLevel ∨ j = 0) := by
  induction i generalizing candidate limitLevel with
  | zero => omega
  | succ i ih =>
    rw [visiblePredecessorLoop]
    split
    next hstop => exact ⟨i, _, h.step, hstop⟩
    next hstop =>
      rw [not_or] at hstop
      exact ih h.step (by omega)

/-- The node found backwards from one that is shown: it is shown, what is between them is below it, and if
there is something in between it is folded. -/
theorem visiblePredecessor_spec (hidx : idx < t.items.length) (hpos : 0 < idx) (hshown : t.Shown idx) :
    ∃ p, t.visiblePredecessor idx = some p ∧ p < idx ∧ t.Shown p ∧
      (∀ j, p < j → j < idx → levelAt t.items p < levelAt t.items j) ∧
        (p + 1 = idx ∨ (t.items[p]?).elim true Node.unfolded = false) := by
  obtain ⟨n, rfl⟩ : ∃ n, idx = n + 1 := ⟨idx - 1, by omega⟩
  have hstart : LooksBack t.items (n + 1) n n (levelAt t.items n) :=
    ⟨le_rfl, Nat.lt_succ_self n, fun j hj hj' => by rw [show j = n by omega],
      ⟨n, le_rfl, Nat.lt_succ_self n, rfl⟩, fun j hj hj' => by omega, .inl rfl, fun a ha ha' => by omega⟩
  obtain ⟨j, limitLevel, hback, hstop⟩ : ∃ j limitLevel, LooksBack t.items (n + 1) j
      (visiblePredecessorLoop t.items (levelAt t.items (n + 1)) (n + 1) n (levelAt t.items n)) limitLevel ∧
        (levelAt t.items j ≤ levelAt t.items (n + 1) ∨ j = 0) := by
    -- looking at the first node changes nothing
    have hfirst : visiblePredecessorLoop t.items (levelAt t.items (n + 1)) (n + 1) n (levelAt t.items n)
        = if levelAt t.items n ≤ levelAt t.items (n + 1) ∨ n = 0 then n
          else visiblePredecessorLoop t.items (levelAt t.items (n + 1)) n n (levelAt t.items n) := by
      rw [visiblePredecessorLoop]
      simp
    rw [hfirst]
    split
    next hstop => exact ⟨n, _, hstart, hstop⟩
    next hstop =>
      rw [not_or] at hstop
      exact visiblePredecessorLoop_spec hstart (by omega)
  set p := visiblePredecessorLoop t.items (levelAt t.items (n + 1)) (n + 1) n (levelAt t.items n) with hp
  refine ⟨p, ?_, hback.lt, ?_, hback.deeper, hback.folded⟩
  · rw [visiblePredecessor, if_neg (by omega), Nat.add_sub_cancel]
  · have hlt := hback.lt
    rw [shown_iff (by omega)]
    intro a ha hend
    have hbelow := (lt_subtreeEnd_iff ha (by omega)).1 hend
    -- an ancestor of the node that is found has only deeper nodes behind it
    have hall : ∀ k, a < k → k < n + 1 → levelAt t.items a < levelAt t.items k := by
      intro k hak hk
      rcases Nat.lt_or_ge p k with hpk | hpk
      · exact (hbelow p ha le_rfl).trans (hback.deeper k hpk hk)
      · exact hbelow k hak hpk
    have hget : t.items[a]? = some t.items[a] := List.getElem?_eq_getElem (by omega)
    rcases Nat.lt_or_ge a j with haj | haj
    · -- where the loop has not looked, it is an ancestor of the node it started from
      have hjp := hback.le
      have hlevel := hall j haj (by omega)
      rw [shown_iff hidx] at hshown
      refine hshown a (by omega) ((lt_subtreeEnd_iff (by omega) hidx).2 fun k hak hk => ?_)
      rcases hk.lt_or_eq with hk | rfl
      · exact hall k hak hk
      · omega
    · have hunfolded := hback.outermost a haj ha hall
      rwa [hget] at hunfolded

/-! ## The last node shown -/

/-- Of a list that ends in a node and what is below it, the node is the last one shown. -/
structure EndsIn (pre : List Node) (x : Node) (below : List Node) : Prop where
  shows : Shows (limitAfter pre) x.level
  deeper : ∀ y ∈ below, x.level < y.level
  folded : x.unfolded = false ∨ below = []

namespace EndsIn

variable {pre below rest : List Node} (h : EndsIn pre x below)

include h

theorem limitAfter_eq : limitAfter (pre ++ x :: below) = if x.unfolded then none else some x.level := by
  rw [limitAfter_append_eq, limitAfter_cons, limitStep_of_shows h.shows]
  rcases h.folded with hfolded | hbelow
  · rw [hfolded, if_neg (by simp)]
    exact limitAfter_hidden h.deeper
  · rw [hbelow, limitAfter_nil]

theorem shownCount_eq : shownCount (pre ++ x :: below) = shownCount pre + 1 := by
  rw [shownCount, shownFrom_append_eq, shownFrom_subtree h.shows h.deeper h.folded, List.length_append]
  rfl

end EndsIn

/-- The node at the end of a list that is part of the tree. -/
theorem shown_length {pre rest : List Node} (h : t.items = pre ++ x :: rest) :
    t.Shown pre.length ↔ Shows (limitAfter pre) x.level := by
  have hget : t.items[pre.length]? = some x := by simp [h]
  rw [Shown, hget, h, List.take_left]
  simp

/-- What stands before a node that is shown ends in a node that is shown, and what is below it. -/
theorem exists_endsIn (hidx : idx < t.items.length) (hpos : 0 < idx) (hshown : t.Shown idx) :
    ∃ pre x below, t.items.take idx = pre ++ x :: below ∧ EndsIn pre x below ∧
      t.visiblePredecessor idx = some pre.length := by
  obtain ⟨p, hpred, hlt, hp, hdeeper, hfolded⟩ := visiblePredecessor_spec hidx hpos hshown
  have hpl : p < t.items.length := hlt.trans hidx
  have hget : t.items[p]? = some t.items[p] := List.getElem?_eq_getElem hpl
  have hlen : (t.items.take p).length = p := by
    rw [List.length_take]
    omega
  refine ⟨t.items.take p, t.items[p], (t.items.take idx).drop (p + 1), ?_, ⟨hp _ hget, ?_, ?_⟩, ?_⟩
  · conv_lhs => rw [← List.take_append_drop p (t.items.take idx)]
    rw [List.take_take, Nat.min_eq_left hlt.le, List.drop_eq_getElem_cons (by rw [List.length_take]; omega),
      List.getElem_take]
  · intro y hy
    obtain ⟨j, hj, rfl⟩ := List.mem_drop_iff_getElem.1 hy
    rw [List.length_take] at hj
    have hlevel := hdeeper (p + 1 + j) (by omega) (by omega)
    rw [levelAt_of_lt hpl, levelAt_of_lt (by omega)] at hlevel
    rwa [List.getElem_take]
  · rcases hfolded with rfl | hfolded
    · exact .inr (List.drop_eq_nil_of_le (by rw [List.length_take]; omega))
    · rw [hget] at hfolded
      exact .inl hfolded
  · rw [hpred, hlen]

/-- There is only one way to cut a list at the last node that is shown. -/
theorem EndsIn.unique {pre below pre' below' : List Node} {x' : Node} (h : EndsIn pre x below)
    (h' : EndsIn pre' x' below') (heq : pre ++ x :: below = pre' ++ x' :: below') :
    pre.length = pre'.length := by
  -- the number of nodes before the last one that is shown
  have hlast : ∀ {pre below : List Node} {x : Node}, EndsIn pre x below →
      (shownFrom Node.level Node.unfolded none 0 (pre ++ x :: below)).getLast? = some pre.length := by
    intro pre below x h
    rw [shownFrom_append_eq, shownFrom_subtree h.shows h.deeper h.folded, List.getLast?_concat]
  have hboth := (hlast h).symm.trans (heq ▸ hlast h')
  exact Option.some.inj hboth

/-- The node found backwards. -/
theorem visiblePredecessor_of_endsIn {pre below rest : List Node} {y : Node}
    (heq : t.items = (pre ++ x :: below) ++ y :: rest) (h : EndsIn pre x below)
    (hshows : Shows (limitAfter (pre ++ x :: below)) y.level) :
    t.visiblePredecessor (pre ++ x :: below).length = some pre.length := by
  have hidx : (pre ++ x :: below).length < t.items.length := by
    simp only [heq, List.length_append, List.length_cons]
    omega
  obtain ⟨pre', x', below', htake, hends, hpred⟩ :=
    exists_endsIn hidx (by rw [List.length_append, List.length_cons]; omega) ((shown_length heq).2 hshows)
  rw [heq, List.take_left] at htake
  rw [hpred, h.unique hends htake]

end ItemTree
