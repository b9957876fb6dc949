import Kahuna.ItemTree.Shown

/-!
# The places that are offered

When a row is dragged, `valid_levels_visible` says at which levels it may be dropped above a visible row. It
looks at the two visible rows around the place. `insert_item` looks at the two nodes around it, and between
the visible rows there may be hidden nodes.

- `DropPlace`, `dropPlace_of_offers`: what is offered below a visible row;
- `insertItem_of_offers`: every level that is offered is accepted, the new node is visible, and its parent is a
  node that may have children or has some.
-/

namespace ItemTree

open Outline DisplayedItemTree

variable {t : DisplayedItemTree} {f : Node → Bool} {vidx level : ℕ}

/-- The item index of a visible index, the number of nodes for the one behind the last. -/
def DisplayedItemTree.placeOf (t : DisplayedItemTree) (vidx : ℕ) : ℕ :=
  (t.toDisplayed vidx).getD t.items.length

/-- The level is one that is offered above a visible index. -/
def DisplayedItemTree.Offers (t : DisplayedItemTree) (f : Node → Bool) (vidx level : ℕ) : Prop :=
  (t.validLevelsVisible vidx f).1 ≤ level ∧ level < (t.validLevelsVisible vidx f).2

/-- A level for a node right below a visible one: not further out than the node behind, and further in than the
visible one only if that is unfolded and may have children. -/
structure DropPlace (t : DisplayedItemTree) (f : Node → Bool) (idx : ℕ) (node : Node) (level : ℕ) : Prop where
  get : t.items[idx]? = some node
  shown : t.Shown idx
  fits : level < maxLevel
  behind : ∀ x ∈ t.items[nextVisibleItem t.items idx]?, x.level ≤ level
  inside : level ≤ node.level ∨ level = node.level + 1 ∧ node.unfolded = true ∧ f node = true

/-- What is offered below a visible node. -/
theorem dropPlace_of_offers (h : t.Offers f (vidx + 1) level) (hvidx : vidx < t.visible.length) :
    ∃ idx node, t.placeOf (vidx + 1) = nextVisibleItem t.items idx ∧ DropPlace t f idx node level := by
  obtain ⟨idx, hidx⟩ : ∃ idx, t.toDisplayed vidx = some idx := ⟨_, List.getElem?_eq_getElem hvidx⟩
  obtain ⟨hlt, hshown, -⟩ := toDisplayed_eq_some_iff.1 hidx
  have hplace : t.placeOf (vidx + 1) = nextVisibleItem t.items idx := getD_toDisplayed_succ hidx
  have hpre : t.iterVisible[vidx]? = some t.items[idx] := by
    rw [iterVisible_getElem?, getVisible_eq_some]
    exact ⟨idx, hidx, List.getElem?_eq_getElem hlt⟩
  -- the lower bound is the level of the visible node behind, if there is one
  have hrange : (∀ x ∈ t.items[nextVisibleItem t.items idx]?, x.level ≤ level) ∧
      level < saturatingAdd t.items[idx].level
        (1 + if (f t.items[idx] && t.items[idx].unfolded) = true then 1 else 0) := by
    have hdrop : (t.iterVisible.drop vidx).take 2
        = t.items[idx] :: (t.iterVisible.drop (vidx + 1)).take 1 := by
      obtain ⟨hlt', hget⟩ := List.getElem?_eq_some_iff.1 hpre
      rw [List.drop_eq_getElem_cons hlt', hget, List.take_succ_cons]
    have hnext : t.iterVisible[vidx + 1]? = t.items[nextVisibleItem t.items idx]? := by
      rw [iterVisible_getElem?, getVisible, ← toDisplayed, toDisplayed_succ hidx]
      split
      next hin => rfl
      next hout => rw [Option.bind_none, List.getElem?_eq_none (not_lt.1 hout)]
    simp only [Offers, validLevelsVisible, Nat.add_one_ne_zero, if_false, Nat.add_sub_cancel, hdrop] at h
    rw [← hnext]
    cases hpost : t.iterVisible[vidx + 1]? with
    | none =>
      rw [List.drop_of_length_le (List.getElem?_eq_none_iff.1 hpost), List.take_nil] at h
      exact ⟨by simp, h.2⟩
    | some post =>
      obtain ⟨hlt', rfl⟩ := List.getElem?_eq_some_iff.1 hpost
      rw [List.drop_eq_getElem_cons hlt', List.take_succ_cons] at h
      exact ⟨fun x hx => Option.some.inj hx ▸ h.1, h.2⟩
  obtain ⟨hbehind, hdeepest⟩ := hrange
  rw [saturatingAdd] at hdeepest
  refine ⟨idx, t.items[idx], hplace, List.getElem?_eq_getElem hlt, hshown, by omega, hbehind, ?_⟩
  split at hdeepest
  next hinto =>
    rw [Bool.and_eq_true] at hinto
    rcases Nat.lt_or_ge t.items[idx].level level with hdeeper | hle
    · exact .inr ⟨by omega, hinto.2, hinto.1⟩
    · exact .inl hle
  next => exact .inl (by omega)

namespace DropPlace

variable {idx : ℕ} {node : Node} (h : DropPlace t f idx node level)

include h

theorem lt : idx < t.items.length := (List.getElem?_eq_some_iff.1 h.get).1

/-- What is hidden between the visible node and the place is below the visible node, and hides nothing of
the place unless the visible node is folded. -/
theorem hidden : limitAfter (t.items.take (nextVisibleItem t.items idx))
      = (if node.unfolded then none else some node.level) ∧
    ∀ j, idx < j → j < nextVisibleItem t.items idx → node.level < levelAt t.items j := by
  obtain ⟨hlt, rfl⟩ := List.getElem?_eq_some_iff.1 h.get
  exact limitAfter_nextVisibleItem hlt (h.shown _ h.get)

/-- Between the visible node and the place nothing is further out than the visible node. -/
theorem le_of_between {j : ℕ} (hj : idx ≤ j) (hlt : j < nextVisibleItem t.items idx) :
    node.level ≤ levelAt t.items j := by
  rcases hj.lt_or_eq with hij | rfl
  · exact (h.hidden.2 j hij hlt).le
  · rw [levelAt, h.get]
    exact le_rfl

/-- The place is accepted. -/
theorem checkLocation_eq : checkLocation t.items ⟨nextVisibleItem t.items idx, level⟩ = .ok () := by
  have hnext := lt_nextVisibleItem h.lt
  have hle := nextVisibleItem_le h.lt
  refine checkLocation_of_bounds hle (fun hzero => ?_) (fun z hz => ?_) h.behind
  · have hzero' : nextVisibleItem t.items idx = 0 := hzero
    omega
  · -- the node before the place
    have hlast : nextVisibleItem t.items idx - 1 < t.items.length := by omega
    have hz' : t.items[nextVisibleItem t.items idx - 1]? = some z := by
      rw [Option.mem_def, List.getLast?_take, if_neg (Nat.ne_of_gt (Nat.zero_lt_of_lt hnext)),
        List.getElem?_eq_getElem hlast, Option.some_or] at hz
      rw [List.getElem?_eq_getElem hlast, hz]
    have hbetween := h.le_of_between (j := nextVisibleItem t.items idx - 1) (by omega) (by omega)
    rw [levelAt, hz', Option.elim_some] at hbetween
    have hfits := h.fits
    have hinside : level ≤ node.level + 1 := by
      rcases h.inside with hle | ⟨heq, -⟩ <;> omega
    show level ≤ saturatingAdd z.level 1
    rw [saturatingAdd]
    omega

/-- Nothing hides the place. -/
theorem shows : Shows (limitAfter (t.items.take (nextVisibleItem t.items idx))) level := by
  rw [h.hidden.1]
  split
  next => exact shows_none
  next hfolded =>
    refine shows_some.2 (h.inside.resolve_right ?_)
    rintro ⟨-, hunfolded, -⟩
    exact hfolded hunfolded

/-- The node that a node at the place gets below is the visible one, or one that had nodes below it. -/
theorem parent {p : ℕ} (hp : lastBelow Node.level level (t.items.take (nextVisibleItem t.items idx)) = some p) :
    ∃ parent, t.items[p]? = some parent ∧ (f parent = true ∨ t.hasChildren p = true) := by
  obtain ⟨hlt, hlevel, hlater⟩ := lastBelow_eq_some_iff.1 hp
  have hidx := h.lt
  have hle := nextVisibleItem_le hidx
  have hnext := lt_nextVisibleItem hidx
  rw [List.length_take] at hlt
  rw [List.getElem_take] at hlevel
  have hpl : p < t.items.length := by omega
  have hget : t.items[p]? = some t.items[p] := List.getElem?_eq_getElem hpl
  refine ⟨t.items[p], hget, ?_⟩
  rcases Nat.lt_or_ge p idx with hpidx | hge
  · -- the visible node is below the parent, so the node right behind the parent is
    have hsucc : p + 1 < t.items.length := by omega
    have hbehind := hlater (p + 1) (Nat.lt_succ_self p) (by rw [List.length_take]; omega)
    rw [List.getElem_take] at hbehind
    rw [hasChildren, hget, List.getElem?_eq_getElem hsucc]
    exact .inr (decide_eq_true (hlevel.trans_le hbehind))
  · -- the place is inside of the visible node, which is unfolded
    have hbetween := h.le_of_between hge (by omega)
    rw [levelAt_of_lt hpl] at hbetween
    obtain ⟨-, hunfolded, hf⟩ := h.inside.resolve_left (not_le.2 (hbetween.trans_lt hlevel))
    have hsucc : nextVisibleItem t.items idx = idx + 1 := by
      rw [nextVisibleItem, h.get]
      exact if_pos hunfolded
    obtain rfl : p = idx := by omega
    obtain rfl : t.items[p] = node := Option.some.inj (hget.symm.trans h.get)
    exact .inl hf

end DropPlace

/-- Every level that is offered is accepted. The new node is visible, and if it has a parent then that may
have children or had some. -/
theorem insertItem_of_offers (h : t.WellFormed) (f : Node → Bool) (item : DisplayedItemRef)
    (hvidx : vidx ≤ t.visible.length) (hoffers : t.Offers f vidx level) :
    ∃ t', t.insertItem item ⟨t.placeOf vidx, level⟩ = (.ok (t.placeOf vidx), t') ∧
      t.placeOf vidx ∈ t'.visible ∧
      ∀ p, parentOf Node.level t'.items (t.placeOf vidx) = some p →
        ∃ node, t.items[p]? = some node ∧ (f node = true ∨ t.hasChildren p = true) := by
  -- what is to be shown of the place
  have hplace : checkLocation t.items ⟨t.placeOf vidx, level⟩ = .ok () ∧
      Shows (limitAfter (t.items.take (t.placeOf vidx))) level ∧
      ∀ p, lastBelow Node.level level (t.items.take (t.placeOf vidx)) = some p →
        ∃ node, t.items[p]? = some node ∧ (f node = true ∨ t.hasChildren p = true) := by
    cases vidx with
    | zero =>
      have hlevel : level = 0 := by
        have := hoffers.2
        simp only [validLevelsVisible, if_true] at this
        omega
      have hzero : t.placeOf 0 = 0 := by
        rw [placeOf, toDisplayed, visible]
        cases hlen : t.items.length with
        | zero => rfl
        | succ n =>
          rw [visibleFrom, if_pos (by omega)]
          rfl
      rw [hzero, hlevel]
      refine ⟨checkLocation_of_bounds (Nat.zero_le _) (fun _ => rfl) (by simp) fun x hx => ?_, shows_none, ?_⟩
      · exact h.steps.head_le x (by rw [List.head?_eq_getElem?]; exact hx)
      · rintro p hp
        cases hp
    | succ vidx =>
      obtain ⟨idx, node, heq, hdrop⟩ := dropPlace_of_offers hoffers hvidx
      rw [heq]
      exact ⟨hdrop.checkLocation_eq, hdrop.shows, fun p => hdrop.parent⟩
  obtain ⟨hcheck, hshows, hparent⟩ := hplace
  have hle : t.placeOf vidx ≤ t.items.length := before_le_of_checkLocation hcheck
  have hlen : (t.items.take (t.placeOf vidx)).length = t.placeOf vidx := by
    rw [List.length_take, Nat.min_eq_left hle]
  have hinsert : t.insertItem item ⟨t.placeOf vidx, level⟩
      = (.ok (t.placeOf vidx), withNode t item ⟨t.placeOf vidx, level⟩) := by
    rw [insertItem, hcheck]
    rfl
  have htake : (withNode t item ⟨t.placeOf vidx, level⟩).items.take (t.placeOf vidx)
      = t.items.take (t.placeOf vidx) := List.take_left' hlen
  have hnew : (withNode t item ⟨t.placeOf vidx, level⟩).items[t.placeOf vidx]?
      = some (newNode item level) := by
    rw [withNode, List.getElem?_append_right hlen.le, hlen, Nat.sub_self]
    rfl
  refine ⟨_, hinsert, ?_, fun p hp => ?_⟩
  · refine mem_visible_iff.2 ⟨(List.getElem?_eq_some_iff.1 hnew).1, fun node hnode => ?_⟩
    obtain rfl := Option.some.inj (hnew.symm.trans hnode)
    rw [htake]
    exact hshows
  · rw [parentOf, hnew, Option.bind_some, htake] at hp
    exact hparent p hp

/-- A folded node with a node below it, and one behind. -/
def foldedPair : DisplayedItemTree :=
  { items := [⟨1, 0, false, false⟩, ⟨2, 1, true, false⟩, ⟨3, 0, true, false⟩] }

/-- Below a folded node a new node goes behind what is hidden. -/
theorem insertItem_of_offers_foldedPair : foldedPair.WellFormed ∧ foldedPair.placeOf 1 = 2 ∧
    ∃ t', foldedPair.insertItem 7 ⟨2, 0⟩ = (.ok 2, t') ∧ 2 ∈ t'.visible := by
  have hwf : foldedPair.WellFormed := ⟨by decide, by decide⟩
  have hplace : foldedPair.placeOf 1 = 2 := by decide
  obtain ⟨t', hinsert, hvisible, -⟩ := @insertItem_of_offers foldedPair 1 0 hwf (fun _ => true) 7
    (by decide) ⟨by decide, by decide⟩
  rw [hplace] at hinsert hvisible
  exact ⟨hwf, hplace, t', hinsert, hvisible⟩

end ItemTree
