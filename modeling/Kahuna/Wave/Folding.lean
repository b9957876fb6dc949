import Kahuna.ItemTree.Folds
import Kahuna.Wave.Effects

/-!
# Folding and the focus

The focus is a visible index, and folding changes which nodes are visible. So the messages that fold drop the
focus when they may fold its node away, and leave it as it is otherwise. Whether the focused node is folded
away is decided by `subtree_contains`, which looks at the subtree of the wrong node.

- `Folding`: the messages that fold and unfold;
- `KeepsFocus`: what they are meant to do with the focus;
- `keepsFocus_iff`: when they do it, and when `subtree_contains` is right.
-/

namespace Wave

open ItemTree Outline DisplayedItemTree SystemState

/-- A message that folds or unfolds. -/
inductive Folding where
  | one (itemRef : Option DisplayedItemRef) (unfold recursive : Bool)
  | all (unfold : Bool)

namespace Folding

/-- The message. -/
def message : Folding → Message
  | one itemRef false false => .groupFold itemRef
  | one itemRef true false => .groupUnfold itemRef
  | one itemRef false true => .groupFoldRecursive itemRef
  | one itemRef true true => .groupUnfoldRecursive itemRef
  | all false => .groupFoldAll
  | all true => .groupUnfoldAll

/-- What the message does to the waveform data. -/
def run (m : Folding) (w : WaveData) : Run WaveData :=
  match m with
  | one itemRef unfold recursive => w.groupFold itemRef unfold recursive
  | all unfold => w.groupFoldAll unfold

/-- The messages whose treatment of the focus is right, when the focused node is the one at `idx`. One node is
folded or unfolded behind the focus, or folded above it. All nodes are unfolded, and none was hidden before
the focus. All nodes are folded, and a focus inside a group is inside a group indeed, or no group was open
before the focus. -/
def Fits (w : WaveData) (idx : ℕ) : Folding → Prop
  | one itemRef unfold _ =>
    ∀ item, w.indexForRefOrFocus itemRef = some item →
      idx < item ∨ unfold = false ∧ w.itemsTree.Under idx item
  | all true => ∀ j, j < idx → w.itemsTree.Shown j
  | all false =>
    (0 < levelAt w.itemsTree.items idx → ∃ i, w.itemsTree.Under idx i) ∧
      (levelAt w.itemsTree.items idx = 0 →
        ∀ j, j < idx → w.itemsTree.Shown j → ∀ i, ¬ w.itemsTree.Under j i)

end Folding

/-- The focus is on the node at `idx`, or that node is hidden, and the focus is on a folded node above it or
on none. -/
def KeepsFocus (idx : ℕ) (w : WaveData) : Prop :=
  if w.itemsTree.Shown idx then w.focusedItem.bind w.itemsTree.toDisplayed = some idx
  else w.focusedItem = none ∨ ∃ j, w.focusedItem.bind w.itemsTree.toDisplayed = some j ∧
    w.itemsTree.Under idx j ∧ ∀ node ∈ w.itemsTree.items[j]?, node.unfolded = false

variable {w w' : WaveData} {t' : DisplayedItemTree} {vidx idx item : ℕ} {unfold recursive : Bool}

/-! ## The subtree of the candidate -/

/-- `subtree_contains` compares indices alone. -/
theorem subtreeContains_eq (t : DisplayedItemTree) {root candidate : ℕ} (h : candidate < t.items.length) :
    t.subtreeContains root candidate = .ok (decide (root ≤ candidate)) := by
  have hend : candidate < subtreeEnd t.items candidate := lt_subtreeEnd h
  rw [subtreeContains, if_neg (not_le.2 h)]
  simp [hend]

/-! ## One node -/

/-- What folding a node does, with all below it or not. -/
theorem foldNode_spec {t : DisplayedItemTree} (h : WaveData.foldNode t item unfold recursive = .ok t') :
    item < t.items.length ∧ ∃ marks deselects, Refolded t t' marks deselects ∧ marks item = some unfold ∧
      ∀ i m, marks i = some m → m = unfold ∧ item ≤ i ∧ i < subtreeEnd t.items item := by
  unfold WaveData.foldNode at h
  split at h
  · obtain ⟨hitem, hfold⟩ := refolded_xfoldRecursive h
    have hend : item < subtreeEnd t.items item := lt_subtreeEnd hitem
    refine ⟨hitem, _, _, hfold, if_pos ⟨le_rfl, hend⟩, fun i m hm => ?_⟩
    split at hm
    next hin => exact ⟨(Option.some.inj hm).symm, hin⟩
    next => cases hm
  · obtain ⟨hitem, hfold⟩ := refolded_xfold h
    have hend : item < subtreeEnd t.items item := lt_subtreeEnd hitem
    refine ⟨hitem, _, _, hfold, if_pos rfl, fun i m hm => ?_⟩
    split at hm
    next hi => exact ⟨(Option.some.inj hm).symm, hi.ge, hi ▸ hend⟩
    next => cases hm

/-- Folding a node goes through. -/
theorem exists_foldNode {t : DisplayedItemTree} (h : item < t.items.length) (unfold recursive : Bool) :
    ∃ t', WaveData.foldNode t item unfold recursive = .ok t' := by
  unfold WaveData.foldNode
  split
  · exact ⟨_, by rw [xfoldRecursive, if_neg (not_le.2 h)]⟩
  · rw [xfold, if_neg (not_le.2 h)]
    dsimp only
    split
    · exact ⟨_, rfl⟩
    · exact ⟨_, rfl⟩

/-- Nodes before the folded one are shown as before. -/
theorem shown_iff_of_lt {t : DisplayedItemTree} (h : WaveData.foldNode t item unfold recursive = .ok t') {j : ℕ}
    (hj : j ≤ item) : t'.Shown j ↔ t.Shown j := by
  obtain ⟨hitem, marks, deselects, hfold, -, hmarks⟩ := foldNode_spec h
  have hjl : j < t.items.length := hj.trans_lt hitem
  rw [hfold.shown_iff hjl, shown_iff_under hjl]
  refine forall_congr' fun i => imp_congr_right fun hunder => ?_
  have hnone : marks i = none := by
    cases hm : marks i with
    | none => rfl
    | some m =>
      have hle := (hmarks i m hm).2.1
      have hlt := hunder.1
      omega
  rw [hnone]
  rfl

/-- A node that is shown is hidden when a node above it is folded, and only then. -/
theorem shown_iff_of_le {t : DisplayedItemTree} (h : WaveData.foldNode t item unfold recursive = .ok t')
    (hidx : idx < t.items.length) (hshown : t.Shown idx) :
    t'.Shown idx ↔ ¬ (unfold = false ∧ t.Under idx item) := by
  obtain ⟨hitem, marks, deselects, hfold, hmark, hmarks⟩ := foldNode_spec h
  rw [hfold.shown_iff hidx]
  rw [shown_iff_under hidx] at hshown
  constructor
  · rintro hall ⟨rfl, hunder⟩
    have hfalse := hall item hunder _ (List.getElem?_eq_getElem hitem)
    rw [hmark] at hfalse
    cases hfalse
  · intro hnot i hunder node hnode
    cases hm : marks i with
    | none => exact hshown i hunder node hnode
    | some m =>
      obtain ⟨rfl, hle, hlt⟩ := hmarks i m hm
      cases m with
      | true => rfl
      | false =>
        -- a node below a marked one is below the node that is folded
        refine absurd ⟨rfl, hle.trans_lt hunder.1, ?_⟩ hnot
        rcases hle.lt_or_eq with hle | rfl
        · exact hunder.2.trans_le (subtreeEnd_le_of_lt hitem hle hlt)
        · exact hunder.2

/-- The visible index of a node does not depend on what is folded behind it. -/
theorem toDisplayed_of_lt {t : DisplayedItemTree} (h : WaveData.foldNode t item unfold recursive = .ok t')
    (hidx : t.toDisplayed vidx = some idx) (hlt : idx < item) : t'.toDisplayed vidx = some idx := by
  obtain ⟨hitem, marks, deselects, hfold, -, -⟩ := foldNode_spec h
  obtain ⟨hidx, hshown, hcount⟩ := toDisplayed_eq_some_iff.1 hidx
  have hlen := hfold.length_items
  refine toDisplayed_eq_some_iff.2 ⟨by omega, (shown_iff_of_lt h hlt.le).2 hshown, ?_⟩
  rw [← hcount, shownCount_take (by omega), shownCount_take hidx.le]
  refine congrArg List.length (List.filter_congr fun j hj => ?_)
  have hj := List.mem_range.1 hj
  exact decide_eq_decide.2 (shown_iff_of_lt h (by omega))

theorem refs_foldNode {t : DisplayedItemTree} (h : WaveData.foldNode t item unfold recursive = .ok t') :
    t'.refs = t.refs := by
  unfold WaveData.foldNode at h
  split at h
  · exact refs_xfoldRecursive h
  · exact refs_xfold h

/-- The node that a message is about is in the tree. -/
theorem lt_of_indexForRefOrFocus {itemRef : Option DisplayedItemRef}
    (h : w.indexForRefOrFocus itemRef = some item) : item < w.itemsTree.items.length := by
  unfold WaveData.indexForRefOrFocus at h
  split at h
  · exact (List.findIdx?_eq_some_iff_getElem.1 h).1
  · obtain ⟨v, -, hv⟩ := Option.bind_eq_some_iff.1 h
    exact lt_of_toDisplayed hv

/-- Folding or unfolding one node. -/
theorem keepsFocus_one (itemRef : Option DisplayedItemRef) (unfold recursive : Bool)
    (hfocus : w.focusedItem = some vidx) (hidx : w.itemsTree.toDisplayed vidx = some idx) :
    ∃ w', w.groupFold itemRef unfold recursive = .ok w' ∧ w'.itemsTree.refs = w.itemsTree.refs ∧
      (KeepsFocus idx w' ↔ (Folding.one itemRef unfold recursive).Fits w idx) := by
  obtain ⟨hlt, hshown, hcount⟩ := toDisplayed_eq_some_iff.1 hidx
  cases hitem : w.indexForRefOrFocus itemRef with
  | none =>
    refine ⟨w, by simp only [WaveData.groupFold, hitem], rfl, iff_of_true ?_ fun item h => ?_⟩
    · rw [KeepsFocus, if_pos hshown, hfocus]
      exact hidx
    · rw [hitem] at h
      cases h
  | some item =>
    obtain ⟨tree, htree⟩ := exists_foldNode (lt_of_indexForRefOrFocus hitem) unfold recursive
    have hafter : w.focusAfterFold item = .ok (if item ≤ idx then none else some vidx) := by
      simp only [WaveData.focusAfterFold, hfocus, hidx, subtreeContains_eq _ hlt, decide_eq_true_eq]
    refine ⟨{ w with itemsTree := tree, focusedItem := if item ≤ idx then none else some vidx }, ?_,
      refs_foldNode htree, ?_⟩
    · simp only [WaveData.groupFold, hitem, hafter, htree]
      rfl
    · have hfits : (Folding.one itemRef unfold recursive).Fits w idx ↔
          (idx < item ∨ unfold = false ∧ w.itemsTree.Under idx item) := by
        simp only [Folding.Fits, hitem, Option.some.injEq, forall_eq']
      rw [hfits]
      rcases Nat.lt_or_ge idx item with hbefore | hbehind
      · -- the visible index stays the same
        refine iff_of_true ?_ (.inl hbefore)
        rw [KeepsFocus, if_pos ((shown_iff_of_lt htree hbefore.le).2 hshown), if_neg (not_le.2 hbefore)]
        exact toDisplayed_of_lt htree hidx hbefore
      · -- the focus is dropped, which is right if the node is hidden now
        rw [KeepsFocus, if_pos hbehind, or_iff_right (not_lt.2 hbehind)]
        simp only [shown_iff_of_le htree hlt hshown]
        split
        next hnot => exact iff_of_false (by simp) hnot
        next hnot => exact iff_of_true (.inl trivial) (not_not.1 hnot)

/-! ## All nodes -/

/-- All nodes are shown when all are unfolded. -/
theorem shown_xfoldAll_true (t : DisplayedItemTree) {j : ℕ} (hj : j < t.items.length) :
    (t.xfoldAll true).Shown j := by
  rw [(refolded_xfoldAll t true).shown_iff hj]
  intro i hunder node hnode
  rfl

/-- Only the outermost nodes are shown when all are folded. -/
theorem shown_xfoldAll_false (t : DisplayedItemTree) {j : ℕ} (hj : j < t.items.length) :
    (t.xfoldAll false).Shown j ↔ ∀ i, ¬ t.Under j i := by
  rw [(refolded_xfoldAll t false).shown_iff hj]
  refine forall_congr' fun i => ⟨fun h hunder => ?_, fun h hunder => absurd hunder h⟩
  have hfalse := h hunder _ (List.getElem?_eq_getElem (hunder.1.trans hj))
  cases hfalse

/-- Nodes at level 0 are below no other node. -/
theorem not_under_of_level {t : DisplayedItemTree} (hidx : idx < t.items.length)
    (hlevel : levelAt t.items idx = 0) (i : ℕ) : ¬ t.Under idx i := by
  rintro ⟨hi, hend⟩
  have hdeeper := (lt_subtreeEnd_iff hi hidx).1 hend idx hi le_rfl
  omega

/-- Unfolding all nodes. -/
theorem keepsFocus_unfoldAll (hfocus : w.focusedItem = some vidx) (hidx : w.itemsTree.toDisplayed vidx = some idx) :
    KeepsFocus idx { w with itemsTree := w.itemsTree.xfoldAll true } ↔ (Folding.all true).Fits w idx := by
  obtain ⟨hlt, hshown, hcount⟩ := toDisplayed_eq_some_iff.1 hidx
  have hlen := (refolded_xfoldAll w.itemsTree true).length_items
  have hstays : shownCount (w.itemsTree.items.take idx) = shownCount ((w.itemsTree.xfoldAll true).items.take idx) ↔
      ∀ j, j < idx → (w.itemsTree.xfoldAll true).Shown j → w.itemsTree.Shown j :=
    shownCount_take_eq_iff (by omega) hlt.le fun j hj _ => shown_xfoldAll_true _ (hj.trans hlt)
  rw [KeepsFocus, if_pos (shown_xfoldAll_true _ hlt)]
  simp only [hfocus, Option.bind_some, toDisplayed_eq_some_iff, Folding.Fits]
  constructor
  · rintro ⟨-, -, hcount'⟩ j hj
    exact hstays.1 (hcount.trans hcount'.symm) j hj (shown_xfoldAll_true _ (hj.trans hlt))
  · intro h
    refine ⟨by omega, shown_xfoldAll_true _ hlt, ?_⟩
    rw [← hstays.2 fun j hj _ => h j hj, hcount]

/-- Folding all nodes. -/
theorem keepsFocus_foldAll (hidx : w.itemsTree.toDisplayed vidx = some idx) :
    KeepsFocus idx { w with
      itemsTree := w.itemsTree.xfoldAll false
      focusedItem := if 0 < levelAt w.itemsTree.items idx then none else some vidx } ↔
        (Folding.all false).Fits w idx := by
  obtain ⟨hlt, hshown, hcount⟩ := toDisplayed_eq_some_iff.1 hidx
  have hlen := (refolded_xfoldAll w.itemsTree false).length_items
  rw [KeepsFocus, Folding.Fits]
  dsimp only
  rcases Nat.eq_zero_or_pos (levelAt w.itemsTree.items idx) with hzero | hpos
  · -- the node is shown, and the focus must not move
    have hroot := not_under_of_level hlt hzero
    have hstays : shownCount ((w.itemsTree.xfoldAll false).items.take idx) = shownCount (w.itemsTree.items.take idx) ↔
        ∀ j, j < idx → w.itemsTree.Shown j → (w.itemsTree.xfoldAll false).Shown j := by
      refine shownCount_take_eq_iff hlt.le (by omega) fun j hj hj' => ?_
      rw [shown_xfoldAll_false _ (hj.trans hlt)] at hj'
      exact (shown_iff_under (hj.trans hlt)).2 fun i hunder => absurd hunder (hj' i)
    have hshown' := (shown_xfoldAll_false _ hlt).2 hroot
    rw [if_pos hshown', if_neg (by omega), Option.bind_some, toDisplayed_eq_some_iff]
    have hcount' : shownCount ((w.itemsTree.xfoldAll false).items.take idx) = vidx ↔
        ∀ j, j < idx → w.itemsTree.Shown j → ∀ i, ¬ w.itemsTree.Under j i := by
      rw [← hcount, hstays]
      refine forall_congr' fun j => forall_congr' fun hj => imp_congr_right fun _ => ?_
      exact shown_xfoldAll_false _ (hj.trans hlt)
    rw [hcount']
    exact ⟨fun h => ⟨fun hpos => by omega, fun _ => h.2.2⟩, fun h => ⟨by omega, hshown', h.2 hzero⟩⟩
  · -- the focus is dropped, which is right when the node is below another one
    rw [if_pos hpos]
    split
    next hroot =>
      refine iff_of_false (by simp) fun h => ?_
      obtain ⟨i, hunder⟩ := h.1 hpos
      exact (shown_xfoldAll_false _ hlt).1 hroot i hunder
    next hbelow =>
      rw [shown_xfoldAll_false _ hlt, not_forall_not] at hbelow
      exact iff_of_true (.inl rfl) ⟨fun _ => hbelow, fun hzero => by omega⟩

/-- Folding or unfolding all nodes. -/
theorem keepsFocus_all (unfold : Bool) (hfocus : w.focusedItem = some vidx)
    (hidx : w.itemsTree.toDisplayed vidx = some idx) :
    ∃ w', w.groupFoldAll unfold = .ok w' ∧ w'.itemsTree.refs = w.itemsTree.refs ∧
      (KeepsFocus idx w' ↔ (Folding.all unfold).Fits w idx) := by
  obtain ⟨hlt, -, -⟩ := toDisplayed_eq_some_iff.1 hidx
  have hget : w.itemsTree.getVisible vidx = some w.itemsTree.items[idx] :=
    getVisible_eq_some.2 ⟨idx, hidx, List.getElem?_eq_getElem hlt⟩
  have hafter : w.focusAfterFoldAll unfold =
      .ok (if !unfold && 0 < w.itemsTree.items[idx].level then none else some vidx) := by
    simp only [WaveData.focusAfterFoldAll, hfocus, hget]
  have hrun : w.groupFoldAll unfold = .ok { w with
      itemsTree := w.itemsTree.xfoldAll unfold
      focusedItem := if !unfold && 0 < w.itemsTree.items[idx].level then none else some vidx } := by
    simp only [WaveData.groupFoldAll, hafter]
    rfl
  refine ⟨_, hrun, refs_xfoldAll _ _, ?_⟩
  cases unfold with
  | true =>
    rw [← keepsFocus_unfoldAll hfocus hidx, ← hfocus]
    rfl
  | false =>
    rw [← keepsFocus_foldAll hidx, levelAt_of_lt hlt]
    simp only [Bool.not_false, Bool.true_and, decide_eq_true_eq]

/-! ## The messages -/

/-- When the messages that fold treat the focus right, and when the subtree of a node is told apart. -/
theorem keepsFocus_iff (env : Env) {σ : SystemState} (m : Folding) (hw : σ.user.waves = some w)
    (hfocus : w.focusedItem = some vidx) (hidx : w.itemsTree.toDisplayed vidx = some idx) :
    (∃ σ' w', σ.update env m.message = .ok σ' ∧ σ'.user.waves = some w' ∧
      w'.itemsTree.refs = w.itemsTree.refs ∧ (KeepsFocus idx w' ↔ m.Fits w idx)) ∧
    ∀ root candidate, root < w.itemsTree.items.length → candidate < w.itemsTree.items.length →
      (w.itemsTree.subtreeContains root candidate
          = .ok (decide (candidate = root ∨ w.itemsTree.Under candidate root)) ↔
        candidate < subtreeEnd w.itemsTree.items root) := by
  constructor
  · have hchange : m.message.change env σ = some m.run := by
      match m with
      | .one itemRef false false => rfl
      | .one itemRef false true => rfl
      | .one itemRef true false => rfl
      | .one itemRef true true => rfl
      | .all false => rfl
      | .all true => rfl
    obtain ⟨w', hm, hrefs, hiff⟩ : ∃ w', m.run w = .ok w' ∧ w'.itemsTree.refs = w.itemsTree.refs ∧
        (KeepsFocus idx w' ↔ m.Fits w idx) := by
      cases m with
      | one itemRef unfold recursive => exact keepsFocus_one itemRef unfold recursive hfocus hidx
      | all unfold => exact keepsFocus_all unfold hfocus hidx
    obtain ⟨g, hchanged, hupdate⟩ := update_change hchange hw
    rw [hm] at hupdate
    exact ⟨g w', w', hupdate, (hchanged w').waves, hrefs, hiff⟩
  · intro root candidate hroot hcandidate
    rw [subtreeContains_eq _ hcandidate, Except.ok.injEq, decide_eq_decide, Under]
    have hend : root < subtreeEnd w.itemsTree.items root := lt_subtreeEnd hroot
    omega

/-- Two dividers, and the focus on one of them. -/
def twoDividers (focused : ℕ) : Run SystemState :=
  Transition.run (update defaultEnv) (fresh { hierarchy := .flat [], signals _ := none })
    [.addDivider none none, .addDivider none none, .focusItem focused]

/-- The first of two dividers is folded, and the focus leaves the second. The second is taken to be below the
first. -/
theorem not_keepsFocus_twoDividers : ∃ σ σ' w w', twoDividers 1 = .ok σ ∧ σ.user.waves = some w ∧
    w.focusedItem = some 1 ∧ w.itemsTree.toDisplayed 1 = some 1 ∧
    σ.update defaultEnv (Folding.one (some 1) false false).message = .ok σ' ∧
    σ'.user.waves = some w' ∧ ¬ KeepsFocus 1 w' ∧
    w.itemsTree.subtreeContains 0 1 = .ok true ∧ ¬ w.itemsTree.Under 1 0 := by
  obtain ⟨σ, hσ⟩ := Except.exists_of_isSome (x := twoDividers 1) (by decide)
  obtain ⟨σ', hσ'⟩ := Except.exists_of_isSome
    (x := (twoDividers 1).bind fun σ => σ.update defaultEnv (Folding.one (some 1) false false).message)
    (by decide)
  have htest : (twoDividers 1).toOption.any (fun σ => σ.user.waves.any fun w =>
      w.focusedItem = some 1 ∧ w.itemsTree.toDisplayed 1 = some 1 ∧
        w.itemsTree.subtreeContains 0 1 = .ok true ∧ ¬ w.itemsTree.Under 1 0) = true := by
    decide
  have htest' : ((twoDividers 1).bind fun σ =>
      σ.update defaultEnv (Folding.one (some 1) false false).message).toOption.any (fun σ' =>
        σ'.user.waves.any fun w' => w'.itemsTree.Shown 1 ∧ w'.focusedItem = none) = true := by
    decide
  rw [hσ'] at htest'
  rw [hσ] at htest hσ'
  simp only [Except.toOption, Option.any_some, Option.any_eq_true, decide_eq_true_eq] at htest htest'
  obtain ⟨w, hw, hfocus, hidx, hcontains, hunder⟩ := htest
  obtain ⟨w', hw', hshown, hnone⟩ := htest'
  refine ⟨σ, σ', w, w', hσ, hw, hfocus, hidx, hσ', hw', ?_, hcontains, hunder⟩
  rw [KeepsFocus, if_pos hshown, hnone]
  simp

/-- The second of two dividers is folded, and the focus stays on the first. -/
theorem keepsFocus_iff_twoDividers : ∃ σ σ' w', twoDividers 0 = .ok σ ∧
    σ.update defaultEnv (Folding.one (some 2) false false).message = .ok σ' ∧
    σ'.user.waves = some w' ∧ KeepsFocus 0 w' := by
  obtain ⟨σ, hσ⟩ := Except.exists_of_isSome (x := twoDividers 0) (by decide)
  have htest : (twoDividers 0).toOption.any (fun σ => σ.user.waves.any fun w =>
      w.focusedItem = some 0 ∧ w.itemsTree.toDisplayed 0 = some 0 ∧
        w.indexForRefOrFocus (some 2) = some 1) = true := by
    decide
  rw [hσ] at htest
  simp only [Except.toOption, Option.any_some, Option.any_eq_true, decide_eq_true_eq] at htest
  obtain ⟨w, hw, hfocus, hidx, hitem⟩ := htest
  obtain ⟨⟨σ', w', hupdate, hw', -, hiff⟩, -⟩ :=
    keepsFocus_iff defaultEnv (Folding.one (some 2) false false) hw hfocus hidx
  refine ⟨σ, σ', w', hσ, hupdate, hw', hiff.2 fun item h => .inl ?_⟩
  obtain rfl := Option.some.inj (hitem.symm.trans h)
  exact Nat.one_pos

end Wave
