import Kahuna.ItemTree.Basic
import Mathlib.Data.List.Induction
import Mathlib.Tactic.Push

/-!
# Moving several items

`move_items` promises to move any combination of items: a selected node takes its subtree along,
except that a selected node inside a selected subtree leaves it and follows it at the target. The
loop takes the subtrees out of a copy of the list, from back to front, but measures every subtree on
the old list. That is right as long as no selected node lies in the subtree of another one.

* `movedTree`: what the rules ask for, stated by the innermost selected node that owns a node;
* `MeetsRules`: the rules of a call;
* `perm_movedTree`: what the rules ask for has exactly the old nodes;
* `moveItems_rules`: a selection without nesting meets the rules, and one with nesting, or with an
  index out of range that goes unchecked, meets them only by being refused.
-/

namespace ItemTree

open Outline DisplayedItemTree

/-! ## The rules -/

/-- The node at `start` takes the node at `i` along. -/
def covers (items : List Node) (start i : ℕ) : Bool := start ≤ i && i < subtreeEnd items start

/-- The selected node that takes the node at `i` along: of those whose subtrees it lies in, the
innermost, which is the first from the back. -/
def owner (items : List Node) (roots : List ℕ) (i : ℕ) : Option ℕ :=
  roots.find? fun start => covers items start i

/-- A node of the subtree of `root`, moved with it to `level`. -/
def relevel (items : List Node) (level root : ℕ) (node : Node) : Node :=
  { node with level := level + node.level - levelAt items root }

/-- The nodes that the selected node at `root` takes along. -/
def takenAlong (items : List Node) (roots : List ℕ) (level root : ℕ) : List Node :=
  (keepAt (fun i => owner items roots i = some root) 0 items).map (relevel items level root)

/-- The list after a move: the nodes that nobody takes along keep their order and levels, and the
moved nodes stand at the target, in the order of their owners. -/
def movedTree (items : List Node) (indices : List ℕ) (target : TargetPosition) : List Node :=
  let roots := backToFront indices
  keepAt (fun i => (owner items roots i).isNone && i < target.before) 0 items
    ++ roots.reverse.flatMap (takenAlong items roots target.level)
    ++ keepAt (fun i => (owner items roots i).isNone && target.before ≤ i) 0 items

/-- The rules of a call: it does not panic, it refuses an index out of range, it changes nothing
when it refuses, and otherwise it moves what it should. -/
def MeetsRules (t : DisplayedItemTree) (indices : List ℕ) (target : TargetPosition) : Prop :=
  ∃ result t', t.moveItems indices target = .ok (result, t') ∧
    ((∃ i ∈ indices, t.items.length ≤ i) → result = .error .invalidIndex) ∧
    ((∃ e, result = .error e) → t' = t) ∧
    (result = .ok () → t'.items = movedTree t.items indices target)

/-- The selections that the loop handles: the last index is refused, or all indices are in range and
no selected node lies inside the subtree of another. -/
def PlainSelection (t : DisplayedItemTree) (indices : List ℕ) : Prop :=
  indices.getLast?.any (fun idx => t.items.length ≤ idx) = true ∨
    (∀ i ∈ indices, i < t.items.length) ∧
      ∀ i ∈ indices, ∀ j ∈ indices, ¬ (i < j ∧ j < subtreeEnd t.items i)

/-! ## The order of removal -/

theorem mem_backToFront {indices : List ℕ} {i : ℕ} : i ∈ backToFront indices ↔ i ∈ indices := by
  rw [backToFront, List.mem_dedup, List.mem_insertionSort]

/-- The indices are taken out from back to front. -/
theorem pairwise_backToFront (indices : List ℕ) : (backToFront indices).Pairwise (· > ·) := by
  have hsorted : (backToFront indices).Pairwise (fun a b => b ≤ a) :=
    (List.pairwise_insertionSort (fun a b : ℕ => b ≤ a) indices).sublist (List.dedup_sublist _)
  have hnodup : (backToFront indices).Pairwise (· ≠ ·) := List.nodup_dedup _
  exact (hsorted.and hnodup).imp fun ⟨hle, hne⟩ => lt_of_le_of_ne hle (Ne.symm hne)

/-! ## Shifted subtrees -/

@[simp]
theorem levelAt_of_lt {items : List Node} {i : ℕ} (h : i < items.length) :
    levelAt items i = items[i].level := by
  rw [levelAt, List.getElem?_eq_getElem h]
  rfl

/-- A subtree that could be shifted is shifted node by node. -/
theorem shiftLevels_of_ok {target first : ℕ} {nodes : List Node}
    (h : (shiftLevels target first nodes).2 = .ok ()) :
    (shiftLevels target first nodes).1
      = nodes.map fun node => { node with level := target + node.level - first } := by
  induction nodes with
  | nil => rfl
  | cons node rest ih =>
    rw [shiftLevels] at h ⊢
    split
    · next hbad => simp [hbad] at h
    · next hgood =>
      rw [if_neg hgood] at h
      rw [List.map_cons, ← ih h]

theorem shiftSubtreeToLevel_of_ok {items : List Node} {start end_ level : ℕ}
    (hstart : start < end_) (hend : end_ ≤ items.length)
    (h : (shiftSubtreeToLevel (slice items start end_) level).2 = .ok ()) :
    (shiftSubtreeToLevel (slice items start end_) level).1
      = (slice items start end_).map (relevel items level start) := by
  have hslice : slice items start end_ = items[start] :: slice items (start + 1) end_ := by
    rw [slice, slice, List.drop_eq_getElem_cons (by rw [List.length_take]; omega),
      List.getElem_take]
  rw [hslice, shiftSubtreeToLevel] at h ⊢
  rw [shiftLevels_of_ok h]
  refine List.map_congr_left fun node _ => ?_
  rw [relevel, levelAt_of_lt (by omega)]

/-! ## The loop without nesting -/

/-- None of the processed subtrees covers the node at an index. -/
def uncovered (items : List Node) (done : List ℕ) (i : ℕ) : Bool :=
  !done.any fun start => covers items start i

/-- The nodes that the processed subtrees leave. -/
def survivors (items : List Node) (done : List ℕ) (xs : List Node) : List Node :=
  keepAt (uncovered items done) 0 xs

/-- The subtree of a selected node, moved to `level`. -/
def movedSubtree (items : List Node) (level start : ℕ) : List Node :=
  (slice items start (subtreeEnd items start)).map (relevel items level start)

section Loop

variable {items : List Node} {done : List ℕ} {start : ℕ}

/-- Indices before all processed subtrees are uncovered. -/
theorem uncovered_of_lt {i : ℕ} (h : ∀ d ∈ done, i < d) : uncovered items done i = true := by
  simp only [uncovered, Bool.not_eq_true', List.any_eq_false, covers, Bool.and_eq_true,
    decide_eq_true_eq, not_and]
  intro d hd hle
  have := h d hd
  omega

theorem uncovered_cons (i : ℕ) :
    uncovered items (start :: done) i = (!covers items start i && uncovered items done i) := by
  simp [uncovered]

/-- One more subtree, before all processed ones, is taken out as it stands in the old list. -/
theorem survivors_cons (hstart : start < items.length)
    (hdone : ∀ d ∈ done, subtreeEnd items start ≤ d) {xs : List Node}
    (hxs : subtreeEnd items start ≤ xs.length) :
    (survivors items done xs).take (subtreeEnd items start) = xs.take (subtreeEnd items start) ∧
      survivors items (start :: done) xs = (survivors items done xs).take start
        ++ (survivors items done xs).drop (subtreeEnd items start) := by
  have hlt : start < subtreeEnd items start := lt_subtreeEnd hstart
  have hbefore : ∀ i, i < subtreeEnd items start → uncovered items done i = true :=
    fun i hi => uncovered_of_lt fun d hd => hi.trans_le (hdone d hd)
  apply keepAt_remove hlt.le hxs hbefore
  · intro i hi
    rw [uncovered_cons, hbefore i (hi.trans hlt)]
    simp [covers]
    omega
  · intro i hi hi'
    rw [uncovered_cons]
    simp [covers, hi, hi']
  · intro i hi
    have hnot : covers items start i = false := by
      simp [covers]
      omega
    rw [uncovered_cons, hnot]
    rfl

/-- Before the processed subtrees nothing changes. -/
theorem survivors_take (n : ℕ) (h : ∀ d ∈ done, n ≤ d) :
    survivors items done (items.take n) = items.take n := by
  apply keepAt_eq_self
  intro i _ hi
  rw [List.length_take] at hi
  exact uncovered_of_lt fun d hd => (show i < n by omega).trans_le (h d hd)

/-- The target after the processed subtrees are gone: as many nodes as survive before it, and as far
out of range as it was. -/
def shiftedTarget (items : List Node) (done : List ℕ) (target : ℕ) : ℕ :=
  (survivors items done (items.take target)).length + (target - items.length)

theorem shiftedTarget_nil (target : ℕ) : shiftedTarget items [] target = target := by
  have hself : survivors items [] (items.take target) = items.take target :=
    survivors_take target (by simp)
  rw [shiftedTarget, hself, List.length_take]
  omega

/-- A target up to the next subtree is where it was. -/
theorem shiftedTarget_of_le {target : ℕ} (hstart : start < items.length) (h : target ≤ start)
    (hdone : ∀ d ∈ done, start ≤ d) : shiftedTarget items done target = target := by
  rw [shiftedTarget, survivors_take target fun d hd => h.trans (hdone d hd), List.length_take]
  omega

/-- The target adapts to one more subtree that is taken out. -/
theorem shiftedTarget_cons {target : ℕ} (hstart : start < items.length)
    (hdone : ∀ d ∈ done, subtreeEnd items start ≤ d)
    (hout : ¬ (start + 1 ≤ target ∧ target < subtreeEnd items start)) :
    shiftedTarget items (start :: done) target
      = if start < shiftedTarget items done target then
          shiftedTarget items done target - (subtreeEnd items start - start)
        else shiftedTarget items done target := by
  have hlt : start < subtreeEnd items start := lt_subtreeEnd hstart
  have hle : subtreeEnd items start ≤ items.length := subtreeEnd_le_length hstart
  by_cases htarget : target ≤ start
  · have hbefore : shiftedTarget items done target = target :=
      shiftedTarget_of_le hstart htarget fun d hd => hlt.le.trans (hdone d hd)
    have hafter : shiftedTarget items (start :: done) target = target := by
      apply shiftedTarget_of_le hstart htarget
      intro d hd
      rcases List.mem_cons.mp hd with rfl | hd
      · exact le_rfl
      · exact hlt.le.trans (hdone d hd)
    rw [hbefore, hafter, if_neg (by omega)]
  · have htake : subtreeEnd items start ≤ (items.take target).length := by
      rw [List.length_take]
      omega
    obtain ⟨hkept, hcons⟩ := survivors_cons hstart hdone htake
    have hlen : subtreeEnd items start ≤ (survivors items done (items.take target)).length := by
      have hlen := congrArg List.length hkept
      rw [List.length_take, List.length_take] at hlen
      omega
    have hpos : start < shiftedTarget items done target := by
      rw [shiftedTarget]
      omega
    rw [if_pos hpos, shiftedTarget, shiftedTarget, hcons, List.length_append, List.length_take,
      List.length_drop]
    omega

/-- The target lies inside the next subtree exactly when it did in the old list. -/
theorem shiftedTarget_mem_iff {target : ℕ} (hstart : start < items.length)
    (hdone : ∀ d ∈ done, subtreeEnd items start ≤ d) :
    (start + 1 ≤ shiftedTarget items done target ∧
        shiftedTarget items done target < subtreeEnd items start) ↔
      start + 1 ≤ target ∧ target < subtreeEnd items start := by
  have hlt : start < subtreeEnd items start := lt_subtreeEnd hstart
  have hle : subtreeEnd items start ≤ items.length := subtreeEnd_le_length hstart
  by_cases htarget : target ≤ subtreeEnd items start
  · have hself : shiftedTarget items done target = target := by
      rw [shiftedTarget, survivors_take target fun d hd => htarget.trans (hdone d hd),
        List.length_take]
      omega
    rw [hself]
  · have htake : subtreeEnd items start ≤ (items.take target).length := by
      rw [List.length_take]
      omega
    have hlen := congrArg List.length (survivors_cons hstart hdone htake).1
    rw [List.length_take, List.length_take] at hlen
    have hge : subtreeEnd items start ≤ shiftedTarget items done target := by
      rw [shiftedTarget]
      omega
    omega

/-- A target out of range stays out of range. -/
theorem le_of_shiftedTarget_le {target : ℕ}
    (h : shiftedTarget items done target ≤ (survivors items done items).length) :
    target ≤ items.length := by
  by_contra hlt
  have hall : items.take target = items := List.take_of_length_le (by omega)
  rw [shiftedTarget, hall] at h
  omega

/-- The nodes that the loop slices out of the copy are those of the old list. -/
theorem slice_survivors (hstart : start < items.length)
    (hdone : ∀ d ∈ done, subtreeEnd items start ≤ d) :
    slice (survivors items done items) start (subtreeEnd items start)
      = slice items start (subtreeEnd items start) := by
  rw [slice, slice, (survivors_cons hstart hdone (subtreeEnd_le_length hstart)).1]

theorem subtreeEnd_le_length_survivors (hstart : start < items.length)
    (hdone : ∀ d ∈ done, subtreeEnd items start ≤ d) :
    subtreeEnd items start ≤ (survivors items done items).length := by
  have hle : subtreeEnd items start ≤ items.length := subtreeEnd_le_length hstart
  have hlen := congrArg List.length (survivors_cons hstart hdone hle).1
  rw [List.length_take, List.length_take] at hlen
  omega

variable (level target : ℕ)

/-- Without nesting the loop stops with an error, at a subtree that the target is inside or that cannot be
shifted, or takes out every selected subtree as it stands in the old list. -/
theorem moveLoop_plain {todo : List ℕ} (hrange : ∀ s ∈ todo, s < items.length)
    (htodo : todo.Pairwise (fun a b => subtreeEnd items b ≤ a))
    (hdone : ∀ s ∈ todo, ∀ d ∈ done, subtreeEnd items s ≤ d) (extracted : List Node) :
    (∃ e, moveLoop items level todo (survivors items done items) extracted
        (shiftedTarget items done target) = .ok (.error e) ∧
      ∃ s ∈ todo, (s + 1 ≤ target ∧ target < subtreeEnd items s) ∨
        (shiftSubtreeToLevel (slice items s (subtreeEnd items s)) level).2 = .error e) ∨
      moveLoop items level todo (survivors items done items) extracted
          (shiftedTarget items done target)
        = .ok (.ok (survivors items (todo.reverse ++ done) items,
          todo.reverse.flatMap (movedSubtree items level) ++ extracted,
          shiftedTarget items (todo.reverse ++ done) target)) := by
  induction todo generalizing done extracted with
  | nil => exact .inr rfl
  | cons start rest ih =>
    obtain ⟨hrest, htodo⟩ := List.pairwise_cons.mp htodo
    have hstart : start < items.length := hrange start List.mem_cons_self
    have hstartDone := hdone start List.mem_cons_self
    have hlt : start < subtreeEnd items start := lt_subtreeEnd hstart
    have hle : subtreeEnd items start ≤ items.length := subtreeEnd_le_length hstart
    have hlen := subtreeEnd_le_length_survivors hstart hstartDone
    rw [moveLoop, if_neg (by omega)]
    by_cases hcircular : start + 1 ≤ shiftedTarget items done target ∧
        shiftedTarget items done target < subtreeEnd items start
    · exact .inl ⟨.circularMove, by rw [if_pos hcircular], start, List.mem_cons_self,
        .inl ((shiftedTarget_mem_iff hstart hstartDone).1 hcircular)⟩
    rw [if_neg hcircular, if_neg (by omega), slice_survivors hstart hstartDone]
    cases hshift : shiftSubtreeToLevel (slice items start (subtreeEnd items start)) level with
    | mk moved status =>
      cases status with
      | error e => exact .inl ⟨e, rfl, start, List.mem_cons_self, .inr (by rw [hshift])⟩
      | ok u =>
        -- the subtree is moved, and the rest of the loop runs on what it leaves
        have hmoved : moved = movedSubtree items level start := by
          have hok : (shiftSubtreeToLevel (slice items start (subtreeEnd items start)) level).1
              = movedSubtree items level start :=
            shiftSubtreeToLevel_of_ok hlt hle (by rw [hshift])
          rw [hshift] at hok
          exact hok
        have houtside := (shiftedTarget_mem_iff hstart hstartDone).not.mp hcircular
        rw [← shiftedTarget_cons hstart hstartDone houtside,
          ← (survivors_cons hstart hstartDone hle).2, hmoved]
        have hdone' : ∀ s ∈ rest, ∀ d ∈ start :: done, subtreeEnd items s ≤ d := by
          intro s hs d hd
          rcases List.mem_cons.mp hd with rfl | hd
          · exact hrest s hs
          · exact hdone s (List.mem_cons_of_mem _ hs) d hd
        have hih := ih (fun s hs => hrange s (List.mem_cons_of_mem _ hs)) htodo hdone'
          (movedSubtree items level start ++ extracted)
        rw [List.reverse_cons, List.flatMap_append, List.append_assoc, List.append_assoc]
        rcases hih with ⟨e, hih, s, hs, hstops⟩ | hih
        · exact .inl ⟨e, hih, s, List.mem_cons_of_mem _ hs, hstops⟩
        · exact .inr (by simpa only [List.singleton_append, List.flatMap_singleton] using hih)

end Loop

/-! ## Selections without nesting -/

section Plain

variable {items : List Node} {roots : List ℕ}

/-- A node that nobody takes along is covered by no selected subtree. -/
theorem isNone_owner (items : List Node) (roots : List ℕ) (i : ℕ) :
    (owner items roots i).isNone = uncovered items roots.reverse i := by
  rw [owner, uncovered, List.any_reverse, Bool.eq_iff_iff, Option.isNone_iff_eq_none,
    List.find?_eq_none, Bool.not_eq_true', List.any_eq_false]

/-- Without nesting a node has one owner at most. -/
theorem owner_eq_some_iff (hroots : roots.Pairwise (fun a b => subtreeEnd items b ≤ a))
    {root i : ℕ} (hroot : root ∈ roots) :
    owner items roots i = some root ↔ covers items root i = true := by
  constructor
  · exact fun h => List.find?_some (p := fun start => covers items start i) h
  · intro h
    obtain ⟨other, hother⟩ : ∃ other, owner items roots i = some other :=
      Option.isSome_iff_exists.mp (List.find?_isSome.mpr ⟨root, hroot, h⟩)
    have hcovers : covers items other i = true :=
      List.find?_some (p := fun start => covers items start i) hother
    have hmem : other ∈ roots := List.mem_of_find?_eq_some hother
    simp only [covers, Bool.and_eq_true, decide_eq_true_eq] at h hcovers
    -- two subtrees that both cover the node are one
    have hpair : roots.Pairwise fun a b =>
        a ≠ b → subtreeEnd items a ≤ b ∨ subtreeEnd items b ≤ a := hroots.imp fun hab _ => .inr hab
    have hflip : roots.Pairwise (flip fun a b =>
        a ≠ b → subtreeEnd items a ≤ b ∨ subtreeEnd items b ≤ a) := hroots.imp fun hab _ => .inl hab
    have hunique := hpair.forall_of_forall_of_flip (fun _ _ hne => absurd rfl hne) hflip
    by_contra hne
    have hne' : root ≠ other := fun heq => hne (heq ▸ hother)
    rcases hunique hroot hmem hne' with h' | h' <;> omega

/-- Without nesting a selected node takes its whole subtree along. -/
theorem takenAlong_eq (hroots : roots.Pairwise (fun a b => subtreeEnd items b ≤ a))
    (hrange : ∀ s ∈ roots, s < items.length) (level : ℕ) {root : ℕ} (hroot : root ∈ roots) :
    takenAlong items roots level root = movedSubtree items level root := by
  have hlt : root < subtreeEnd items root := lt_subtreeEnd (hrange root hroot)
  have hle : subtreeEnd items root ≤ items.length := subtreeEnd_le_length (hrange root hroot)
  have hkeep : keepAt (fun i => owner items roots i = some root) 0 items
      = slice items root (subtreeEnd items root) := by
    rw [slice, ← keepAt_interval hlt.le hle]
    apply keepAt_congr
    intro i _ _
    rw [Bool.eq_iff_iff, decide_eq_true_iff, owner_eq_some_iff hroots hroot, covers]
  rw [takenAlong, movedSubtree, hkeep]

/-- The survivors around the target are the nodes that nobody takes along. -/
theorem movedTree_eq {indices : List ℕ} {target : TargetPosition}
    (hroots : (backToFront indices).Pairwise (fun a b => subtreeEnd items b ≤ a))
    (hrange : ∀ s ∈ backToFront indices, s < items.length)
    (htarget : target.before ≤ items.length) :
    movedTree items indices target =
      let done := (backToFront indices).reverse
      let result := survivors items done items
      let shifted := shiftedTarget items done target.before
      result.take shifted ++ done.flatMap (movedSubtree items target.level)
        ++ result.drop shifted := by
  have hmoved : (backToFront indices).reverse.flatMap
      (takenAlong items (backToFront indices) target.level)
      = (backToFront indices).reverse.flatMap (movedSubtree items target.level) :=
    List.flatMap_congr fun root hroot =>
      takenAlong_eq hroots hrange target.level (List.mem_reverse.mp hroot)
  set done := (backToFront indices).reverse with hdone
  -- cut the survivors at the target
  have hcut : keepAt (uncovered items done) 0 items
      = keepAt (uncovered items done) 0 (items.take target.before)
        ++ keepAt (uncovered items done) (0 + target.before) (items.drop target.before) :=
    keepAt_take_drop target.before htarget
  have hlen : shiftedTarget items done target.before
      = (keepAt (uncovered items done) 0 (items.take target.before)).length := by
    rw [shiftedTarget, survivors]
    omega
  have hbefore : keepAt (fun i => (owner items (backToFront indices) i).isNone
      && i < target.before) 0 items
      = keepAt (uncovered items done) 0 (items.take target.before) := by
    have hnil : keepAt (fun i => (owner items (backToFront indices) i).isNone
        && i < target.before) (0 + target.before) (items.drop target.before) = [] := by
      apply keepAt_eq_nil
      intro i hi _
      simp
      omega
    rw [keepAt_take_drop target.before htarget, hnil, List.append_nil]
    apply keepAt_congr
    intro i _ hi
    rw [List.length_take] at hi
    rw [isNone_owner, decide_eq_true (show i < target.before by omega), Bool.and_true]
  have hafter : keepAt (fun i => (owner items (backToFront indices) i).isNone
      && target.before ≤ i) 0 items
      = keepAt (uncovered items done) (0 + target.before) (items.drop target.before) := by
    have hnil : keepAt (fun i => (owner items (backToFront indices) i).isNone
        && target.before ≤ i) 0 (items.take target.before) = [] := by
      apply keepAt_eq_nil
      intro i _ hi
      rw [List.length_take] at hi
      simp
      omega
    rw [keepAt_take_drop target.before htarget, hnil, List.nil_append]
    apply keepAt_congr
    intro i hi _
    rw [isNone_owner, decide_eq_true (show target.before ≤ i by omega), Bool.and_true]
  rw [movedTree, hmoved, hbefore, hafter]
  show _ = (survivors items done items).take _ ++ _ ++ (survivors items done items).drop _
  rw [survivors, hcut, hlen, List.take_left, List.drop_left]

end Plain

/-- A call whose last index is in range runs the loop. -/
theorem moveItems_eq {t : DisplayedItemTree} {indices : List ℕ} {target : TargetPosition}
    (hlast : indices.getLast?.any (fun idx => t.items.length ≤ idx) = false) :
    t.moveItems indices target =
      match moveLoop t.items target.level (backToFront indices) t.items [] target.before with
      | .error p => .error p
      | .ok (.error e) => .ok (.error e, t)
      | .ok (.ok (result, extracted, shifted)) =>
        match checkLocation result ⟨shifted, target.level⟩ with
        | .error e => .ok (.error e, t)
        | .ok () =>
          .ok (.ok (), { items := result.take shifted ++ extracted ++ result.drop shifted }) := by
  rw [moveItems, hlast]
  rfl

/-- Items that cannot be moved stay where they are. -/
theorem eq_of_moveItems_error {t t' : DisplayedItemTree} {indices : List ℕ} {target : TargetPosition} {e : MoveError}
    (h : t.moveItems indices target = .ok (.error e, t')) : t' = t := by
  rw [moveItems] at h
  split at h
  · exact (Prod.mk.inj (Except.ok.inj h)).2.symm
  split at h
  · cases h
  · exact (Prod.mk.inj (Except.ok.inj h)).2.symm
  · split at h
    · exact (Prod.mk.inj (Except.ok.inj h)).2.symm
    · cases h

/-- A checked location is in range. -/
theorem before_le_of_checkLocation {items : List Node} {target : TargetPosition}
    (h : checkLocation items target = .ok ()) : target.before ≤ items.length := by
  rw [checkLocation] at h
  split at h
  · simp at h
  · omega

/-- The loop over two lists of indices, one after the other. -/
theorem moveLoop_append (items : List Node) (level : ℕ) (xs ys : List ℕ)
    (result extracted : List Node) (target : ℕ) :
    moveLoop items level (xs ++ ys) result extracted target =
      match moveLoop items level xs result extracted target with
      | .error p => .error p
      | .ok (.error e) => .ok (.error e)
      | .ok (.ok (result, extracted, target)) =>
        moveLoop items level ys result extracted target := by
  induction xs generalizing result extracted target with
  | nil => rfl
  | cons start rest ih =>
    simp only [List.cons_append, moveLoop]
    split
    · rfl
    split
    · rfl
    split
    · rfl
    split
    · rfl
    · exact ih _ _ _

/-- What one pass of the loop does when the loop goes through. -/
theorem moveLoop_cons_of_ok {items : List Node} {level start : ℕ} {rest : List ℕ}
    {result extracted : List Node} {target : ℕ} {out : List Node × List Node × ℕ}
    (h : moveLoop items level (start :: rest) result extracted target = .ok (.ok out)) :
    subtreeEnd items start ≤ result.length ∧ ∃ moved target',
      shiftSubtreeToLevel (slice result start (subtreeEnd items start)) level = (moved, .ok ()) ∧
      moveLoop items level rest (result.take start ++ result.drop (subtreeEnd items start))
        (moved ++ extracted) target' = .ok (.ok out) := by
  simp only [moveLoop] at h
  by_cases hrange : items.length ≤ start
  · rw [if_pos hrange] at h
    cases h
  by_cases hcircular : start + 1 ≤ target ∧ target < subtreeEnd items start
  · rw [if_neg hrange, if_pos hcircular] at h
    cases h
  by_cases hlen : result.length < subtreeEnd items start
  · rw [if_neg hrange, if_neg hcircular, if_pos hlen] at h
    cases h
  rw [if_neg hrange, if_neg hcircular, if_neg hlen] at h
  refine ⟨not_lt.mp hlen, ?_⟩
  cases hshift : shiftSubtreeToLevel (slice result start (subtreeEnd items start)) level with
  | mk moved status =>
    rw [hshift] at h
    cases status with
    | error e => simp at h
    | ok u => exact ⟨moved, _, rfl, h⟩

/-- What is extracted stays extracted, behind what follows. -/
theorem extracted_suffix {items : List Node} {level : ℕ} {todo : List ℕ}
    {result extracted : List Node} {target : ℕ} {out : List Node × List Node × ℕ}
    (h : moveLoop items level todo result extracted target = .ok (.ok out)) :
    extracted <:+ out.2.1 := by
  induction todo generalizing result extracted target with
  | nil =>
    simp only [moveLoop, Except.ok.injEq] at h
    subst h
    exact List.suffix_rfl
  | cons start rest ih =>
    obtain ⟨-, moved, target', -, hrest⟩ := moveLoop_cons_of_ok h
    exact (List.suffix_append _ _).trans (ih hrest)

/-- What a call does without nesting: it is refused, or puts the subtrees into what they leave, where
that is a right place for them. -/
theorem moveItems_of_disjoint {t : DisplayedItemTree} {indices : List ℕ}
    (hroots : (backToFront indices).Pairwise (fun a b => subtreeEnd t.items b ≤ a))
    (hrange : ∀ s ∈ backToFront indices, s < t.items.length) (target : TargetPosition) :
    let done := (backToFront indices).reverse
    let result := survivors t.items done t.items
    let moved := done.flatMap (movedSubtree t.items target.level)
    let shifted := shiftedTarget t.items done target.before
    (∃ e, t.moveItems indices target = .ok (.error e, t)) ∨
      moveLoop t.items target.level (backToFront indices) t.items [] target.before
          = .ok (.ok (result, moved, shifted)) ∧
        checkLocation result ⟨shifted, target.level⟩ = .ok () ∧
        t.moveItems indices target
          = .ok (.ok (), { items := result.take shifted ++ moved ++ result.drop shifted }) := by
  have hlast : indices.getLast?.any (fun idx => t.items.length ≤ idx) = false := by
    cases h : indices.getLast? with
    | none => rfl
    | some idx => simpa using hrange idx (mem_backToFront.mpr (List.mem_of_getLast? h))
  have hnone : survivors t.items [] t.items = t.items := keepAt_eq_self fun _ _ _ => rfl
  have hdone : ∀ s ∈ backToFront indices, ∀ d ∈ ([] : List ℕ), subtreeEnd t.items s ≤ d := by simp
  have hloop := moveLoop_plain target.level target.before hrange hroots hdone []
  rw [hnone, shiftedTarget_nil, List.append_nil, List.append_nil] at hloop
  rcases hloop with ⟨e, hloop, -⟩ | hloop
  · exact .inl ⟨e, by rw [moveItems_eq hlast, hloop]⟩
  cases hcheck : checkLocation (survivors t.items (backToFront indices).reverse t.items)
      ⟨shiftedTarget t.items (backToFront indices).reverse target.before, target.level⟩ with
  | error e =>
    refine .inl ⟨e, ?_⟩
    rw [moveItems_eq hlast, hloop]
    simp only [hcheck]
  | ok u =>
    refine .inr ⟨hloop, hcheck, ?_⟩
    rw [moveItems_eq hlast, hloop]
    simp only [hcheck]

/-- Without nesting a call meets the rules. -/
theorem meetsRules_of_disjoint {t : DisplayedItemTree} {indices : List ℕ}
    (hroots : (backToFront indices).Pairwise (fun a b => subtreeEnd t.items b ≤ a))
    (hrange : ∀ s ∈ backToFront indices, s < t.items.length) (target : TargetPosition) :
    MeetsRules t indices target := by
  have hvalid : ¬ ∃ i ∈ indices, t.items.length ≤ i := by
    rintro ⟨i, hi, hle⟩
    have := hrange i (mem_backToFront.mpr hi)
    omega
  rcases moveItems_of_disjoint hroots hrange target with ⟨e, hmoves⟩ | ⟨-, hcheck, hmoves⟩
  · exact ⟨.error e, t, hmoves, fun h => absurd h hvalid, fun _ => rfl, by simp⟩
  have hbefore := before_le_of_checkLocation hcheck
  have htarget : target.before ≤ t.items.length := le_of_shiftedTarget_le hbefore
  rw [← movedTree_eq hroots hrange htarget] at hmoves
  exact ⟨.ok (), _, hmoves, fun h => absurd h hvalid, by simp, fun _ => rfl⟩

/-- A plain selection meets the rules. -/
theorem meetsRules_of_plain {t : DisplayedItemTree} {indices : List ℕ}
    (h : PlainSelection t indices) (target : TargetPosition) : MeetsRules t indices target := by
  rcases h with hlast | ⟨hrange, hnested⟩
  · have hmoves : t.moveItems indices target = .ok (.error .invalidIndex, t) := by
      rw [moveItems, if_pos hlast]
    exact ⟨.error .invalidIndex, t, hmoves, fun _ => rfl, fun _ => rfl, by simp⟩
  · apply meetsRules_of_disjoint
    · refine (pairwise_backToFront indices).imp_of_mem fun {a b} ha hb hab => ?_
      have := hnested b (mem_backToFront.mp hb) a (mem_backToFront.mp ha)
      omega
    · exact fun s hs => hrange s (mem_backToFront.mp hs)

/-! ## The nodes of a moved tree -/

/-- Keeping what one of several owners takes along is keeping what each of them does. -/
theorem perm_flatMap_keepAt (items : List Node) (own : ℕ → Option ℕ) {roots : List ℕ}
    (hnodup : roots.Nodup) :
    (keepAt (fun i => (own i).any fun root => root ∈ roots) 0 items).Perm
      (roots.flatMap fun root => keepAt (fun i => own i = some root) 0 items) := by
  induction roots with
  | nil =>
    have hnil : keepAt (fun i => (own i).any fun root => root ∈ ([] : List ℕ)) 0 items = [] := by
      apply keepAt_eq_nil
      intro i _ _
      cases own i <;> simp
    rw [hnil, List.flatMap_nil]
  | cons root roots ih =>
    obtain ⟨hroot, hroots⟩ := List.nodup_cons.mp hnodup
    have hsplit : keepAt (fun i => (own i).any fun r => r ∈ root :: roots) 0 items
        = keepAt (fun i => (own i = some root) || (own i).any fun r => r ∈ roots) 0 items := by
      apply keepAt_congr
      intro i _ _
      cases own i <;> simp
    rw [hsplit, List.flatMap_cons]
    refine (keepAt_or_perm fun i hi => ?_).trans ((ih hroots).append_left _)
    rw [of_decide_eq_true hi]
    simpa using hroot

/-- A moved tree has exactly the old nodes. -/
theorem perm_movedTree (items : List Node) (indices : List ℕ) (target : TargetPosition) :
    ((movedTree items indices target).map Node.itemRef).Perm (items.map Node.itemRef) := by
  set roots := backToFront indices with hroots
  set own := owner items roots with hown
  have hmoved : ((roots.reverse.flatMap (takenAlong items roots target.level)).map Node.itemRef).Perm
      ((keepAt (fun i => (own i).isSome) 0 items).map Node.itemRef) := by
    have hrefs : (roots.reverse.flatMap (takenAlong items roots target.level)).map Node.itemRef
        = (roots.reverse.flatMap fun root =>
            keepAt (fun i => own i = some root) 0 items).map Node.itemRef := by
      rw [List.map_flatMap, List.map_flatMap]
      apply List.flatMap_congr
      intro root _
      rw [takenAlong, List.map_map]
      rfl
    have hsome : keepAt (fun i => (own i).isSome) 0 items
        = keepAt (fun i => (own i).any fun root => root ∈ roots.reverse) 0 items := by
      apply keepAt_congr
      intro i _ _
      cases h : own i with
      | none => rfl
      | some root =>
        have hmem : root ∈ roots := List.mem_of_find?_eq_some h
        simpa using hmem
    have hnodup : roots.reverse.Nodup :=
      List.nodup_reverse.mpr ((pairwise_backToFront indices).imp fun h => ne_of_gt h)
    rw [hrefs, hsome]
    exact (perm_flatMap_keepAt items own hnodup).symm.map _
  have hnone : (keepAt (fun i => (own i).isNone && i < target.before) 0 items
      ++ keepAt (fun i => (own i).isNone && target.before ≤ i) 0 items).Perm
      (keepAt (fun i => (own i).isNone) 0 items) := by
    have hor : keepAt (fun i => (own i).isNone) 0 items
        = keepAt (fun i => ((own i).isNone && i < target.before)
          || ((own i).isNone && target.before ≤ i)) 0 items := by
      apply keepAt_congr
      intro i _ _
      cases own i with
      | none => simp [lt_or_ge]
      | some root => rfl
    rw [hor]
    refine (keepAt_or_perm fun i hi => ?_).symm
    simp only [Bool.and_eq_true, decide_eq_true_eq] at hi
    simp [hi.2]
  have hall : keepAt (fun i => (own i).isNone || (own i).isSome) 0 items = items := by
    apply keepAt_eq_self
    intro i _ _
    cases own i <;> rfl
  have hitems : (keepAt (fun i => (own i).isNone) 0 items
      ++ keepAt (fun i => (own i).isSome) 0 items).Perm items := by
    conv_rhs => rw [← hall]
    refine (keepAt_or_perm fun i hi => ?_).symm
    rw [Option.isNone_iff_eq_none.mp hi]
    rfl
  show ((keepAt _ 0 items ++ _ ++ keepAt _ 0 items).map Node.itemRef).Perm _
  rw [List.map_append, List.map_append, List.append_assoc]
  refine (List.perm_append_comm.append_left _).trans ?_
  rw [← List.append_assoc, ← List.map_append]
  refine ((hnone.map _).append hmoved).trans ?_
  rw [← List.map_append]
  exact hitems.map _

/-! ## Selections with nesting -/

/-- Two members of a list without duplicates stand in one order only. -/
theorem not_sublist_swap {α : Type*} {xs : List α} (hnodup : xs.Nodup) {a b : α}
    (h : [a, b].Sublist xs) (h' : [b, a].Sublist xs) : False := by
  obtain ⟨ys, zs, rfl, hys, hzs⟩ :=
    List.append_sublist_iff.mp (show ([a] ++ [b]).Sublist xs from h)
  have ha : a ∈ ys := List.singleton_sublist.mp hys
  have hb : b ∈ zs := List.singleton_sublist.mp hzs
  have hdisjoint := (List.nodup_append.mp hnodup).2.2
  obtain ⟨us, vs, hsplit, hus, hvs⟩ := List.sublist_append_iff.mp h'
  cases us with
  | nil =>
    rw [List.nil_append] at hsplit
    have ha' : a ∈ zs := hvs.subset (by simp [← hsplit])
    exact hdisjoint a ha a ha' rfl
  | cons u us =>
    obtain ⟨rfl, -⟩ := List.cons.inj hsplit
    exact hdisjoint _ (hus.subset List.mem_cons_self) _ hb rfl

/-- A list that is not pairwise related has a first member that some member before it is not related
to. -/
theorem exists_first_not_pairwise {α : Type*} {R : α → α → Prop} {xs : List α}
    (h : ¬ xs.Pairwise R) :
    ∃ pre x post, xs = pre ++ x :: post ∧ pre.Pairwise R ∧ ∃ y ∈ pre, ¬ R y x := by
  induction xs using List.reverseRecOn with
  | nil => simp at h
  | append_singleton xs x ih =>
    by_cases hxs : xs.Pairwise R
    · have hlast : ∃ y ∈ xs, ¬ R y x := by
        by_contra hall
        push Not at hall
        exact h (List.pairwise_append.mpr ⟨hxs, by simp, by simpa using hall⟩)
      exact ⟨xs, x, [], rfl, hxs, hlast⟩
    · obtain ⟨pre, y, post, rfl, hpre, hy⟩ := ih hxs
      exact ⟨pre, y, post ++ [x], by simp, hpre, hy⟩

/-- Shifting leaves the keys of the nodes alone. -/
theorem map_itemRef_shift (nodes : List Node) (level : ℕ) :
    (shiftSubtreeToLevel nodes level).1.map Node.itemRef = nodes.map Node.itemRef := by
  have hlevels : ∀ first (nodes : List Node),
      (shiftLevels level first nodes).1.map Node.itemRef = nodes.map Node.itemRef := by
    intro first nodes
    induction nodes with
    | nil => rfl
    | cons node rest ih =>
      rw [shiftLevels]
      split
      · rfl
      · simp [ih]
  cases nodes with
  | nil => rfl
  | cons root rest => exact hlevels root.level _

section Nested

variable {items : List Node} {roots : List ℕ}

/-- A node of an owner's share. -/
theorem mem_takenAlong {i root : ℕ} (hi : i < items.length) (level : ℕ)
    (h : owner items roots i = some root) :
    items[i].itemRef ∈ (takenAlong items roots level root).map Node.itemRef := by
  have hmem : items[i] ∈ keepAt (fun i => owner items roots i = some root) 0 items :=
    mem_keepAt.mpr ⟨i, hi, by simpa using h, rfl⟩
  rw [takenAlong, List.map_map]
  exact List.mem_map.mpr ⟨items[i], hmem, rfl⟩

/-- When a nested node is already gone, slicing the extent of the subtree around it out of the rest
takes a node along that lies behind that subtree. -/
theorem exists_stray {done : List ℕ} {start nested : ℕ} (hstart : start < items.length)
    (hdone : ∀ d ∈ done, start < d) (hnested : nested ∈ done)
    (hin : nested < subtreeEnd items start)
    (hlen : subtreeEnd items start ≤ (survivors items done items).length) :
    ∃ k, ∃ hk : k < items.length, subtreeEnd items start ≤ k ∧ uncovered items done k = true ∧
      [items[start], items[k]].Sublist
        (slice (survivors items done items) start (subtreeEnd items start)) := by
  have hlt : start < subtreeEnd items start := lt_subtreeEnd hstart
  have hle : subtreeEnd items start ≤ items.length := subtreeEnd_le_length hstart
  have hrange : nested < items.length := hin.trans_le hle
  set e := subtreeEnd items start with he
  set q := uncovered items done with hq
  -- what is left of the list: before the subtree, of the subtree, and behind it
  have hbefore : keepAt q 0 (items.take (start + 1)) = items.take (start + 1) := by
    apply keepAt_eq_self
    intro i _ hi
    rw [List.length_take] at hi
    exact uncovered_of_lt fun d hd => (show i ≤ start by omega).trans_lt (hdone d hd)
  set inside := keepAt q (start + 1) ((items.take e).drop (start + 1)) with hinside
  set behind := keepAt q e (items.drop e) with hbehind
  have hsurvivors : survivors items done items
      = items.take (start + 1) ++ (inside ++ behind) := by
    have htake : start + 1 ≤ (items.take e).length := by
      rw [List.length_take]
      omega
    rw [survivors, keepAt_take_drop e hle, Nat.zero_add, keepAt_take_drop (start + 1) htake,
      Nat.zero_add, List.take_take, Nat.min_eq_left (by omega), hbefore, List.append_assoc]
  have hstay : items.take (start + 1) = items.take start ++ [items[start]] := by
    rw [List.take_succ_eq_append_getElem hstart]
  have hinsideLen : inside.length < e - (start + 1) := by
    have hcovered : q nested = false := by
      have hself : covers items nested nested = true := by
        have hself : nested < subtreeEnd items nested := lt_subtreeEnd hrange
        simp [covers, hself]
      simp only [hq, uncovered, Bool.not_eq_false']
      exact List.any_eq_true.mpr ⟨nested, hnested, hself⟩
    have hnestedLt := hdone nested hnested
    have hlength : ((items.take e).drop (start + 1)).length = e - (start + 1) := by
      rw [List.length_drop, List.length_take, Nat.min_eq_left hle]
    rw [← hlength]
    exact length_keepAt_lt (show start + 1 ≤ nested by omega) (by omega) hcovered
  have hslice : slice (survivors items done items) start e
      = items[start] :: (inside ++ behind).take (e - (start + 1)) := by
    have hlenStart : (items.take start).length = start := by
      rw [List.length_take, Nat.min_eq_left hstart.le]
    rw [slice, hsurvivors, hstay, List.append_assoc, List.take_append, hlenStart,
      List.take_of_length_le (by omega), List.drop_left' hlenStart, List.singleton_append,
      show e - start = (e - (start + 1)) + 1 by omega, List.take_succ_cons]
  have hbehindLen : 0 < behind.length := by
    rw [hsurvivors, List.length_append, List.length_append, List.length_take] at hlen
    omega
  obtain ⟨x, tail, htail⟩ := List.exists_cons_of_length_pos hbehindLen
  have hx : x ∈ behind := by simp [htail]
  obtain ⟨i, hi, hqi, hxi⟩ := mem_keepAt.mp hx
  rw [List.length_drop] at hi
  have hk : e + i < items.length := by omega
  have hxk : items[e + i] = x := by rw [← hxi, List.getElem_drop]
  refine ⟨e + i, hk, by omega, hqi, ?_⟩
  rw [hslice, hxk, List.take_append, htail]
  apply List.Sublist.cons_cons
  apply List.singleton_sublist.mpr
  apply List.mem_append_right
  rw [show e - (start + 1) - inside.length = (e - (start + 1) - inside.length - 1) + 1 by omega,
    List.take_succ_cons]
  exact List.mem_cons_self

/-- In what the rules ask for, a node that neither the nodes at `pre` nor the one at `start` take
along does not stand between the node at `start` and a node at `pre`. -/
theorem not_between_movedTree {indices : List ℕ} {target : TargetPosition}
    (hnodup : (items.map Node.itemRef).Nodup) {pre post : List ℕ} {start nested k : ℕ}
    (hroots : backToFront indices = pre ++ start :: post)
    (hstart : start < items.length) (hnested : nested ∈ pre) (hrange : nested < items.length)
    (hk : k < items.length) (hpre : uncovered items pre k = true)
    (hbehind : subtreeEnd items start ≤ k)
    (hfirst : [items[start].itemRef, items[k].itemRef].Sublist
      ((movedTree items indices target).map Node.itemRef))
    (hsecond : [items[k].itemRef, items[nested].itemRef].Sublist
      ((movedTree items indices target).map Node.itemRef)) : False := by
  have hmovedNodup : ((movedTree items indices target).map Node.itemRef).Nodup :=
    (perm_movedTree items indices target).nodup_iff.mpr hnodup
  have hsorted := pairwise_backToFront indices
  rw [hroots] at hsorted
  -- the node at `start` takes itself along, and so does the node at `nested` or one inside it
  have hownStart : owner items (pre ++ start :: post) start = some start := by
    have hself : covers items start start = true := by
      have hself : start < subtreeEnd items start := lt_subtreeEnd hstart
      simp [covers, hself]
    have hnone : pre.find? (fun s => covers items s start) = none := by
      rw [List.find?_eq_none]
      intro s hs
      have hlt : s > start := (List.pairwise_append.mp hsorted).2.2 s hs start List.mem_cons_self
      simp [covers]
      omega
    rw [owner, List.find?_append, hnone, Option.none_or]
    exact List.find?_cons_of_pos (p := fun s => covers items s start) hself
  obtain ⟨root, hownNested⟩ : ∃ root, owner items (pre ++ start :: post) nested = some root := by
    have hself : covers items nested nested = true := by
      have hself : nested < subtreeEnd items nested := lt_subtreeEnd hrange
      simp [covers, hself]
    exact Option.isSome_iff_exists.mp
      (List.find?_isSome.mpr ⟨nested, List.mem_append_left _ hnested, hself⟩)
  have hrootNested : root ∈ pre ++ start :: post := List.mem_of_find?_eq_some hownNested
  set moved := (pre ++ start :: post).reverse.flatMap
    (takenAlong items (pre ++ start :: post) target.level) with hmoved
  have hmem : ∀ {i root : ℕ} (hi : i < items.length), root ∈ pre ++ start :: post →
      owner items (pre ++ start :: post) i = some root →
      items[i].itemRef ∈ moved.map Node.itemRef := by
    intro i root hi hroot hown
    rw [hmoved, List.map_flatMap]
    exact List.mem_flatMap.mpr ⟨root, List.mem_reverse.mpr hroot, mem_takenAlong hi _ hown⟩
  rw [movedTree, hroots, List.map_append, List.map_append] at hfirst hsecond hmovedNodup
  cases hown : owner items (pre ++ start :: post) k with
  | none =>
    by_cases htarget : k < target.before
    · -- it stays in front of all that is moved
      have hbefore : items[k].itemRef ∈ (keepAt (fun i =>
          (owner items (pre ++ start :: post) i).isNone && i < target.before) 0 items).map
            Node.itemRef :=
        List.mem_map_of_mem (mem_keepAt.mpr ⟨k, hk, by simp [hown, htarget], rfl⟩)
      apply not_sublist_swap hmovedNodup hfirst
      rw [List.append_assoc]
      exact (List.singleton_sublist.mpr hbefore).append (List.singleton_sublist.mpr
        (List.mem_append_left _ (hmem hstart (by simp) hownStart)))
    · -- it stays behind all that is moved
      have hafter : items[k].itemRef ∈ (keepAt (fun i =>
          (owner items (pre ++ start :: post) i).isNone && target.before ≤ i) 0 items).map
            Node.itemRef :=
        List.mem_map_of_mem
          (mem_keepAt.mpr ⟨k, hk, by simp [hown, not_lt.mp htarget], rfl⟩)
      apply not_sublist_swap hmovedNodup hsecond
      exact (List.singleton_sublist.mpr (List.mem_append_right _
        (hmem hrange hrootNested hownNested))).append (List.singleton_sublist.mpr hafter)
  | some other =>
    -- an owner further to the front is moved in front of the node at `start`
    have hother : other ∈ post := by
      have hmemOther : other ∈ pre ++ start :: post := List.mem_of_find?_eq_some hown
      have hcovers : covers items other k = true :=
        List.find?_some (p := fun s => covers items s k) hown
      rcases List.mem_append.mp hmemOther with hin | hin
      · have hnot : ¬ covers items other k = true := by
          simp only [uncovered, Bool.not_eq_true', List.any_eq_false] at hpre
          exact hpre other hin
        exact absurd hcovers hnot
      · rcases List.mem_cons.mp hin with rfl | hin
        · simp only [covers, Bool.and_eq_true, decide_eq_true_eq] at hcovers
          omega
        · exact hin
    have hswap : [items[k].itemRef, items[start].itemRef].Sublist (moved.map Node.itemRef) := by
      rw [hmoved, List.reverse_append, List.reverse_cons, List.append_assoc, List.flatMap_append,
        List.map_append]
      show ([items[k].itemRef] ++ [items[start].itemRef]).Sublist _
      refine (List.singleton_sublist.mpr ?_).append (List.singleton_sublist.mpr ?_)
      · rw [List.map_flatMap]
        exact List.mem_flatMap.mpr ⟨other, List.mem_reverse.mpr hother, mem_takenAlong hk _ hown⟩
      · rw [List.map_flatMap]
        exact List.mem_flatMap.mpr ⟨start, by simp, mem_takenAlong hstart _ hownStart⟩
    apply not_sublist_swap hmovedNodup hfirst
    exact (hswap.trans (List.sublist_append_right _ _)).trans (List.sublist_append_left _ _)

end Nested

/-- What a successful call leaves. -/
theorem moveItems_of_ok {t t' : DisplayedItemTree} {indices : List ℕ} {target : TargetPosition}
    (hlast : indices.getLast?.any (fun idx => t.items.length ≤ idx) = false)
    (h : t.moveItems indices target = .ok (.ok (), t')) :
    ∃ result extracted shifted,
      moveLoop t.items target.level (backToFront indices) t.items [] target.before
        = .ok (.ok (result, extracted, shifted)) ∧
      t'.items = result.take shifted ++ extracted ++ result.drop shifted := by
  rw [moveItems_eq hlast] at h
  cases hloop : moveLoop t.items target.level (backToFront indices) t.items [] target.before with
  | error p => simp [hloop] at h
  | ok loop =>
    cases loop with
    | error e => simp [hloop] at h
    | ok out =>
      obtain ⟨result, extracted, shifted⟩ := out
      refine ⟨result, extracted, shifted, rfl, ?_⟩
      rw [hloop] at h
      cases hcheck : checkLocation result ⟨shifted, target.level⟩ with
      | error e => simp [hcheck] at h
      | ok u =>
        simp only [hcheck, Except.ok.injEq, Prod.mk.injEq, true_and] at h
        rw [← h]

/-- When a selection with nesting is moved, a node that lies behind one of the subtrees ends up between the
root of the subtree and a node that was taken out of it. -/
theorem exists_stray_of_nested {t t' : DisplayedItemTree} {indices : List ℕ} {target : TargetPosition}
    (hrange : ∀ i ∈ indices, i < t.items.length)
    (hnested : ∃ i ∈ indices, ∃ j ∈ indices, i < j ∧ j < subtreeEnd t.items i)
    (h : t.moveItems indices target = .ok (.ok (), t')) :
    ∃ pre start post nested k, ∃ hstart : start < t.items.length, ∃ hrangeNested : nested < t.items.length,
      ∃ hk : k < t.items.length, backToFront indices = pre ++ start :: post ∧ nested ∈ pre ∧
        nested < subtreeEnd t.items start ∧ subtreeEnd t.items start ≤ k ∧ uncovered t.items pre k = true ∧
        [t.items[start].itemRef, t.items[k].itemRef, t.items[nested].itemRef].Sublist
          (t'.items.map Node.itemRef) := by
  have hlast : indices.getLast?.any (fun idx => t.items.length ≤ idx) = false := by
    cases h : indices.getLast? with
    | none => rfl
    | some idx => simpa using hrange idx (List.mem_of_getLast? h)
  obtain ⟨result, extracted, shifted, hloop, hitems⟩ := moveItems_of_ok hlast h
  have hsorted := pairwise_backToFront indices
  -- the first subtree, from the back, that a subtree taken out earlier was nested in
  have hnot : ¬ (backToFront indices).Pairwise (fun a b => subtreeEnd t.items b ≤ a) := by
    intro hpair
    obtain ⟨i, hi, j, hj, hij, hjend⟩ := hnested
    have hback : (backToFront indices).Pairwise fun a b => b < a → subtreeEnd t.items b ≤ a :=
      hpair.imp fun {a b} hle (_ : b < a) => hle
    have hflip : (backToFront indices).Pairwise
        (flip fun a b => b < a → subtreeEnd t.items b ≤ a) :=
      hsorted.imp fun hgt hlt => absurd hgt (Nat.lt_asymm hlt)
    have hle := hback.forall_of_forall_of_flip (fun _ _ hlt => absurd hlt (Nat.lt_irrefl _)) hflip
      (mem_backToFront.mpr hj) (mem_backToFront.mpr hi) hij
    omega
  obtain ⟨pre, start, post, hroots, hpre, nested, hnestedMem, hnestedIn⟩ :=
    exists_first_not_pairwise hnot
  rw [hroots] at hsorted
  have hmem : ∀ {s}, s ∈ pre ++ start :: post → s < t.items.length := fun hs =>
    hrange _ (mem_backToFront.mp (hroots ▸ hs))
  have hstart : start < t.items.length := hmem (by simp)
  have hnestedRange : nested < t.items.length := hmem (List.mem_append_left _ hnestedMem)
  have hpreStart : ∀ d ∈ pre.reverse, start < d := fun d hd =>
    (List.pairwise_append.mp hsorted).2.2 d (List.mem_reverse.mp hd) start List.mem_cons_self
  -- up to there the loop takes subtrees out as they stand in the old list
  have hloopPre := moveLoop_plain target.level target.before
    (fun s hs => hmem (List.mem_append_left _ hs)) hpre
    (fun s _ d hd => absurd hd List.not_mem_nil) []
  have hnone : survivors t.items [] t.items = t.items := keepAt_eq_self fun _ _ _ => rfl
  rw [hnone, shiftedTarget_nil, List.append_nil, List.append_nil] at hloopPre
  rw [hroots, moveLoop_append] at hloop
  rcases hloopPre with ⟨e, hloopPre, -⟩ | hloopPre
  · simp [hloopPre] at hloop
  simp only [hloopPre] at hloop
  obtain ⟨hlen, moved, target', hshift, hrest⟩ := moveLoop_cons_of_ok hloop
  have hsuffix := extracted_suffix hrest
  -- the stray node stands between the root and the node nested in its subtree
  obtain ⟨k, hk, hbehind, huncovered, hstray⟩ := exists_stray hstart hpreStart
    (List.mem_reverse.mpr hnestedMem) (not_le.mp hnestedIn) hlen
  have hmovedRefs : [t.items[start].itemRef, t.items[k].itemRef].Sublist
      (moved.map Node.itemRef) := by
    have hrefs := map_itemRef_shift
      (slice (survivors t.items pre.reverse t.items) start (subtreeEnd t.items start)) target.level
    rw [hshift] at hrefs
    rw [hrefs]
    exact hstray.map Node.itemRef
  have hnestedRef : t.items[nested].itemRef ∈
      (pre.reverse.flatMap (movedSubtree t.items target.level)).map Node.itemRef := by
    have hself : t.items[nested] ∈ slice t.items nested (subtreeEnd t.items nested) := by
      have hlt : nested < subtreeEnd t.items nested := lt_subtreeEnd hnestedRange
      have hle : subtreeEnd t.items nested ≤ t.items.length := subtreeEnd_le_length hnestedRange
      rw [slice, List.drop_eq_getElem_cons (by rw [List.length_take]; omega), List.getElem_take]
      exact List.mem_cons_self
    rw [List.map_flatMap]
    refine List.mem_flatMap.mpr ⟨nested, List.mem_reverse.mpr hnestedMem, ?_⟩
    rw [movedSubtree, List.map_map]
    exact List.mem_map.mpr ⟨_, hself, rfl⟩
  have hextracted : ([t.items[start].itemRef, t.items[k].itemRef] ++ [t.items[nested].itemRef]).Sublist
      (t'.items.map Node.itemRef) := by
    have hsub : (moved ++ pre.reverse.flatMap (movedSubtree t.items target.level)).Sublist
        t'.items := by
      rw [hitems]
      exact (hsuffix.sublist.trans (List.sublist_append_right _ _)).trans
        (List.sublist_append_left _ _)
    refine List.Sublist.trans ?_ (hsub.map Node.itemRef)
    rw [List.map_append]
    exact hmovedRefs.append (List.singleton_sublist.mpr hnestedRef)
  refine ⟨pre, start, post, nested, k, hstart, hnestedRange, hk, hroots, hnestedMem, not_le.mp hnestedIn, hbehind,
    ?_, hextracted⟩
  rwa [uncovered, List.any_reverse] at huncovered

/-- A selection with nesting that is moved is not moved by the rules. -/
theorem items_ne_movedTree_of_nested {t t' : DisplayedItemTree} {indices : List ℕ}
    {target : TargetPosition} (hnodup : (t.items.map Node.itemRef).Nodup)
    (hrange : ∀ i ∈ indices, i < t.items.length)
    (hnested : ∃ i ∈ indices, ∃ j ∈ indices, i < j ∧ j < subtreeEnd t.items i)
    (h : t.moveItems indices target = .ok (.ok (), t')) :
    t'.items ≠ movedTree t.items indices target := by
  intro heq
  obtain ⟨pre, start, post, nested, k, hstart, hnestedRange, hk, hroots, hnestedMem, -, hbehind, huncovered,
    hextracted⟩ := exists_stray_of_nested hrange hnested h
  rw [heq] at hextracted
  apply not_between_movedTree hnodup hroots hstart hnestedMem hnestedRange hk huncovered hbehind
  · exact (List.sublist_append_left [_, _] [_]).trans hextracted
  · exact (List.sublist_cons_self _ _).trans hextracted

/-- An index out of range that is not the last one goes unchecked, and the loop panics on it. -/
theorem moveItems_of_unchecked {t : DisplayedItemTree} {indices : List ℕ} (target : TargetPosition)
    (hlast : indices.getLast?.any (fun idx => t.items.length ≤ idx) = false)
    (hrange : ∃ i ∈ indices, t.items.length ≤ i) :
    t.moveItems indices target = .error .outOfBounds := by
  obtain ⟨i, hi, hle⟩ := hrange
  have hmem := mem_backToFront.mpr hi
  have hsorted := pairwise_backToFront indices
  rw [moveItems_eq hlast]
  cases hroots : backToFront indices with
  | nil => simp [hroots] at hmem
  | cons start rest =>
    rw [hroots] at hmem hsorted
    have hstart : t.items.length ≤ start := by
      rcases List.mem_cons.mp hmem with rfl | hmem
      · exact hle
      · have := (List.pairwise_cons.mp hsorted).1 i hmem
        omega
    rw [moveLoop, if_pos hstart]

/-- A group with one child, and a leaf. -/
def groupAndLeaf : DisplayedItemTree :=
  { items := [⟨0, 0, true, false⟩, ⟨1, 1, true, false⟩, ⟨2, 0, true, false⟩] }

end ItemTree
