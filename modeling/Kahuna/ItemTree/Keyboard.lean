import Kahuna.ItemTree.Shown

/-!
# Moves by the keyboard

A move up either indents a subtree, takes it out of the group that it is the first child of, or puts it in
front of the sibling before it. A move down does one of these backwards. So both directions are described by
one relation between the trees before and after.

- `Lifts`: what a move up does, when it does something;
- `exists_lifts_up`, `exists_lifts_down`: in every other tree there is something to do;
- `moveItem_up`, `moveItem_down`: a move does what the relation says, in either direction.
-/

namespace ItemTree

open Outline DisplayedItemTree

variable {t t' : DisplayedItemTree} {pre sub below rest : List Node} {x : Node} {f : Node → Bool}
  {level vidx vidx' : ℕ}

/-- A node of a subtree whose root goes from one level to another. -/
def atLevel (old new : ℕ) (node : Node) : Node := { node with level := new + node.level - old }

theorem map_atLevel_inverse {old new : ℕ} {nodes : List Node} (h : ∀ node ∈ nodes, old ≤ node.level) :
    (nodes.map (atLevel old new)).map (atLevel new old) = nodes := by
  rw [List.map_map]
  conv_rhs => rw [← List.map_id nodes]
  refine List.map_congr_left fun node hnode => ?_
  have hle := h node hnode
  have hlevel : old + (new + node.level - old) - new = node.level := by omega
  simp only [Function.comp_apply, atLevel, hlevel, id]

theorem atLevel_self (node : Node) : atLevel level level node = node := by
  rw [atLevel, Nat.add_sub_cancel_left]

/-! ## One subtree -/

/-- A shift goes through when no level becomes too large. -/
theorem shiftSubtree_split (hbelow : Below Node.level x sub rest)
    (hfits : ∀ node ∈ x :: sub, level + node.level - x.level ≤ maxLevel) :
    shiftSubtreeToLevel (x :: sub) level = ((x :: sub).map (atLevel x.level level), .ok ()) := by
  have hall : ∀ nodes : List Node, (∀ node ∈ nodes, x.level ≤ node.level) →
      (∀ node ∈ nodes, level + node.level - x.level ≤ maxLevel) →
      shiftLevels level x.level nodes = (nodes.map (atLevel x.level level), .ok ()) := by
    intro nodes
    induction nodes with
    | nil => exact fun _ _ => rfl
    | cons node nodes ih =>
      intro hge hle
      rw [List.forall_mem_cons] at hge hle
      rw [shiftLevels, if_neg (by omega), ih hge.2 hle.2]
      rfl
  refine hall _ (List.forall_mem_cons.2 ⟨le_rfl, fun y hy => (hbelow.deeper y hy).le⟩) hfits

section Subtree

variable (heq : t.items = pre ++ x :: (sub ++ rest)) (hbelow : Below Node.level x sub rest)

include heq

theorem levelAt_split : levelAt t.items pre.length = x.level := by
  rw [levelAt, heq]
  simp

theorem length_split : t.items.length = pre.length + 1 + sub.length + rest.length := by
  rw [heq]
  simp only [List.length_append, List.length_cons]
  omega

theorem drop_split : t.items.drop (pre.length + 1 + sub.length) = rest := by
  rw [heq, Nat.add_assoc, Nat.add_comm 1, ← List.length_cons (a := x), ← List.length_append,
    ← List.cons_append, ← List.append_assoc, List.drop_left]

theorem slice_split : slice t.items pre.length (pre.length + 1 + sub.length) = x :: sub := by
  rw [slice, heq, Nat.add_assoc, Nat.add_comm 1, ← List.length_cons (a := x), ← List.length_append,
    ← List.cons_append, ← List.append_assoc, List.take_left, List.drop_left]

theorem mem_items_of_mem_subtree {node : Node} (hnode : node ∈ x :: sub) : node ∈ t.items := by
  rw [heq, ← List.cons_append]
  exact List.mem_append_right _ (List.mem_append_left _ hnode)

include hbelow

theorem subtreeEnd_length : subtreeEnd t.items pre.length = pre.length + 1 + sub.length := by
  rw [heq]
  exact subtreeEnd_split pre hbelow

theorem shiftInPlace_split (hfits : ∀ node ∈ x :: sub, level + node.level - x.level ≤ maxLevel) :
    t.shiftInPlace pre.length (subtreeEnd t.items pre.length) level
      = (.ok (), { items := pre ++ ((x :: sub).map (atLevel x.level level) ++ rest) }) := by
  have htake : t.items.take pre.length = pre := by rw [heq, List.take_left]
  rw [shiftInPlace, subtreeEnd_length heq hbelow, slice_split heq, shiftSubtree_split hbelow hfits,
    htake, drop_split heq]
  simp only [List.append_assoc]

/-- One subtree is moved to a place outside of it that is checked. -/
theorem moveItems_split {target : TargetPosition} {shifted : ℕ}
    (hfits : ∀ node ∈ x :: sub, target.level + node.level - x.level ≤ maxLevel)
    (hshifted : target.before ≤ pre.length ∧ shifted = target.before ∨
      target.before = shifted + 1 + sub.length ∧ pre.length ≤ shifted)
    (hcheck : checkLocation (pre ++ rest) ⟨shifted, target.level⟩ = .ok ()) :
    t.moveItems [pre.length] target = .ok (.ok (),
      { items := (pre ++ rest).take shifted
          ++ ((x :: sub).map (atLevel x.level target.level) ++ (pre ++ rest).drop shifted) }) := by
  have hlen := length_split heq
  have htake : t.items.take pre.length = pre := by rw [heq, List.take_left]
  have hback : backToFront [pre.length] = [pre.length] := rfl
  have hlast : [pre.length].getLast?.any (fun idx => t.items.length ≤ idx) = false := by simp; omega
  have hmoved : (if pre.length < target.before then
      target.before - (pre.length + 1 + sub.length - pre.length) else target.before) = shifted := by
    split <;> omega
  rw [moveItems_eq hlast, hback]
  simp only [moveLoop, subtreeEnd_length heq hbelow, slice_split heq,
    shiftSubtree_split hbelow hfits, htake, drop_split heq, List.append_nil, hmoved]
  rw [if_neg (by omega), if_neg (by omega), if_neg (by omega)]
  simp only [hcheck, List.append_assoc]

end Subtree

/-! ## What a move does -/

/-- Behind these nodes a node at this level can be indented: the last one shown before it is a group that is
its sibling, or is deeper than the node. -/
def Adopts (f : Node → Bool) (nodes : List Node) (level : ℕ) : Prop :=
  ∃ pre x below, nodes = pre ++ x :: below ∧ EndsIn pre x below ∧
    ((level ≤ x.level ∧ f x = true ∧ x.unfolded = true) ∨ level < x.level)

/-- The nodes before and after a subtree is moved up by one step, each with the visible index of its root. It
is indented, it leaves the group that it is the first child of, or it passes the sibling before it. -/
inductive Lifts (f : Node → Bool) : List Node → ℕ → List Node → ℕ → Prop
  | indent {pre sub rest : List Node} {x : Node} :
      Below Node.level x sub rest → Adopts f pre x.level →
      Lifts f (pre ++ x :: (sub ++ rest)) (shownCount pre)
        (pre ++ ((x :: sub).map (atLevel x.level (x.level + 1)) ++ rest)) (shownCount pre)
  | leave {pre sub rest : List Node} {group x : Node} :
      Below Node.level x sub rest → EndsIn pre group [] → x.level = group.level + 1 →
      group.unfolded = true → f group = true →
      Lifts f ((pre ++ [group]) ++ x :: (sub ++ rest)) (shownCount pre + 1)
        (pre ++ ((x :: sub).map (atLevel x.level group.level) ++ group :: rest)) (shownCount pre)
  | pass {pre below sub rest : List Node} {sibling x : Node} :
      Below Node.level x sub rest → EndsIn pre sibling below → x.level = sibling.level →
      (sibling.unfolded && f sibling) = false →
      Lifts f ((pre ++ sibling :: below) ++ x :: (sub ++ rest)) (shownCount pre + 1)
        (pre ++ x :: (sub ++ sibling :: (below ++ rest))) (shownCount pre)

/-- Nodes that have children may have them. -/
def GroupsMay (f : Node → Bool) (t : DisplayedItemTree) : Prop :=
  ∀ i, t.hasChildren i = true → ∀ node ∈ t.items[i]?, f node = true

/-- A place where nodes can be indented is shown, one level deeper too. -/
theorem Adopts.shows (h : Adopts f pre level) : Shows (limitAfter pre) (level + 1) := by
  obtain ⟨pre, x, below, rfl, hends, hinto⟩ := h
  rw [hends.limitAfter_eq]
  rcases hinto with ⟨-, -, hunfolded⟩ | hlt
  · rw [if_pos hunfolded]
    exact shows_none
  · split
    · exact shows_none
    · exact shows_some.2 hlt

/-- A group that is last, with a deeper node behind it. -/
theorem GroupsMay.of_last (h : GroupsMay f t) {y : Node} (heq : t.items = (pre ++ [y]) ++ x :: rest)
    (hlt : y.level < x.level) : f y = true := by
  have hget : t.items[pre.length]? = some y := by simp [heq]
  have hnext : t.items[pre.length + 1]? = some x := by
    rw [heq, ← List.length_singleton (a := y), ← List.length_append]
    simp
  refine h pre.length ?_ y hget
  rw [hasChildren, hget, hnext]
  exact decide_eq_true hlt

/-- Behind a node that is shown, but is too shallow for the next one to be shown if it were folded. -/
theorem EndsIn.unfolded_of_lt (h : EndsIn pre x below) {m : ℕ} (hlt : x.level < m)
    (hshows : Shows (limitAfter (pre ++ x :: below)) m) : x.unfolded = true ∧ below = [] := by
  have hunfolded : x.unfolded = true := by
    by_contra hfolded
    rw [h.limitAfter_eq, if_neg hfolded, shows_some] at hshows
    omega
  refine ⟨hunfolded, h.folded.resolve_left ?_⟩
  rw [hunfolded]
  simp

/-- A subtree that is shifted ends at a node that is not deeper than its new root. -/
theorem below_atLevel {new : ℕ} (hdeeper : ∀ y ∈ sub, x.level < y.level)
    (hbehind : ∀ y ∈ rest.head?, y.level ≤ new) :
    Below Node.level (atLevel x.level new x) (sub.map (atLevel x.level new)) rest := by
  refine ⟨fun y hy => ?_, fun y hy => ?_⟩
  · obtain ⟨z, hz, rfl⟩ := List.mem_map.1 hy
    have hlt := hdeeper z hz
    simp only [atLevel]
    omega
  · have hle := hbehind y hy
    simp only [atLevel]
    omega

/-! ## In every tree there is something to do -/

/-- A node that is not the first one can be moved up. -/
theorem exists_lifts_up (hwf : t.WellFormed) (hf : GroupsMay f t) {idx : ℕ}
    (hidx : t.toDisplayed vidx = some idx) (hpos : 0 < idx) :
    ∃ items' vidx', Lifts f t.items vidx items' vidx' := by
  obtain ⟨hlt, hshown, hcount⟩ := toDisplayed_eq_some_iff.1 hidx
  obtain ⟨pre, y, below, htake, hends, -⟩ := exists_endsIn hlt hpos hshown
  obtain ⟨_, x, sub, rest, heq, -, hlen, rfl, -, -, hbelow⟩ := exists_split hlt
  rw [htake] at heq hlen hcount
  rw [hlen, shown_length heq] at hshown
  have hcount' := hends.shownCount_eq
  rcases lt_trichotomy x.level y.level with hdeep | hsame | hless
  · rw [heq, ← hcount]
    exact ⟨_, _, .indent hbelow ⟨pre, y, below, rfl, hends, .inr hdeep⟩⟩
  · cases hgroup : y.unfolded && f y with
    | true =>
      rw [Bool.and_eq_true] at hgroup
      rw [heq, ← hcount]
      exact ⟨_, _, .indent hbelow ⟨pre, y, below, rfl, hends, .inl ⟨hsame.le, hgroup.2, hgroup.1⟩⟩⟩
    | false =>
      rw [heq, ← hcount, hcount']
      exact ⟨_, _, .pass hbelow hends hsame hgroup⟩
  · -- the node before it is its parent
    obtain ⟨hunfolded, rfl⟩ := hends.unfolded_of_lt hless hshown
    have hsteps := hwf.steps
    rw [heq, stepsFrom_append, boundAfter_concat] at hsteps
    have hle : x.level ≤ y.level + 1 := hsteps.2.1
    rw [heq, ← hcount, hcount']
    exact ⟨_, _, .leave hbelow hends (by omega) hunfolded (hf.of_last heq hless)⟩

/-- A shift and the shift back. -/
theorem map_subtree_inverse {new : ℕ} (hdeeper : ∀ y ∈ sub, x.level < y.level) :
    ((x :: sub).map (atLevel x.level new)).map (atLevel new x.level) = x :: sub :=
  map_atLevel_inverse (List.forall_mem_cons.2 ⟨le_rfl, fun y hy => (hdeeper y hy).le⟩)

/-- A subtree is indented by one level, told from the tree after it. -/
theorem Lifts.of_outdent {new : ℕ} (hbelow : Below Node.level x sub rest) (hlevel : x.level = new + 1)
    (hbehind : ∀ y ∈ rest.head?, y.level ≤ new) (hadopts : Adopts f pre new) :
    Lifts f (pre ++ ((x :: sub).map (atLevel x.level new) ++ rest)) (shownCount pre)
      (pre ++ x :: (sub ++ rest)) (shownCount pre) := by
  have hroot : (atLevel x.level new x).level = new := Nat.add_sub_cancel _ _
  have hlift := @Lifts.indent f pre _ _ _ (below_atLevel hbelow.deeper hbehind) (by rwa [hroot])
  rw [hroot, ← hlevel, ← List.map_cons, map_subtree_inverse hbelow.deeper] at hlift
  exact hlift

/-- A subtree leaves a group, told from the tree after it. -/
theorem Lifts.of_into {group : Node} (hbelow : Below Node.level x sub (group :: rest))
    (hlevel : x.level = group.level) (hbehind : ∀ y ∈ rest.head?, y.level ≤ group.level + 1)
    (hends : EndsIn pre group []) (hunfolded : group.unfolded = true) (hf : f group = true) :
    Lifts f ((pre ++ [group]) ++ ((x :: sub).map (atLevel x.level (group.level + 1)) ++ rest))
      (shownCount pre + 1) (pre ++ x :: (sub ++ group :: rest)) (shownCount pre) := by
  have hroot : (atLevel x.level (group.level + 1) x).level = group.level + 1 := Nat.add_sub_cancel _ _
  have hlift := @Lifts.leave f pre _ _ _ _ (below_atLevel hbelow.deeper hbehind) hends hroot hunfolded hf
  rw [hroot, ← List.map_cons, ← hlevel, map_subtree_inverse hbelow.deeper] at hlift
  rw [← hlevel]
  exact hlift

/-- A node that is not the last of all at the outermost level can be moved down. -/
theorem exists_lifts_down (hwf : t.WellFormed) (hf : GroupsMay f t) {idx : ℕ}
    (hidx : t.toDisplayed vidx = some idx)
    (hsome : subtreeEnd t.items idx < t.items.length ∨ 0 < levelAt t.items idx) :
    ∃ items' vidx', Lifts f items' vidx' t.items vidx := by
  obtain ⟨hlt, hshown, hcount⟩ := toDisplayed_eq_some_iff.1 hidx
  obtain ⟨pre, x, sub, rest, heq, -, rfl, htake, -, hrest, hbelow⟩ := exists_split hlt
  rw [htake] at hcount
  rw [levelAt_split heq] at hsome
  have hshows := (shown_length heq).1 hshown
  have hsteps := hwf.steps
  rw [heq, stepsFrom_append] at hsteps
  -- a node that is deeper than what is behind it moves out
  have hout : 0 < x.level → (∀ y ∈ rest.head?, y.level < x.level) →
      ∃ items' vidx', Lifts f items' vidx' t.items vidx := by
    intro hpos hless
    have hpre : 0 < pre.length := by
      rcases List.eq_nil_or_concat pre with rfl | ⟨_, _, rfl⟩
      · have := hsteps.2.1
        exact absurd hpos (not_lt.2 this)
      · simp
    obtain ⟨pre', y, below, htake', hends, -⟩ := exists_endsIn hlt hpre hshown
    rw [htake] at htake'
    have hadopts : Adopts f pre (x.level - 1) := by
      refine ⟨pre', y, below, htake', hends, ?_⟩
      by_cases hle : x.level ≤ y.level
      · exact .inr (by omega)
      · -- the node before it is its parent
        rw [htake'] at hshows hsteps heq
        obtain ⟨hunfolded, rfl⟩ := hends.unfolded_of_lt (not_le.1 hle) hshows
        rw [boundAfter_concat] at hsteps
        have hstep : x.level ≤ y.level + 1 := hsteps.2.1
        exact .inl ⟨by omega, hf.of_last heq (not_le.1 hle), hunfolded⟩
    rw [heq, ← hcount]
    exact ⟨_, _, .of_outdent hbelow (by omega) (fun y hy => Nat.le_sub_one_of_lt (hless y hy)) hadopts⟩
  cases rest with
  | nil =>
    refine hout (hsome.resolve_left ?_) (by simp)
    rw [not_lt]
    exact List.drop_eq_nil_iff.1 hrest
  | cons y rest =>
    have hle := hbelow.behind y rfl
    rcases hle.lt_or_eq with hless | hsame
    · exact hout (by omega) (by simpa using hless)
    · -- the node behind it is a sibling, a group to move into or a node to move past
      have hends : ∀ below, (∀ z ∈ below, y.level < z.level) → (y.unfolded = false ∨ below = []) →
          EndsIn pre y below := fun below hdeeper hfolded => ⟨hsame ▸ hshows, hdeeper, hfolded⟩
      have hsplit : t.items = (pre ++ x :: sub) ++ y :: rest := by rw [heq, List.append_assoc]; rfl
      cases hgroup : y.unfolded && f y with
      | true =>
        rw [Bool.and_eq_true] at hgroup
        have hsteps' := hwf.steps
        rw [hsplit, stepsFrom_append] at hsteps'
        rw [heq, ← hcount]
        exact ⟨_, _, .of_into hbelow hsame.symm hsteps'.2.2.head_le (hends [] (by simp) (.inr rfl)) hgroup.1
          hgroup.2⟩
      | false =>
        obtain ⟨below, rest, rfl, hbelowSibling⟩ := @exists_below _ Node.level y rest
        have hfolded : y.unfolded = false ∨ below = [] := by
          cases hunfolded : y.unfolded with
          | false => exact .inl rfl
          | true =>
            -- it has no children, as it may not have any
            refine .inr (List.eq_nil_iff_forall_not_mem.2 fun z hz => ?_)
            obtain ⟨z, below, rfl⟩ := List.exists_cons_of_ne_nil (List.ne_nil_of_mem hz)
            have hmay : f y = true := by
              have hsplit' : t.items = ((pre ++ x :: sub) ++ [y]) ++ z :: (below ++ rest) := by
                rw [hsplit]
                simp
              exact hf.of_last hsplit' (hbelowSibling.deeper z List.mem_cons_self)
            rw [hunfolded, hmay] at hgroup
            cases hgroup
        have hbelow' : Below Node.level x sub rest :=
          ⟨hbelow.deeper, fun z hz => (hbelowSibling.behind z hz).trans hsame.le⟩
        rw [heq, ← hcount]
        exact ⟨_, _, .pass hbelow' (hends below hbelowSibling.deeper hfolded) hsame.symm hgroup⟩

/-! ## A move does it -/

/-- The visible index of a node at the end of a list that is part of the tree. -/
theorem toDisplayed_length (heq : t.items = pre ++ x :: rest) (hshows : Shows (limitAfter pre) x.level) :
    t.toDisplayed (shownCount pre) = some pre.length := by
  have htake : t.items.take pre.length = pre := by rw [heq, List.take_left]
  refine toDisplayed_eq_some_iff.2 ⟨?_, (shown_length heq).2 hshows, by rw [htake]⟩
  rw [heq, List.length_append, List.length_cons]
  omega

theorem wrappingAdd_one (h : level + 1 ≤ maxLevel) : wrappingAdd level 1 = level + 1 :=
  Nat.mod_eq_of_lt (Nat.lt_succ_of_le h)

/-- A place behind these nodes that a node can be moved to. -/
theorem checkLocation_length {xs ys : List Node} (hbound : level ≤ boundAfter Node.level 0 xs)
    (hfit : level ≤ maxLevel) (hbehind : ∀ y ∈ ys.head?, y.level ≤ level) :
    checkLocation (xs ++ ys) ⟨xs.length, level⟩ = .ok () := by
  apply checkLocation_of_bounds
  · rw [List.length_append]
    exact Nat.le_add_right ..
  · intro hzero
    rw [List.length_eq_zero_iff] at hzero
    subst hzero
    exact Nat.le_zero.1 hbound
  · intro z hz
    rw [List.take_left] at hz
    obtain ⟨init, rfl⟩ := List.getLast?_eq_some_iff.1 hz
    rw [boundAfter_concat] at hbound
    rw [saturatingAdd]
    exact le_min hbound hfit
  · intro y hy
    refine hbehind y ?_
    rw [List.getElem?_append_right le_rfl, Nat.sub_self] at hy
    rwa [List.head?_eq_getElem?]

section Evaluation

variable {group : Node}

/-- A subtree is indented. -/
theorem moveItem_indent (heq : t.items = pre ++ x :: (sub ++ rest)) (hbelow : Below Node.level x sub rest)
    (hadopts : Adopts f pre x.level) (hsub : ∀ node ∈ x :: sub, x.level + 1 + node.level - x.level ≤ maxLevel) :
    t.moveItem (shownCount pre) .up f = .ok (.ok (shownCount pre),
      { items := pre ++ ((x :: sub).map (atLevel x.level (x.level + 1)) ++ rest) }) := by
  have hshows := hadopts.shows.mono (Nat.le_succ x.level)
  obtain ⟨pre, y, below, rfl, hends, hinto⟩ := hadopts
  have hone : x.level + 1 ≤ maxLevel := by
    have := hsub x List.mem_cons_self
    omega
  have hget : t.items[pre.length]? = some y := by simp [heq]
  rw [moveItem, toDisplayed_length heq hshows]
  simp only [visiblePredecessor_of_endsIn heq hends hshows, levelAt_split heq, hget, if_pos hinto,
    wrappingAdd_one hone]
  rw [shiftInPlace_split heq hbelow hsub]
  rfl

/-- A subtree is moved out of a group, in front of it. -/
theorem moveItem_leave (hwf : t.WellFormed) (heq : t.items = (pre ++ [group]) ++ x :: (sub ++ rest))
    (hbelow : Below Node.level x sub rest) (hends : EndsIn pre group []) (hlevel : x.level = group.level + 1)
    (hunfolded : group.unfolded = true) (hsub : ∀ node ∈ x :: sub, group.level + node.level - x.level ≤ maxLevel) :
    t.moveItem (shownCount pre + 1) .up f = .ok (.ok (shownCount pre),
      { items := pre ++ ((x :: sub).map (atLevel x.level group.level) ++ group :: rest) }) := by
  have hshows : Shows (limitAfter (pre ++ [group])) x.level := by
    rw [hends.limitAfter_eq, if_pos hunfolded]
    exact shows_none
  have hget : t.items[pre.length]? = some group := by simp [heq]
  have hcheck : checkLocation ((pre ++ [group]) ++ rest) ⟨pre.length, group.level⟩ = .ok () := by
    have hsteps := hwf.steps
    rw [heq, List.append_assoc, stepsFrom_append] at hsteps
    rw [List.append_assoc]
    exact checkLocation_length hsteps.2.1 (hwf.fits group (by simp [heq])) (by simp)
  have hdisplayed := toDisplayed_length heq hshows
  rw [hends.shownCount_eq] at hdisplayed
  rw [moveItem, hdisplayed]
  simp only [visiblePredecessor_of_endsIn heq hends hshows, levelAt_split heq, hget]
  rw [if_neg (by omega), moveItems_split heq hbelow hsub (.inl ⟨by simp, rfl⟩) hcheck]
  simp [Except.map]

/-- A subtree is moved in front of the sibling before it. -/
theorem moveItem_pass (hwf : t.WellFormed) (heq : t.items = (pre ++ group :: below) ++ x :: (sub ++ rest))
    (hbelow : Below Node.level x sub rest) (hends : EndsIn pre group below) (hlevel : x.level = group.level)
    (hgroup : (group.unfolded && f group) = false) :
    t.moveItem (shownCount pre + 1) .up f = .ok (.ok (shownCount pre),
      { items := pre ++ x :: (sub ++ group :: (below ++ rest)) }) := by
  have hshows : Shows (limitAfter (pre ++ group :: below)) x.level := by
    rw [hends.limitAfter_eq, hlevel]
    split
    · exact shows_none
    · exact shows_some.2 le_rfl
  have hself : (x :: sub).map (atLevel x.level group.level) = x :: sub := by
    rw [hlevel, List.map_congr_left fun node _ => atLevel_self node, List.map_id']
  have hsub : ∀ node ∈ x :: sub, group.level + node.level - x.level ≤ maxLevel := by
    intro node hnode
    have hfit := hwf.fits node (mem_items_of_mem_subtree heq hnode)
    omega
  have hget : t.items[pre.length]? = some group := by simp [heq]
  have hcheck : checkLocation ((pre ++ group :: below) ++ rest) ⟨pre.length, group.level⟩ = .ok () := by
    have hsteps := hwf.steps
    rw [heq, List.append_assoc, stepsFrom_append] at hsteps
    rw [List.append_assoc]
    exact checkLocation_length hsteps.2.1 (hwf.fits group (by simp [heq])) (by simp)
  have hdisplayed := toDisplayed_length heq hshows
  rw [hends.shownCount_eq] at hdisplayed
  have hnot : ¬ ((x.level ≤ group.level ∧ f group = true ∧ group.unfolded = true) ∨ x.level < group.level) := by
    rw [hlevel]
    rintro (⟨-, hf, hunfolded⟩ | hlt)
    · rw [hf, hunfolded] at hgroup
      cases hgroup
    · exact lt_irrefl _ hlt
  rw [moveItem, hdisplayed]
  simp only [visiblePredecessor_of_endsIn heq hends hshows, levelAt_split heq, hget]
  rw [if_neg hnot, moveItems_split heq hbelow hsub (.inl ⟨by simp, rfl⟩) hcheck, hself]
  simp [Except.map]

/-- A subtree that is deeper than what is behind it is shifted out. -/
theorem moveItem_outdent {new : ℕ} (heq : t.items = pre ++ x :: (sub ++ rest))
    (hbelow : Below Node.level x sub rest) (hlevel : x.level = new + 1) (hbehind : ∀ y ∈ rest.head?, y.level ≤ new)
    (hshows : Shows (limitAfter pre) x.level)
    (hsub : ∀ node ∈ x :: sub, new + node.level - x.level ≤ maxLevel) :
    t.moveItem (shownCount pre) .down f = .ok (.ok (shownCount pre),
      { items := pre ++ ((x :: sub).map (atLevel x.level new) ++ rest) }) := by
  have hout : x.level - 1 = new := by omega
  have hhead : t.items[subtreeEnd t.items pre.length]? = rest.head? := by
    rw [subtreeEnd_length heq hbelow, ← List.head?_drop, drop_split heq]
  rw [moveItem, toDisplayed_length heq hshows]
  simp only [levelAt_split heq, hhead, hout]
  rw [shiftInPlace_split heq hbelow hsub]
  cases rest with
  | nil => rfl
  | cons y rest =>
    have hless : y.level < x.level := by
      have := hbehind y rfl
      omega
    simp only [List.head?_cons, if_pos hless]
    rfl

/-- A subtree is moved into the group behind it. -/
theorem moveItem_into (heq : t.items = pre ++ x :: (sub ++ group :: rest))
    (hbelow : Below Node.level x sub (group :: rest)) (hlevel : x.level = group.level)
    (hbehind : ∀ y ∈ rest.head?, y.level ≤ group.level + 1) (hends : EndsIn pre group [])
    (hunfolded : group.unfolded = true) (hgroup : f group = true)
    (hsub : ∀ node ∈ x :: sub, group.level + 1 + node.level - x.level ≤ maxLevel) :
    t.moveItem (shownCount pre) .down f = .ok (.ok (shownCount pre + 1),
      { items := (pre ++ [group]) ++ ((x :: sub).map (atLevel x.level (group.level + 1)) ++ rest) }) := by
  have hhead : t.items[subtreeEnd t.items pre.length]? = some group := by
    rw [subtreeEnd_length heq hbelow, ← List.head?_drop, drop_split heq]
    rfl
  have hone : group.level + 1 ≤ maxLevel := by
    have := hsub x List.mem_cons_self
    omega
  have hcons : pre ++ group :: rest = (pre ++ [group]) ++ rest := by rw [List.append_assoc]; rfl
  have hlen : (pre ++ [group]).length = pre.length + 1 := by simp
  have hcheck : checkLocation (pre ++ group :: rest) ⟨pre.length + 1, group.level + 1⟩ = .ok () := by
    rw [hcons, ← hlen]
    exact checkLocation_length (by rw [boundAfter_concat]) hone hbehind
  have hshows : Shows (limitAfter pre) x.level := hlevel ▸ hends.shows
  rw [moveItem, toDisplayed_length heq hshows]
  simp only [levelAt_split heq, hhead, hunfolded, hgroup, Bool.and_self, if_true, wrappingAdd_one hone]
  rw [if_neg (by omega), moveItems_split heq hbelow hsub
    (.inr ⟨by rw [subtreeEnd_length heq hbelow]; dsimp only; omega, Nat.le_add_right _ 1⟩) hcheck, hcons,
    ← hlen, List.take_left, List.drop_left]
  rfl

/-- A subtree is moved past the sibling behind it. -/
theorem moveItem_past (hwf : t.WellFormed) (heq : t.items = pre ++ x :: (sub ++ group :: (below ++ rest)))
    (hbelow : Below Node.level x sub rest) (hends : EndsIn pre group below) (hlevel : x.level = group.level)
    (hgroup : (group.unfolded && f group) = false) :
    t.moveItem (shownCount pre) .down f = .ok (.ok (shownCount pre + 1),
      { items := (pre ++ group :: below) ++ x :: (sub ++ rest) }) := by
  have hbelow' : Below Node.level x sub (group :: (below ++ rest)) :=
    ⟨hbelow.deeper, fun y hy => by rw [← Option.some.inj hy, hlevel]⟩
  have hhead : t.items[subtreeEnd t.items pre.length]? = some group := by
    rw [subtreeEnd_length heq hbelow', ← List.head?_drop, drop_split heq]
    rfl
  have hgroupEnd : subtreeEnd t.items (subtreeEnd t.items pre.length)
      = pre.length + 1 + sub.length + 1 + below.length := by
    have heq' : t.items = (pre ++ x :: sub) ++ group :: (below ++ rest) := by rw [heq, List.append_assoc]; rfl
    have hlen : (pre ++ x :: sub).length = pre.length + 1 + sub.length := by
      rw [List.length_append, List.length_cons]
      omega
    have hend := subtreeEnd_length heq' ⟨hends.deeper, fun y hy => hlevel ▸ hbelow.behind y hy⟩
    rw [hlen] at hend
    rw [subtreeEnd_length heq hbelow', hend]
  have hcons : pre ++ group :: (below ++ rest) = (pre ++ group :: below) ++ rest := by
    rw [List.append_assoc]
    rfl
  have hlen : (pre ++ group :: below).length = pre.length + 1 + below.length := by
    rw [List.length_append, List.length_cons]
    omega
  have hself : (x :: sub).map (atLevel x.level x.level) = x :: sub := by
    rw [List.map_congr_left fun node _ => atLevel_self node, List.map_id']
  have hsub : ∀ node ∈ x :: sub, x.level + node.level - x.level ≤ maxLevel := by
    intro node hnode
    have hfit := hwf.fits node (mem_items_of_mem_subtree heq hnode)
    omega
  have hcheck : checkLocation (pre ++ group :: (below ++ rest)) ⟨pre.length + 1 + below.length, x.level⟩
      = .ok () := by
    rw [hcons, ← hlen]
    refine checkLocation_length ?_ (hwf.fits x (mem_items_of_mem_subtree heq List.mem_cons_self)) hbelow.behind
    have hsteps := hwf.steps
    rw [heq, stepsFrom_append] at hsteps
    rw [boundAfter, List.foldl_append]
    refine le_boundAfter hsteps.2.1 (List.forall_mem_cons.2 ⟨?_, fun y hy => ?_⟩)
    · omega
    · have := hends.deeper y hy
      omega
  have hshows : Shows (limitAfter pre) x.level := hlevel ▸ hends.shows
  rw [moveItem, toDisplayed_length heq hshows]
  simp only [levelAt_split heq, hhead, hgroup, hgroupEnd]
  rw [if_neg (by omega), if_neg (by simp), moveItems_split heq hbelow' hsub
    (.inr ⟨by dsimp only; omega, by omega⟩) hcheck, hcons, ← hlen, List.take_left, List.drop_left, hself]
  rfl

end Evaluation

/-- A move up that does something. -/
theorem moveItem_up (hwf : t.WellFormed) (hfits : ∀ node ∈ t'.items, node.level ≤ maxLevel)
    (h : Lifts f t.items vidx t'.items vidx') : t.moveItem vidx .up f = .ok (.ok vidx', t') := by
  obtain ⟨items⟩ := t
  obtain ⟨items'⟩ := t'
  have hsub : ∀ {pre sub rest : List Node} {x : Node} {new : ℕ},
      items' = pre ++ ((x :: sub).map (atLevel x.level new) ++ rest) →
        ∀ node ∈ x :: sub, new + node.level - x.level ≤ maxLevel := fun heq _ hnode =>
    hfits _ (heq ▸ List.mem_append_right _ (List.mem_append_left _ (List.mem_map_of_mem hnode)))
  dsimp only at h hsub
  cases h with
  | indent hbelow hadopts => exact moveItem_indent rfl hbelow hadopts (hsub rfl)
  | leave hbelow hends hlevel hunfolded hgroup =>
    exact moveItem_leave hwf rfl hbelow hends hlevel hunfolded (hsub rfl)
  | pass hbelow hends hlevel hgroup => exact moveItem_pass hwf rfl hbelow hends hlevel hgroup

/-- The levels of a subtree that is shifted back. -/
theorem fits_back {new : ℕ} (hdeeper : ∀ y ∈ sub, x.level < y.level)
    (hfits : ∀ node ∈ x :: sub, node.level ≤ maxLevel) :
    ∀ node ∈ atLevel x.level new x :: sub.map (atLevel x.level new), x.level + node.level - new ≤ maxLevel := by
  intro node hnode
  rw [← List.map_cons] at hnode
  obtain ⟨y, hy, rfl⟩ := List.mem_map.1 hnode
  have hfit := hfits y hy
  have hle : x.level ≤ y.level := by
    rcases List.mem_cons.1 hy with rfl | hy
    · exact le_rfl
    · exact (hdeeper y hy).le
  simp only [atLevel]
  omega

/-- A move down that does something. -/
theorem moveItem_down (hwf : t'.WellFormed) (hfits : ∀ node ∈ t.items, node.level ≤ maxLevel)
    (h : Lifts f t.items vidx t'.items vidx') : t'.moveItem vidx' .down f = .ok (.ok vidx, t) := by
  obtain ⟨items⟩ := t
  obtain ⟨items'⟩ := t'
  have hsub : ∀ {pre sub rest : List Node} {x : Node}, items = pre ++ x :: (sub ++ rest) →
      ∀ node ∈ x :: sub, node.level ≤ maxLevel := fun heq _ hnode =>
    hfits _ (mem_items_of_mem_subtree (t := ⟨items⟩) heq hnode)
  dsimp only at h hsub
  cases h with
  | @indent pre sub rest x hbelow hadopts =>
    have hroot : (atLevel x.level (x.level + 1) x).level = x.level + 1 := Nat.add_sub_cancel _ _
    have hshows : Shows (limitAfter pre) (atLevel x.level (x.level + 1) x).level := hroot.symm ▸ hadopts.shows
    have hback := @fits_back sub x (x.level + 1) hbelow.deeper (hsub rfl)
    have hmoved := @moveItem_outdent ⟨pre ++ ((x :: sub).map (atLevel x.level (x.level + 1)) ++ rest)⟩ pre
      (sub.map (atLevel x.level (x.level + 1))) rest (atLevel x.level (x.level + 1) x) f x.level rfl
      (below_atLevel hbelow.deeper fun y hy => (hbelow.behind y hy).trans (Nat.le_succ _)) hroot hbelow.behind
      hshows (by rwa [hroot])
    rw [hmoved, hroot, ← List.map_cons, map_subtree_inverse hbelow.deeper]
    rfl
  | @leave pre sub rest group x hbelow hends hlevel hunfolded hgroup =>
    have hroot : (atLevel x.level group.level x).level = group.level := Nat.add_sub_cancel _ _
    have hback := @fits_back sub x group.level hbelow.deeper (hsub (by rw [List.append_assoc]))
    have hmoved := @moveItem_into ⟨pre ++ ((x :: sub).map (atLevel x.level group.level) ++ group :: rest)⟩ pre
      (sub.map (atLevel x.level group.level)) rest (atLevel x.level group.level x) f group rfl
      (below_atLevel hbelow.deeper fun y hy => by rw [← Option.some.inj hy]) hroot
      (fun y hy => hlevel ▸ hbelow.behind y hy) hends hunfolded hgroup (by rwa [hroot, ← hlevel])
    rw [hmoved, hroot, ← hlevel, ← List.map_cons, map_subtree_inverse hbelow.deeper]
    rfl
  | pass hbelow hends hlevel hgroup => exact moveItem_past hwf rfl hbelow hends hlevel hgroup

/-! ## All moves -/

/-- The nodes of a subtree go one level up or down, and the others stay as they are. -/
theorem Lifts.perm {items items' : List Node} (h : Lifts f items vidx items' vidx') :
    ∃ (outside sub : List Node) (x : Node) (new : ℕ), items.Perm (outside ++ x :: sub) ∧
      items'.Perm (outside ++ (x :: sub).map (atLevel x.level new)) ∧ (∀ y ∈ sub, x.level < y.level) ∧
        new ≤ x.level + 1 ∧ x.level ≤ new + 1 := by
  cases h with
  | @indent pre sub rest x hbelow hadopts =>
    refine ⟨pre ++ rest, sub, x, x.level + 1, ?_, ?_, hbelow.deeper, le_rfl, by omega⟩
    · rw [← List.cons_append, List.append_assoc]
      exact List.perm_append_comm.append_left pre
    · rw [List.append_assoc]
      exact List.perm_append_comm.append_left pre
  | @leave pre sub rest group x hbelow hends hlevel hunfolded hgroup =>
    refine ⟨pre ++ group :: rest, sub, x, group.level, ?_, ?_, hbelow.deeper, by omega, by omega⟩
    · rw [← List.cons_append, List.append_assoc, List.append_assoc]
      exact (List.perm_append_comm.append_left [group]).append_left pre
    · rw [List.append_assoc]
      exact List.perm_append_comm.append_left pre
  | @pass pre below sub rest sibling x hbelow hends hlevel hgroup =>
    refine ⟨pre ++ sibling :: (below ++ rest), sub, x, x.level, ?_, ?_, hbelow.deeper, by omega, by omega⟩
    · simp only [List.append_assoc, List.cons_append]
      have hcomm : ((x :: sub) ++ rest).Perm (rest ++ x :: sub) := List.perm_append_comm
      exact ((hcomm.append_left below).cons sibling).append_left pre
    · rw [List.map_congr_left fun node _ => atLevel_self node, List.map_id', List.append_assoc,
        ← List.cons_append]
      exact List.perm_append_comm.append_left pre

/-- A move does not make the levels of a tree too large that has room for one more. -/
theorem Lifts.fits {items items' : List Node} (h : Lifts f items vidx items' vidx') :
    ((∀ node ∈ items, node.level < maxLevel) → ∀ node ∈ items', node.level ≤ maxLevel) ∧
      ((∀ node ∈ items', node.level < maxLevel) → ∀ node ∈ items, node.level ≤ maxLevel) := by
  obtain ⟨outside, sub, x, new, hperm, hperm', hdeeper, hup, hdown⟩ := h.perm
  constructor
  · intro hfits node hnode
    rcases List.mem_append.1 (hperm'.mem_iff.1 hnode) with hnode | hnode
    · exact (hfits node (hperm.mem_iff.2 (List.mem_append_left _ hnode))).le
    · obtain ⟨y, hy, rfl⟩ := List.mem_map.1 hnode
      have hlt := hfits y (hperm.mem_iff.2 (List.mem_append_right _ hy))
      simp only [atLevel]
      omega
  · intro hfits node hnode
    rcases List.mem_append.1 (hperm.mem_iff.1 hnode) with hnode | hnode
    · exact (hfits node (hperm'.mem_iff.2 (List.mem_append_left _ hnode))).le
    · have hlt := hfits _ (hperm'.mem_iff.2 (List.mem_append_right _ (List.mem_map_of_mem hnode)))
      have hle : x.level ≤ node.level := by
        rcases List.mem_cons.1 hnode with rfl | hnode
        · exact le_rfl
        · exact (hdeeper node hnode).le
      simp only [atLevel] at hlt
      omega

/-- The first node cannot be moved up. -/
theorem moveItem_first (hidx : t.toDisplayed vidx = some 0) : t.moveItem vidx .up f = .ok (.ok vidx, t) := by
  rw [moveItem, hidx]
  rfl

/-- The last node cannot be moved down when it is at the outermost level. -/
theorem moveItem_last {idx : ℕ} (hidx : t.toDisplayed vidx = some idx) (hfits : ∀ node ∈ t.items, node.level ≤ maxLevel)
    (hend : t.items.length ≤ subtreeEnd t.items idx) (hlevel : levelAt t.items idx = 0) :
    t.moveItem vidx .down f = .ok (.ok vidx, t) := by
  obtain ⟨pre, x, sub, rest, heq, -, rfl, -, -, hrest, hbelow⟩ := exists_split (lt_of_toDisplayed hidx)
  have hx : x.level = 0 := (levelAt_split heq).symm.trans hlevel
  have hnone : t.items[subtreeEnd t.items pre.length]? = none := List.getElem?_eq_none hend
  have hsub : ∀ node ∈ x :: sub, x.level + node.level - x.level ≤ maxLevel := by
    intro node hnode
    have := hfits node (mem_items_of_mem_subtree heq hnode)
    omega
  have hshift := shiftInPlace_split heq hbelow hsub
  rw [List.map_congr_left fun node _ => atLevel_self node, List.map_id', List.cons_append, ← heq, hx] at hshift
  rw [moveItem, hidx]
  simp only [hnone, hlevel]
  rw [hshift]
  rfl

/-- A move of a visible node: it goes through, and changes nothing or does what the relation says. -/
theorem moveItem_spec (hwf : t.WellFormed) (hlevels : ∀ node ∈ t.items, node.level < maxLevel)
    (hf : GroupsMay f t) {idx : ℕ} (hidx : t.toDisplayed vidx = some idx) (direction : MoveDir) :
    ∃ vidx' t', t.moveItem vidx direction f = .ok (.ok vidx', t') ∧ t'.WellFormed ∧
      (t' = t ∧ vidx' = vidx ∨
        match direction with
        | .up => Lifts f t.items vidx t'.items vidx'
        | .down => Lifts f t'.items vidx' t.items vidx) := by
  have hsafe : ¬ IndentsPastMax t vidx f := by
    rintro ⟨i, -, -, hi, hmax, -⟩
    have hi' := lt_of_toDisplayed hi
    have hlt := hlevels t.items[i] (List.getElem_mem hi')
    rw [levelAt_of_lt hi'] at hmax
    omega
  cases direction with
  | up =>
    rcases Nat.eq_zero_or_pos idx with rfl | hpos
    · exact ⟨vidx, t, moveItem_first hidx, hwf, .inl ⟨rfl, rfl⟩⟩
    · obtain ⟨items', vidx', hlifts⟩ := exists_lifts_up hwf hf hidx hpos
      have hrun := @moveItem_up t ⟨items'⟩ f vidx vidx' hwf (hlifts.fits.1 hlevels) hlifts
      exact ⟨vidx', ⟨items'⟩, hrun, wellFormed_moveItem hwf (fun _ => hsafe) hrun, .inr hlifts⟩
  | down =>
    by_cases hsome : subtreeEnd t.items idx < t.items.length ∨ 0 < levelAt t.items idx
    · obtain ⟨items', vidx', hlifts⟩ := exists_lifts_down hwf hf hidx hsome
      have hrun := moveItem_down (t := ⟨items'⟩) hwf (hlifts.fits.2 hlevels) hlifts
      exact ⟨vidx', ⟨items'⟩, hrun, wellFormed_moveItem hwf (fun h => by cases h) hrun, .inr hlifts⟩
    · rw [not_or, not_lt, not_lt, Nat.le_zero] at hsome
      exact ⟨vidx, t, moveItem_last hidx hwf.fits hsome.1 hsome.2, hwf, .inl ⟨rfl, rfl⟩⟩

end ItemTree
