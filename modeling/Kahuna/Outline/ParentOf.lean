import Kahuna.Outline.Ancestors
import Mathlib.Data.List.Chain

/-!
# Members that may own others

In some outlines only members of a kind may own others, as folders own files. Whether all owners are of
that kind can be read off neighbours: a member that owns something owns the member right behind it. So
the property is one of neighbours, and this file says how it fares when an outline is put together, when
a subtree is taken out, and when a member is dissolved.

* `ParentsIn`: every member with a deeper one behind it is of the kind;
* `parentsIn_remove`, `parentsIn_dissolve`: a subtree is taken out, a member is dissolved;
* `parentsIn_between`: members are put between others.
-/

namespace Outline

variable {α β : Type*} (level : α → ℕ)

/-- Every member with a deeper one right behind it satisfies `p`. -/
def ParentsIn (p : α → Prop) (xs : List α) : Prop := xs.IsChain fun x y => level x < level y → p x

instance ParentsIn.decidable (p : α → Prop) [DecidablePred p] (xs : List α) :
    Decidable (ParentsIn level p xs) :=
  inferInstanceAs (Decidable (xs.IsChain fun x y => level x < level y → p x))

section Parents

variable {level} {p q : α → Prop} {xs ys pre sub rest moved : List α} {x : α}

theorem parentsIn_nil : ParentsIn level p ([] : List α) := List.isChain_nil

theorem parentsIn_singleton : ParentsIn level p [x] := List.isChain_singleton x

theorem parentsIn_append : ParentsIn level p (xs ++ ys) ↔
    ParentsIn level p xs ∧ ParentsIn level p ys ∧
      ∀ x ∈ xs.getLast?, ∀ y ∈ ys.head?, level x < level y → p x :=
  List.isChain_append

/-- What the property says of a member and the one behind it. -/
theorem parentsIn_iff_getElem : ParentsIn level p xs ↔
    ∀ i (_ : i + 1 < xs.length), level xs[i] < level xs[i + 1] → p xs[i] :=
  List.isChain_iff_getElem

/-- More kinds of members may own others. -/
theorem ParentsIn.imp (h : ParentsIn level p xs) (hpq : ∀ x ∈ xs, p x → q x) : ParentsIn level q xs :=
  List.IsChain.imp_of_mem_imp (fun x _ hx _ hxy hlt => hpq x hx (hxy hlt)) h

/-- Changes that leave deeper members deeper do not matter. -/
theorem parentsIn_map {shape : β → ℕ} {r : β → Prop} {f : β → α} {ys : List β}
    (hlevel : ∀ y ∈ ys, ∀ z ∈ ys, level (f y) < level (f z) → shape y < shape z)
    (hr : ∀ y ∈ ys, r y → p (f y)) (h : ParentsIn shape r ys) : ParentsIn level p (ys.map f) := by
  refine (List.isChain_map f).2 (List.IsChain.imp_of_mem_imp (fun y z hy hz hyz hlt => ?_) h)
  exact hr y hy (hyz (hlevel y hy z hz hlt))

/-- A member at the end that is not shallower than `m` owns nothing that is not deeper than `m`. -/
theorem not_lt_of_getLast? {m : ℕ} {y z : α} (hxs : ∀ x ∈ xs, m ≤ level x) (hy : y ∈ xs.getLast?)
    (hz : level z ≤ m) : ¬ level y < level z :=
  not_lt.2 (hz.trans (hxs y (List.mem_of_getLast? hy)))

/-- Members that are put between others: what stands before them may own the first, and what stands
behind them is not deeper than they are. -/
theorem parentsIn_between {m : ℕ} (hpre : ParentsIn level p pre) (hmoved : ParentsIn level p moved)
    (hrest : ParentsIn level p rest) (hge : ∀ y ∈ moved, m ≤ level y)
    (hhead : ∀ y ∈ moved.head?, level y = m) (hbefore : ∀ z ∈ pre.getLast?, level z < m → p z)
    (hbehind : ∀ y ∈ rest.head?, level y ≤ m) : ParentsIn level p (pre ++ moved ++ rest) := by
  refine parentsIn_append.2 ⟨parentsIn_append.2 ⟨hpre, hmoved, fun z hz y hy => ?_⟩, hrest, ?_⟩
  · rw [hhead y hy]
    exact hbefore z hz
  · intro z hz y hy hlt
    cases moved using List.reverseRecOn with
    | nil =>
      rw [List.append_nil] at hz
      exact hbefore z hz (hlt.trans_le (hbehind y hy))
    | append_singleton moved x =>
      -- the last of the members between is not shallower than `m`
      rw [← List.append_assoc, List.getLast?_concat] at hz
      obtain rfl : x = z := by simpa using hz
      exact absurd hlt (not_lt.2 ((hbehind y hy).trans (hge x (by simp))))

/-- A subtree is taken out. -/
theorem parentsIn_remove (hbelow : Below level x sub rest)
    (h : ParentsIn level p (pre ++ x :: (sub ++ rest))) : ParentsIn level p (pre ++ rest) := by
  obtain ⟨hpre, hx, hlast⟩ := parentsIn_append.1 h
  rw [← List.cons_append] at hx
  refine parentsIn_append.2 ⟨hpre, (parentsIn_append.1 hx).2.1, fun z hz y hy hlt => ?_⟩
  -- what is behind the subtree is not deeper than its root, which stood there before
  exact hlast z hz x rfl (hlt.trans_le (hbelow.behind y hy))

/-- A member is dissolved: those that it owns come up by one level. -/
theorem parentsIn_dissolve {raise : α → α} {bound : ℕ} (hraise : ∀ y, level (raise y) = level y - 1)
    (hp : ∀ y, p y → p (raise y)) (hsteps : StepsFrom level bound (pre ++ x :: (sub ++ rest)))
    (hbelow : Below level x sub rest) (h : ParentsIn level p (pre ++ x :: (sub ++ rest))) :
    ParentsIn level p (pre ++ (sub.map raise ++ rest)) := by
  obtain ⟨hpre, hx, hlast⟩ := parentsIn_append.1 h
  rw [← List.cons_append] at hx
  obtain ⟨hsub, hrest, -⟩ := parentsIn_append.1 hx
  have hraised : ParentsIn level p (sub.map raise) := by
    refine parentsIn_map (fun y _ z _ hlt => ?_) (fun y _ => hp y) (List.isChain_cons.1 hsub).2
    rw [hraise, hraise] at hlt
    omega
  have hchildren : ∀ y ∈ sub.head?, level y ≤ level x + 1 :=
    (stepsFrom_append.1 (stepsFrom_append.1 hsteps).2.2).1.head_le
  rw [← List.append_assoc]
  refine parentsIn_between hpre hraised hrest (m := level x) ?_ ?_ (fun z hz => hlast z hz x rfl)
    hbelow.behind
  · refine List.forall_mem_map.2 fun y hy => ?_
    have hlt := hbelow.deeper y hy
    rw [hraise]
    omega
  · intro y hy
    rw [List.head?_map, Option.mem_def, Option.map_eq_some_iff] at hy
    obtain ⟨z, hz, rfl⟩ := hy
    have hlt := hbelow.deeper z (List.mem_of_mem_head? hz)
    have hle := hchildren z hz
    rw [hraise]
    omega

end Parents

end Outline

/-!
## The parent of a member

The parent of a member is the last one before it that is less deep. So it is found in what stands before the
member, and it stays the same as long as nothing is put in between that is less deep.

* `parentOf`, `parentOf_eq_some_iff`: the index of the parent;
* `makeRoom`: where a member is after others were put in;
* `parentOf_insert`, `le_of_parentOf_insert`: when members that are put in take no children from others;
* `parentOf_inside`: the parents among the members that are put in;
* `movedIndex`, `parentOf_moved_outside`, `parentOf_moved_inside`: a stretch is taken out and put in elsewhere.
-/

namespace Outline

variable {α : Type*} (level : α → ℕ)

/-- The index of the last member that is less deep than `m`. -/
def lastBelow (m : ℕ) : List α → Option ℕ
  | [] => none
  | x :: xs =>
    match lastBelow m xs with
    | some i => some (i + 1)
    | none => if level x < m then some 0 else none

/-- The index of the parent of the member at `c`. -/
def parentOf (xs : List α) (c : ℕ) : Option ℕ :=
  xs[c]?.bind fun x => lastBelow level (level x) (xs.take c)

variable {level} {m c p : ℕ} {x y : α} {xs ys zs : List α}

/-! ## The last member that is less deep -/

theorem lastBelow_append : lastBelow level m (xs ++ ys)
    = ((lastBelow level m ys).map (xs.length + ·)).or (lastBelow level m xs) := by
  induction xs with
  | nil =>
    cases hys : lastBelow level m ys <;> simp [lastBelow, hys]
  | cons x xs ih =>
    rw [List.cons_append, lastBelow, ih]
    cases hys : lastBelow level m ys with
    | some i => simp [Nat.add_right_comm]
    | none => simp [lastBelow]

theorem lastBelow_eq_none : lastBelow level m xs = none ↔ ∀ x ∈ xs, m ≤ level x := by
  induction xs with
  | nil => simp [lastBelow]
  | cons x xs ih =>
    rw [lastBelow, List.forall_mem_cons, ← ih]
    cases hxs : lastBelow level m xs <;> simp

/-- Members that are not less deep do not matter at the end. -/
theorem lastBelow_append_left (h : ∀ y ∈ ys, m ≤ level y) :
    lastBelow level m (xs ++ ys) = lastBelow level m xs := by
  rw [lastBelow_append, lastBelow_eq_none.2 h]
  rfl

/-- Nothing matters that stands before one that is less deep. -/
theorem lastBelow_append_right (h : ∃ y ∈ ys, level y < m) :
    lastBelow level m (xs ++ ys) = (lastBelow level m ys).map (xs.length + ·) := by
  obtain ⟨y, hy, hlt⟩ := h
  cases hys : lastBelow level m ys with
  | none =>
    have := lastBelow_eq_none.1 hys y hy
    omega
  | some i => rw [lastBelow_append, hys]; rfl

theorem lastBelow_lt (h : lastBelow level m xs = some p) : p < xs.length := by
  induction xs generalizing p with
  | nil => cases h
  | cons x xs ih =>
    rw [lastBelow] at h
    cases hxs : lastBelow level m xs with
    | some i =>
      rw [hxs] at h
      obtain rfl := Option.some.inj h
      exact Nat.succ_lt_succ (ih hxs)
    | none =>
      rw [hxs] at h
      split_ifs at h
      obtain rfl := Option.some.inj h
      exact Nat.succ_pos _

theorem lastBelow_eq_some_iff : lastBelow level m xs = some p ↔
    ∃ hp : p < xs.length, level xs[p] < m ∧ ∀ k, p < k → ∀ hk : k < xs.length, m ≤ level xs[k] := by
  constructor
  · intro h
    have hp := lastBelow_lt h
    have hsplit : xs = (xs.take p ++ [xs[p]]) ++ xs.drop (p + 1) := by simp
    have hdrop : ∀ y ∈ xs.drop (p + 1), m ≤ level y := by
      -- a later one would have been found
      by_contra hnot
      push Not at hnot
      rw [hsplit, lastBelow_append_right hnot] at h
      obtain ⟨i, -, hi⟩ := Option.map_eq_some_iff.1 h
      simp at hi
      omega
    refine ⟨hp, ?_, fun k hpk hk => ?_⟩
    · by_contra hnot
      rw [hsplit, lastBelow_append_left hdrop, lastBelow_append_left (by simpa using hnot)] at h
      have := lastBelow_lt h
      rw [List.length_take] at this
      omega
    · apply hdrop
      rw [List.mem_drop_iff_getElem]
      exact ⟨k - (p + 1), by omega, by congr 1; omega⟩
  · rintro ⟨hp, hlt, hlater⟩
    have hsplit : xs = (xs.take p ++ [xs[p]]) ++ xs.drop (p + 1) := by simp
    rw [hsplit, lastBelow_append_left, lastBelow_append_right ⟨_, List.mem_singleton_self _, hlt⟩]
    · have hlen : (xs.take p).length = p := by
        rw [List.length_take]
        omega
      simp [lastBelow, hlt, hlen]
    · intro y hy
      obtain ⟨k, hk, rfl⟩ := List.mem_drop_iff_getElem.1 hy
      exact hlater _ (by omega) _

/-! ## The parent -/

theorem parentOf_of_getElem? (h : xs[c]? = some x) :
    parentOf level xs c = lastBelow level (level x) (xs.take c) := by
  rw [parentOf, h]
  rfl

/-- The member right behind a list. -/
theorem parentOf_append_cons : parentOf level (xs ++ x :: ys) xs.length = lastBelow level (level x) xs := by
  rw [parentOf_of_getElem? (x := x) (by simp), List.take_left]

/-- What the parent of a member is. -/
theorem parentOf_eq_some_iff : parentOf level xs c = some p ↔
    ∃ hc : c < xs.length, ∃ hp : p < c, level xs[p] < level xs[c] ∧
      ∀ k, p < k → ∀ hk : k < c, level xs[c] ≤ level xs[k] := by
  rw [parentOf, Option.bind_eq_some_iff]
  constructor
  · rintro ⟨x, hx, h⟩
    obtain ⟨hc, rfl⟩ := List.getElem?_eq_some_iff.1 hx
    obtain ⟨hp, hlt, hlater⟩ := lastBelow_eq_some_iff.1 h
    rw [List.length_take] at hp
    refine ⟨hc, by omega, List.getElem_take ▸ hlt, fun k hpk hk => ?_⟩
    have hle := hlater k hpk (by rw [List.length_take]; omega)
    rwa [List.getElem_take] at hle
  · rintro ⟨hc, hp, hlt, hlater⟩
    refine ⟨xs[c], List.getElem?_eq_getElem hc, lastBelow_eq_some_iff.2 ⟨?_, ?_, ?_⟩⟩
    · rw [List.length_take]
      omega
    · rwa [List.getElem_take]
    · intro k hpk hk
      rw [List.length_take] at hk
      rw [List.getElem_take]
      exact hlater k hpk (by omega)

/-- What stands behind a member does not matter. -/
theorem parentOf_append_left (hc : c < xs.length) :
    parentOf level (xs ++ ys) c = parentOf level xs c := by
  rw [parentOf, parentOf, List.getElem?_append_left hc, List.take_append_of_le_length hc.le]

/-- A member behind the first stretch: its parent is in the second one, or it is the last of the first
stretch that is less deep. -/
theorem parentOf_append_right {j : ℕ} (hy : ys[j]? = some y) :
    parentOf level (xs ++ ys) (xs.length + j)
      = ((lastBelow level (level y) (ys.take j)).map (xs.length + ·)).or (lastBelow level (level y) xs) := by
  have hget : (xs ++ ys)[xs.length + j]? = some y := by
    rw [List.getElem?_append_right (Nat.le_add_right ..), Nat.add_sub_cancel_left, hy]
  rw [parentOf_of_getElem? hget, List.take_length_add_append, lastBelow_append]

/-! ## Putting members in -/

/-- The index of the member at `i` after `b` members were put in at `n`. -/
def makeRoom (n b i : ℕ) : ℕ := if i < n then i else i + b

theorem makeRoom_of_lt {n b i : ℕ} (h : i < n) : makeRoom n b i = i := if_pos h

theorem makeRoom_add (n b j : ℕ) : makeRoom n b (n + j) = n + b + j := by
  rw [makeRoom, if_neg (by omega)]
  omega

/-- Members that are put in take no children from others, when they are at least as deep as the member
behind them. -/
theorem parentOf_insert (h : ∀ y ∈ ys.head?, ∀ z ∈ zs, level y ≤ level z) {i : ℕ}
    (hi : i < (xs ++ ys).length) :
    parentOf level (xs ++ (zs ++ ys)) (makeRoom xs.length zs.length i)
      = (parentOf level (xs ++ ys) i).map (makeRoom xs.length zs.length) := by
  have hbefore : ∀ m, (lastBelow level m xs).map (makeRoom xs.length zs.length) = lastBelow level m xs := by
    intro m
    cases hm : lastBelow level m xs with
    | none => rfl
    | some p => rw [Option.map_some, makeRoom_of_lt (lastBelow_lt hm)]
  by_cases hlt : i < xs.length
  · have hget : xs[i]? = some xs[i] := List.getElem?_eq_getElem hlt
    rw [makeRoom_of_lt hlt, parentOf_append_left hlt, parentOf_append_left hlt, parentOf_of_getElem? hget]
    cases hp : lastBelow level (level xs[i]) (xs.take i) with
    | none => rfl
    | some p =>
      have := lastBelow_lt hp
      rw [List.length_take] at this
      rw [Option.map_some, makeRoom_of_lt (by omega)]
  · obtain ⟨j, rfl⟩ := Nat.exists_eq_add_of_le (not_lt.1 hlt)
    have hj : j < ys.length := by
      rw [List.length_append] at hi
      omega
    have hget : ys[j]? = some ys[j] := List.getElem?_eq_getElem hj
    rw [makeRoom_add, ← List.append_assoc, ← List.length_append, parentOf_append_right hget,
      parentOf_append_right hget]
    cases hp : lastBelow level (level ys[j]) (ys.take j) with
    | some p => simp [makeRoom_add]
    | none =>
      -- the member is not deeper than the first one behind the new ones
      have hzs : ∀ z ∈ zs, level ys[j] ≤ level z := by
        intro z hz
        cases j with
        | zero => exact h _ (by rw [List.head?_eq_getElem?, hget]; rfl) z hz
        | succ j =>
          obtain ⟨y, hy⟩ : ∃ y, ys.head? = some y := ⟨ys[0], by rw [List.head?_eq_getElem?]; simp⟩
          have hmem : y ∈ ys.take (j + 1) := by
            rw [← List.cons_head?_tail hy]
            simp
          exact (lastBelow_eq_none.1 hp y hmem).trans (h y hy z hz)
      rw [lastBelow_append_left hzs]
      simp [hbefore]

/-- A member that is put in and takes no children from others is at least as deep as the one behind it. -/
theorem le_of_parentOf_insert {z : α} (h : ∀ i, i < (xs ++ ys).length →
      parentOf level (xs ++ z :: ys) (makeRoom xs.length 1 i)
        = (parentOf level (xs ++ ys) i).map (makeRoom xs.length 1)) :
    ∀ y ∈ ys.head?, level y ≤ level z := by
  intro y hy
  by_contra hlt
  obtain ⟨ys, rfl⟩ : ∃ rest, ys = y :: rest := ⟨_, (List.cons_head?_tail hy).symm⟩
  have hparent : parentOf level (xs ++ z :: y :: ys) (xs.length + 1) = some xs.length := by
    have hget : (z :: y :: ys)[1]? = some y := rfl
    rw [parentOf_append_right hget]
    simp [lastBelow, not_le.1 hlt]
  have hroom := h xs.length (by simp)
  have hplace := makeRoom_add xs.length 1 0
  rw [Nat.add_zero] at hplace
  rw [hplace, Nat.add_zero, hparent] at hroom
  -- no other member is where the new one is
  obtain ⟨p, -, hp⟩ := Option.map_eq_some_iff.1 hroom.symm
  rw [makeRoom] at hp
  split_ifs at hp <;> omega

/-- The parents among the members that are put in. -/
theorem parentOf_inside {j : ℕ} (h : parentOf level zs j = some p) :
    parentOf level (xs ++ (zs ++ ys)) (xs.length + j) = some (xs.length + p) := by
  obtain ⟨hj, -⟩ := parentOf_eq_some_iff.1 h
  have hget : zs[j]? = some zs[j] := List.getElem?_eq_getElem hj
  rw [parentOf_of_getElem? hget] at h
  rw [← List.append_assoc, parentOf_append_left (by rw [List.length_append]; omega),
    parentOf_append_right hget, h]
  rfl

/-! ## Moving members -/

/-- The index of the member at `i` after the `b` members from `n` on were moved to `n'`. -/
def movedIndex (n b n' i : ℕ) : ℕ :=
  if i < n then makeRoom n' b i else if i < n + b then n' + (i - n) else makeRoom n' b (i - b)

/-- A member that is not moved itself makes room in both places. -/
theorem movedIndex_makeRoom (n b n' i : ℕ) : movedIndex n b n' (makeRoom n b i) = makeRoom n' b i := by
  by_cases h : i < n
  · rw [makeRoom_of_lt h, movedIndex, if_pos h]
  · have hroom : makeRoom n b i = i + b := if_neg h
    rw [hroom, movedIndex, if_neg (by omega), if_neg (by omega), Nat.add_sub_cancel]

theorem movedIndex_add {n b n' j : ℕ} (hj : j < b) : movedIndex n b n' (n + j) = n' + j := by
  rw [movedIndex, if_neg (by omega), if_pos (by omega), Nat.add_sub_cancel_left]

variable {xs' ys' zs' : List α}

/-- Members that are not moved keep their parents, when the moved ones take no children in either place. -/
theorem parentOf_moved_outside (hrest : xs ++ ys = xs' ++ ys') (hlen : zs'.length = zs.length)
    (h : ∀ y ∈ ys.head?, ∀ z ∈ zs, level y ≤ level z) (h' : ∀ y ∈ ys'.head?, ∀ z ∈ zs', level y ≤ level z)
    {i : ℕ} (hi : i < (xs ++ (zs ++ ys)).length) (hout : i < xs.length ∨ xs.length + zs.length ≤ i) :
    parentOf level (xs' ++ (zs' ++ ys')) (movedIndex xs.length zs.length xs'.length i)
      = (parentOf level (xs ++ (zs ++ ys)) i).map (movedIndex xs.length zs.length xs'.length) := by
  obtain ⟨r, rfl⟩ : ∃ r, i = makeRoom xs.length zs.length r := by
    rcases hout with hlt | hle
    · exact ⟨i, (makeRoom_of_lt hlt).symm⟩
    · refine ⟨i - zs.length, ?_⟩
      rw [makeRoom, if_neg (by omega)]
      omega
  have hr : r < (xs ++ ys).length := by
    rw [makeRoom] at hi
    simp only [List.length_append] at hi ⊢
    split at hi <;> omega
  have hr' : r < (xs' ++ ys').length := hrest ▸ hr
  have hcomp : movedIndex xs.length zs.length xs'.length ∘ makeRoom xs.length zs.length
      = makeRoom xs'.length zs.length := funext fun k => movedIndex_makeRoom ..
  rw [movedIndex_makeRoom, parentOf_insert h hr, Option.map_map, hcomp, ← hlen, parentOf_insert h' hr', hrest]

/-- A moved member whose parent is moved too keeps it. -/
theorem parentOf_moved_inside {j : ℕ} (hz : parentOf level zs j = some p) (hz' : parentOf level zs' j = some p) :
    parentOf level (xs' ++ (zs' ++ ys')) (movedIndex xs.length zs.length xs'.length (xs.length + j))
      = (parentOf level (xs ++ (zs ++ ys)) (xs.length + j)).map
          (movedIndex xs.length zs.length xs'.length) := by
  obtain ⟨hj, hp, -⟩ := parentOf_eq_some_iff.1 hz
  rw [movedIndex_add hj, parentOf_inside hz, parentOf_inside hz', Option.map_some,
    movedIndex_add (hp.trans hj)]

/-- A subtree has the parents of all its members but the root. -/
theorem exists_parentOf_below {sub : List α} (hdeeper : ∀ y ∈ sub, level x < level y) {j : ℕ} (hj : j < sub.length) :
    ∃ p, parentOf level (x :: sub) (j + 1) = some p := by
  have hget : (x :: sub)[j + 1]? = some sub[j] := by simp
  rw [parentOf_of_getElem? hget, List.take_succ_cons, ← Option.isSome_iff_exists, Option.isSome_iff_ne_none,
    Ne, lastBelow_eq_none]
  intro hall
  have hlt := hdeeper sub[j] (List.getElem_mem hj)
  have hle := hall x List.mem_cons_self
  omega

/-- Parents depend on the levels alone. -/
theorem parentOf_comp {β : Type*} (level : α → ℕ) (f : β → α) (ys : List β) (c : ℕ) :
    parentOf level (ys.map f) c = parentOf (fun y => level (f y)) ys c := by
  have hlast : ∀ (m : ℕ) (ys : List β),
      lastBelow level m (ys.map f) = lastBelow (fun y => level (f y)) m ys := by
    intro m ys
    induction ys with
    | nil => rfl
    | cons y ys ih => rw [List.map_cons, lastBelow, lastBelow, ih]
  rw [parentOf, parentOf, List.getElem?_map, ← List.map_take]
  simp only [hlast]
  cases ys[c]? <;> rfl

/-- Parents stay the same when all members keep their order of levels. -/
theorem parentOf_map {g : α → α} (h : ∀ y ∈ xs, ∀ z ∈ xs, level (g y) < level (g z) ↔ level y < level z) (c : ℕ) :
    parentOf level (xs.map g) c = parentOf level xs c := by
  have hlast : ∀ z ∈ xs, ∀ ys : List α, (∀ y ∈ ys, y ∈ xs) →
      lastBelow level (level (g z)) (ys.map g) = lastBelow level (level z) ys := by
    intro z hz ys
    induction ys with
    | nil => exact fun _ => rfl
    | cons y ys ih =>
      intro hys
      rw [List.forall_mem_cons] at hys
      rw [List.map_cons, lastBelow, lastBelow, ih hys.2]
      simp only [h y hys.1 z hz]
  rw [parentOf, parentOf, List.getElem?_map]
  cases hget : xs[c]? with
  | none => rfl
  | some z =>
    rw [Option.map_some, Option.bind_some, Option.bind_some, ← List.map_take]
    exact hlast z (List.mem_of_getElem? hget) _ fun y hy => List.mem_of_mem_take hy

end Outline
