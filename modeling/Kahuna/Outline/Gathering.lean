import Kahuna.Outline.Ancestors
import Mathlib.Data.List.DropRight

/-!
# Gathering subtrees

Some subtrees of an outline are taken from where they are and put next to each other under a new member.
Their members keep the ancestors that they have inside the subtrees, and get the new member and its ancestors
above those.

* `pathsFrom_append_opened`: shallower members are ancestors of all that comes behind them;
* `paths_under`, `paths_with`: the ancestors below a member, and those of a list with a subtree in it;
* `gatherFrom`, `gatherFrom_eq`: the members of some subtrees, with their ancestors inside the subtrees.
-/

namespace Outline

variable {α : Type*} {level : α → ℕ} {f : α → Bool} {opened xs pre sub rest : List α} {x : α}

/-! ## A subtree in a list -/

/-- Members that are open and shallower than all of a list are ancestors of all of it. -/
theorem pathsFrom_append_opened {above : List α} (h : ∀ y ∈ above, ∀ x ∈ xs, level y < level x) :
    pathsFrom level (opened ++ above) xs = (pathsFrom level opened xs).map (· ++ above) := by
  induction xs generalizing opened with
  | nil => rfl
  | cons x xs ih =>
    have habove : above.filter (level · < level x) = above :=
      List.filter_eq_self.2 fun y hy => by simpa using h y hy x List.mem_cons_self
    rw [pathsFrom, pathsFrom, List.filter_append, habove, List.map_cons, ← List.cons_append,
      ih fun y hy z hz => h y hy z (List.mem_cons_of_mem _ hz)]

/-- The ancestors of a member and those below it. -/
theorem paths_under (h : ∀ y ∈ sub, level x < level y) :
    paths level (x :: sub) = [] :: (paths level sub).map (· ++ [x]) := by
  have hsub := @pathsFrom_append_opened α level [] sub [x] (by simpa using h)
  rw [List.nil_append] at hsub
  rw [paths, pathsFrom, List.filter_nil, hsub]
  rfl

/-- What is open in front of a subtree and shallower than its root is above all of it. -/
theorem pathsFrom_under (h : ∀ y ∈ sub, level x < level y) : pathsFrom level opened (x :: sub)
    = (paths level (x :: sub)).map (· ++ opened.filter (level · < level x)) := by
  have hopened : ∀ y ∈ opened.filter (level · < level x), ∀ z ∈ x :: sub, level y < level z := by
    intro y hy
    have hlt : level y < level x := by simpa using (List.mem_filter.1 hy).2
    exact List.forall_mem_cons.2 ⟨hlt, fun z hz => hlt.trans (h z hz)⟩
  rw [paths, ← pathsFrom_append_opened hopened, List.nil_append]
  apply pathsFrom_congr
  intro y hy
  obtain rfl : x = y := by simpa using hy
  simp [List.filter_filter]

/-- The ancestors of all members of a list with a subtree in it. -/
theorem paths_with (h : Below level x sub rest) : paths level (pre ++ x :: (sub ++ rest))
    = paths level pre
      ++ (paths level (x :: sub)).map (· ++ (openedAfter level [] pre).filter (level · < level x))
      ++ pathsFrom level (openedAfter level [] pre) rest := by
  rw [paths, pathsFrom_append, pathsFrom_subtree h, pathsFrom_under h.deeper, List.append_assoc]
  rfl

/-- What decides about the ancestors is which of two members is shallower. -/
theorem paths_map {g : α → α} (h : ∀ y ∈ xs, ∀ z ∈ xs, level (g y) < level (g z) ↔ level y < level z) :
    paths level (xs.map g) = (paths level xs).map (List.map g) := by
  suffices hfrom : ∀ opened, (∀ y ∈ opened, ∀ z ∈ xs, level (g y) < level (g z) ↔ level y < level z) →
      pathsFrom (level ∘ g) opened xs = pathsFrom level opened xs by
    have hmap := @pathsFrom_map α α level g [] xs
    rw [List.map_nil, hfrom [] (by simp)] at hmap
    exact hmap
  induction xs with
  | nil => exact fun _ _ => rfl
  | cons x xs ih =>
    intro opened hopened
    have hpath : opened.filter ((level ∘ g) · < (level ∘ g) x) = opened.filter (level · < level x) :=
      List.filter_congr fun y hy => by simp [hopened y hy x List.mem_cons_self]
    rw [pathsFrom, pathsFrom, hpath]
    congr 1
    refine ih (fun y hy z hz => h y (List.mem_cons_of_mem _ hy) z (List.mem_cons_of_mem _ hz)) _ ?_
    refine List.forall_mem_cons.2 ⟨fun z hz => h x List.mem_cons_self z (List.mem_cons_of_mem _ hz), ?_⟩
    exact fun y hy z hz => hopened y (List.mem_of_mem_filter hy) z (List.mem_cons_of_mem _ hz)

/-! ## The subtrees of some members -/

/-- The members of a list, each with its ancestors. -/
def withPaths (level : α → ℕ) (xs : List α) : List (α × List α) := xs.zip (paths level xs)

/-- The subtree of the member at an index. -/
def subtreeAt (level : α → ℕ) (xs : List α) (i : ℕ) : List α := (xs.take (subtreeEnd level xs i)).drop i

/-- The members in the subtrees of members that satisfy `f`, each with its ancestors up to the outermost such
member. -/
def gatherFrom (level : α → ℕ) (f : α → Bool) (opened xs : List α) : List (α × List α) :=
  ((xs.zip (pathsFrom level opened xs)).filter fun m => f m.1 || m.2.any f).map fun m =>
    (m.1, m.2.rdropWhile fun y => !f y)

/-- No member that satisfies `f` is below another one. -/
def Plain (level : α → ℕ) (f : α → Bool) (xs : List α) : Prop :=
  ∀ pre x sub rest, xs = pre ++ x :: (sub ++ rest) → Below level x sub rest → f x = true →
    ∀ y ∈ sub, f y = false

/-- The indices of the members that satisfy `f`, when the list starts at an index. -/
def indicesFrom (f : α → Bool) : ℕ → List α → List ℕ
  | _, [] => []
  | offset, x :: xs => if f x then offset :: indicesFrom f (offset + 1) xs else indicesFrom f (offset + 1) xs

theorem indicesFrom_append {offset : ℕ} {ys : List α} : indicesFrom f offset (xs ++ ys)
    = indicesFrom f offset xs ++ indicesFrom f (offset + xs.length) ys := by
  induction xs generalizing offset with
  | nil => rfl
  | cons x xs ih =>
    rw [List.cons_append, indicesFrom, indicesFrom, ih, List.length_cons, Nat.add_assoc, Nat.add_comm 1]
    split <;> rfl

theorem indicesFrom_eq_nil {offset : ℕ} (h : ∀ x ∈ xs, f x = false) : indicesFrom f offset xs = [] := by
  induction xs generalizing offset with
  | nil => rfl
  | cons x xs ih =>
    rw [List.forall_mem_cons] at h
    rw [indicesFrom, h.1, if_neg (by simp), ih h.2]

theorem indicesFrom_eq_filter (f : α → Bool) (xs : List α) :
    indicesFrom f 0 xs = (List.range xs.length).filter fun i => xs[i]?.any f := by
  induction xs using List.reverseRecOn with
  | nil => rfl
  | append_singleton xs x ih =>
    have hsame : (List.range xs.length).filter (fun i => (xs ++ [x])[i]?.any f)
        = (List.range xs.length).filter fun i => xs[i]?.any f := by
      refine List.filter_congr fun i hi => ?_
      rw [List.getElem?_append_left (List.mem_range.1 hi)]
    rw [indicesFrom_append, ih, List.length_append, List.length_singleton, List.range_succ, List.filter_append,
      hsame, Nat.zero_add]
    cases hx : f x <;> simp [indicesFrom, hx]

theorem subtreeAt_split (h : Below level x sub rest) :
    subtreeAt level (pre ++ x :: (sub ++ rest)) pre.length = x :: sub := by
  rw [subtreeAt, subtreeEnd_split pre h, Nat.add_assoc, List.take_length_add_append, Nat.add_comm 1,
    List.take_succ_cons, List.take_left, List.drop_left]

/-- A root that satisfies `f` has all of its subtree gathered. -/
theorem gather_subtree (hopened : ∀ y ∈ opened, f y = false) (hx : f x = true)
    (h : ∀ y ∈ sub, level x < level y) : gatherFrom level f opened (x :: sub) = withPaths level (x :: sub) := by
  set above := opened.filter (level · < level x) with habove
  have hnone : ∀ y ∈ above, (!f y) = true := fun y hy => by simp [hopened y (List.mem_of_mem_filter hy)]
  have hdrop : ∀ path : List α, (path ++ above).rdropWhile (fun y => !f y) = path.rdropWhile fun y => !f y := by
    intro path
    rw [List.rdropWhile, List.rdropWhile, List.reverse_append,
      List.dropWhile_append_of_pos fun y hy => hnone y (List.mem_reverse.1 hy)]
  have hroot : ∀ m ∈ withPaths level (x :: sub), (f m.1 || m.2.any f) = true ∧
      m.2.rdropWhile (fun y => !f y) = m.2 := by
    intro m hm
    rw [withPaths, paths_under h, List.zip_cons_cons] at hm
    rcases List.mem_cons.1 hm with rfl | hm
    · exact ⟨by simp [hx], rfl⟩
    · -- the root is the outermost ancestor
      obtain ⟨path, -, hpath⟩ := List.mem_map.1 (List.of_mem_zip hm).2
      rw [← hpath]
      exact ⟨by simp [hx], List.rdropWhile_concat_neg _ _ _ (by simp [hx])⟩
  have hall : (withPaths level (x :: sub)).filter
      ((fun m : α × List α => f m.1 || m.2.any f) ∘ Prod.map id (· ++ above)) = withPaths level (x :: sub) := by
    refine List.filter_eq_self.2 fun m hm => ?_
    have hany := (hroot m hm).1
    simp only [Function.comp_apply, Prod.map, id_eq, List.any_append]
    rw [← Bool.or_assoc, hany, Bool.true_or]
  rw [gatherFrom, pathsFrom_under h, List.zip_map_right, List.filter_map, List.map_map, ← habove]
  change List.map _ ((withPaths level (x :: sub)).filter _) = _
  rw [hall]
  refine (List.map_congr_left fun m hm => ?_).trans (List.map_id _)
  simp only [Function.comp_apply, Prod.map, id_eq, hdrop]
  exact Prod.ext rfl (hroot m hm).2

/-- The members of the subtrees are those of one subtree after the other. -/
theorem gatherFrom_eq (pre : List α) (hopened : ∀ y ∈ opened, f y = false) (hplain : Plain level f xs) :
    gatherFrom level f opened xs
      = (indicesFrom f pre.length xs).flatMap fun i => withPaths level (subtreeAt level (pre ++ xs) i) := by
  induction hlen : xs.length using Nat.strong_induction_on generalizing opened pre xs with
  | h n ih =>
    match xs with
    | [] => rfl
    | x :: xs =>
      rw [List.length_cons] at hlen
      have htail : ∀ ys zs, x :: xs = ys ++ zs → Plain level f zs := by
        intro ys zs heq pre' y sub rest hzs
        refine hplain (ys ++ pre') y sub rest ?_
        rw [heq, hzs, List.append_assoc]
      cases hx : f x with
      | false =>
        have hpath : (opened.filter (level · < level x)).any f = false := by
          rw [List.any_eq_false]
          exact fun y hy => by simp [hopened y (List.mem_of_mem_filter hy)]
        have hopened' : ∀ y ∈ x :: opened.filter (level · < level x), f y = false :=
          List.forall_mem_cons.2 ⟨hx, fun y hy => hopened y (List.mem_of_mem_filter hy)⟩
        have hstep : gatherFrom level f opened (x :: xs)
            = gatherFrom level f (x :: opened.filter (level · < level x)) xs := by
          rw [gatherFrom, pathsFrom, List.zip_cons_cons, List.filter_cons_of_neg (by simp [hx, hpath])]
          rfl
        rw [hstep, ih xs.length (by omega) (pre ++ [x]) hopened' (htail [x] xs rfl) rfl, indicesFrom, hx,
          if_neg (by simp), List.append_assoc, List.length_append]
        rfl
      | true =>
        -- the subtree is taken as a whole
        obtain ⟨sub, rest, rfl, hbelow⟩ := exists_below level x xs
        rw [List.length_append] at hlen
        have hsub := hplain [] x sub rest rfl hbelow hx
        have hparts : gatherFrom level f opened (x :: (sub ++ rest))
            = withPaths level (x :: sub) ++ gatherFrom level f opened rest := by
          rw [gatherFrom, pathsFrom_subtree hbelow, ← List.cons_append, List.zip_append (by simp),
            List.filter_append, List.map_append, ← gather_subtree hopened hx hbelow.deeper]
          rfl
        have hlength : (pre ++ x :: sub).length = pre.length + 1 + sub.length := by
          rw [List.length_append, List.length_cons]
          omega
        rw [hparts, ih rest.length (by omega) (pre ++ x :: sub) hopened (htail (x :: sub) rest rfl) rfl,
          indicesFrom, hx, if_pos rfl, indicesFrom_append, indicesFrom_eq_nil hsub, List.nil_append,
          List.flatMap_cons, subtreeAt_split hbelow, hlength, List.append_assoc]
        rfl

/-- Members that are kept by what belongs to their indices. -/
theorem keepAt_eq_map_fst {β : Type*} {ys : List β} {p : ℕ → Bool} {q : α × β → Bool} {offset : ℕ}
    (hlen : ys.length = xs.length)
    (h : ∀ i (hi : i < xs.length) (hi' : i < ys.length), p (offset + i) = q (xs[i], ys[i])) :
    keepAt p offset xs = ((xs.zip ys).filter q).map Prod.fst := by
  induction xs generalizing ys offset with
  | nil => rfl
  | cons x xs ih =>
    match ys with
    | [] => simp at hlen
    | y :: ys =>
      have hfirst : p offset = q (x, y) := h 0 (by simp) (by simp)
      have hrest : keepAt p (offset + 1) xs = ((xs.zip ys).filter q).map Prod.fst := by
        refine ih (by simpa using hlen) fun i hi hi' => ?_
        rw [Nat.add_assoc, Nat.add_comm 1]
        exact h (i + 1) (by simpa using hi) (by simpa using hi')
      rw [keepAt, List.zip_cons_cons, hrest, hfirst]
      cases hq : q (x, y) <;> simp [hq]

end Outline
