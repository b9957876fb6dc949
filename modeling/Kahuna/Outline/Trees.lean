import Mathlib.Data.List.Basic
import Mathlib.Data.List.TakeWhile

/-!
# Outlines of trees

A tree written down member by member, each with its level, is an outline. It can be read back: the members
behind a member that are deeper are below it.

* `Tree`, `Tree.outline`: a tree, and its outline;
* `Tree.read`, `Tree.read_outline`: the trees of an outline, and that nothing is lost;
* `Tree.Unfolds`: a tree that goes on below each member as a function says;
* `Tree.expand`: members get leaves of their own.
-/

namespace Outline

/-- A member with trees below it. -/
inductive Tree (α : Type*) where
  | node (value : α) (children : List (Tree α))

namespace Tree

variable {α β : Type*} {l : ℕ} {x : ℕ × α}

/-- The member at the root. -/
def value : Tree α → α
  | node a _ => a

/-- A member without others below it. -/
def leaf (a : α) : Tree α := node a []

/-- What holds of a tree when it holds of those below its root holds of all trees. -/
theorem induct {motive : Tree α → Prop}
    (node : ∀ (a : α) (ts : List (Tree α)), (∀ t ∈ ts, motive t) → motive (Tree.node a ts)) :
    ∀ t, motive t
  | .node a ts => node a ts fun t _ => induct node t

mutual

/-- The members of a tree with their levels, the root first. -/
def outline (l : ℕ) : Tree α → List (ℕ × α)
  | node a ts => (l, a) :: outlines (l + 1) ts

/-- The members of trees at one level. -/
def outlines (l : ℕ) : List (Tree α) → List (ℕ × α)
  | [] => []
  | t :: ts => outline l t ++ outlines l ts

end

mutual

/-- How far a tree goes down below its root. -/
def height : Tree α → ℕ
  | node _ ts => heights ts

/-- How far trees go down below a common root. -/
def heights : List (Tree α) → ℕ
  | [] => 0
  | t :: ts => max (height t + 1) (heights ts)

end

mutual

/-- Each member is changed, and gets leaves of its own in front of what is below it. -/
def expand (f : α → β) (leaves : α → List β) : Tree α → Tree β
  | node a ts => node (f a) ((leaves a).map leaf ++ expandAll f leaves ts)

def expandAll (f : α → β) (leaves : α → List β) : List (Tree α) → List (Tree β)
  | [] => []
  | t :: ts => expand f leaves t :: expandAll f leaves ts

end

/-- The trees of an outline, with the levels of their roots. -/
def read : List (ℕ × α) → List (ℕ × Tree α)
  | [] => []
  | (l, a) :: xs =>
    (l, node a (((read xs).takeWhile fun t => l < t.1).map Prod.snd)) :: (read xs).dropWhile fun t => l < t.1

/-- A tree whose members have below them what `next` says. -/
inductive Unfolds (next : α → List α) : Tree α → Prop
  | node (a : α) (ts : List (Tree α)) (hnext : next a = ts.map value) (hts : ∀ t ∈ ts, Unfolds next t) :
    Unfolds next (node a ts)

/-! ## Outlines -/

theorem outline_node (a : α) (ts : List (Tree α)) : outline l (node a ts) = (l, a) :: outlines (l + 1) ts := by
  rw [outline]

theorem outlines_append (ts us : List (Tree α)) : outlines l (ts ++ us) = outlines l ts ++ outlines l us := by
  induction ts with
  | nil => rw [outlines]; rfl
  | cons t ts ih => rw [List.cons_append, outlines, outlines, ih, List.append_assoc]

/-- Leaves are written side by side. -/
theorem outlines_leaves (as : List α) : outlines l (as.map leaf) = as.map fun a => (l, a) := by
  induction as with
  | nil => rw [List.map_nil, outlines]; rfl
  | cons a as ih => rw [List.map_cons, outlines, ih, leaf, outline_node, outlines]; rfl

/-! ## Reading -/

/-- Reading a tree in front of something that is not below it. -/
theorem read_outline_append (t : Tree α) : ∀ (l : ℕ) (rest : List (ℕ × α)),
    (∀ u ∈ (read rest).head?, u.1 ≤ l) → read (outline l t ++ rest) = (l, t) :: read rest := by
  induction t using induct with
  | node a ts ih =>
    intro l rest hrest
    have hchildren : read (outlines (l + 1) ts ++ rest) = ts.map (fun t => (l + 1, t)) ++ read rest := by
      induction ts with
      | nil => rw [outlines]; rfl
      | cons t ts ihts =>
        have hread := ihts fun u hu => ih u (List.mem_cons_of_mem t hu)
        rw [outlines, List.append_assoc, ih t List.mem_cons_self, hread]
        · rfl
        · intro u hu
          rw [hread] at hu
          cases ts with
          | nil => exact (hrest u hu).trans (Nat.le_succ l)
          | cons t' ts =>
            obtain rfl := Option.some.inj hu
            exact le_rfl
    have hdeeper : ∀ u ∈ ts.map (fun t => (l + 1, t)), decide (l < u.1) = true := by
      intro u hu
      obtain ⟨t, -, rfl⟩ := List.mem_map.1 hu
      exact decide_eq_true (Nat.lt_succ_self l)
    have hnot : (read rest).takeWhile (fun u => decide (l < u.1)) = [] ∧
        (read rest).dropWhile (fun u => decide (l < u.1)) = read rest := by
      cases hr : read rest with
      | nil => exact ⟨rfl, rfl⟩
      | cons u us =>
        have hle := hrest u (by rw [hr]; rfl)
        simp [hle]
    have hsnd : (Prod.snd ∘ fun t : Tree α => (l + 1, t)) = id := rfl
    rw [outline_node, List.cons_append, read, hchildren, List.takeWhile_append_of_pos hdeeper,
      List.dropWhile_append_of_pos hdeeper, hnot.1, hnot.2, List.append_nil, List.map_map, hsnd, List.map_id]

/-- Nothing is lost when a tree is written down. -/
theorem read_outline (l : ℕ) (t : Tree α) : read (outline l t) = [(l, t)] := by
  have hread := read_outline_append t l [] (by simp [read])
  rwa [List.append_nil] at hread

/-! ## Trees below trees -/

theorem height_node (a : α) (ts : List (Tree α)) : height (node a ts) = heights ts := by
  rw [height]

/-- Trees below a root are not as high. -/
theorem height_lt_of_mem {ts : List (Tree α)} {t : Tree α} (h : t ∈ ts) : height t + 1 ≤ heights ts := by
  induction ts with
  | nil => cases h
  | cons u ts ih =>
    rw [heights]
    rcases List.mem_cons.1 h with rfl | h
    · exact le_max_left ..
    · exact (ih h).trans (le_max_right ..)

theorem expand_node (f : α → β) (leaves : α → List β) (a : α) (ts : List (Tree α)) :
    expand f leaves (node a ts) = node (f a) ((leaves a).map leaf ++ ts.map (expand f leaves)) := by
  have hall : ∀ us : List (Tree α), expandAll f leaves us = us.map (expand f leaves) := by
    intro us
    induction us with
    | nil => rw [expandAll]; rfl
    | cons u us ih => rw [expandAll, ih]; rfl
  rw [expand, hall]

end Tree

end Outline
