import Mathlib.Data.List.Nodup

/-!
# Trees of paths

A list of paths is read as a tree: below a path stand those that have one part more. A walk starts with the
empty path, and goes one level down in each round.

- `children`, `level`: what stands below a path, and what a walk reaches in a round.
- `mem_level_iff`, `nodup_level`: it reaches the paths of which no beginning is missing, each once.
-/

namespace Paths

variable {α : Type*} [DecidableEq α] {paths : List (List α)} {path parent : List α} {n : ℕ}

/-- The paths with one part more. -/
def children (paths : List (List α)) (parent : List α) : List (List α) :=
  paths.filter fun path => path.length == parent.length + 1 && path.take parent.length == parent

/-- The paths that a walk reaches in a round. -/
def level (paths : List (List α)) : ℕ → List (List α)
  | 0 => [[]]
  | n + 1 => (level paths n).flatMap (children paths)

theorem mem_children_iff :
    path ∈ children paths parent ↔ path ∈ paths ∧ path.length = parent.length + 1 ∧ path.take parent.length = parent := by
  simp [children, List.mem_filter]

theorem length_of_mem_level (h : path ∈ level paths n) : path.length = n := by
  induction n generalizing path with
  | zero => exact congrArg List.length (List.mem_singleton.1 h)
  | succ n ih =>
    obtain ⟨parent, hparent, hpath⟩ := List.mem_flatMap.1 h
    rw [(mem_children_iff.1 hpath).2.1, ih hparent]

/-- A path is reached when it and all its beginnings are there. -/
theorem mem_level_iff : path ∈ level paths n ↔ path.length = n ∧ ∀ k, 0 < k → k ≤ n → path.take k ∈ paths := by
  induction n generalizing path with
  | zero =>
    rw [level, List.mem_singleton, List.length_eq_zero_iff, iff_self_and]
    exact fun _ k hk hk' => by omega
  | succ n ih =>
    rw [level, List.mem_flatMap]
    constructor
    · rintro ⟨parent, hparent, hpath⟩
      obtain ⟨hmem, hlen, htake⟩ := mem_children_iff.1 hpath
      obtain ⟨hn, hbegins⟩ := ih.1 hparent
      refine ⟨by rw [hlen, hn], fun k hk hkn => ?_⟩
      rcases Nat.lt_or_ge n k with hlast | hbefore
      · rwa [List.take_of_length_le (by omega)]
      · have hbegin := hbegins k hk hbefore
        rwa [← htake, List.take_take, Nat.min_eq_left (by omega)] at hbegin
    · rintro ⟨hlen, hbegins⟩
      have hmem := hbegins (n + 1) (by omega) (Nat.le_refl _)
      rw [List.take_of_length_le (Nat.le_of_eq hlen)] at hmem
      have hparent : (path.take n).length = n := by
        rw [List.length_take]
        omega
      refine ⟨path.take n, ih.2 ⟨hparent, fun k hk hkn => ?_⟩, mem_children_iff.2 ⟨hmem, ?_, ?_⟩⟩
      · rw [List.take_take, Nat.min_eq_left hkn]
        exact hbegins k hk (by omega)
      · rw [hparent, hlen]
      · rw [hparent]

/-- No path is reached twice. -/
theorem nodup_level (h : paths.Nodup) (n : ℕ) : (level paths n).Nodup := by
  induction n with
  | zero => exact List.nodup_singleton []
  | succ n ih =>
    rw [level, List.nodup_flatMap]
    refine ⟨fun parent _ => h.filter _, ih.imp_of_mem fun {a b} ha hb hne => ?_⟩
    -- what stands below a path begins with it
    intro path hpa hpb
    have hlen := (length_of_mem_level ha).trans (length_of_mem_level hb).symm
    have htakea := (mem_children_iff.1 hpa).2.2
    have htakeb := (mem_children_iff.1 hpb).2.2
    rw [hlen] at htakea
    exact hne (htakea.symm.trans htakeb)

/-- A path is reached in one round only, and once in it. -/
theorem count_level (h : paths.Nodup) (hpath : ∀ k, 0 < k → k ≤ path.length → path.take k ∈ paths) (n : ℕ) :
    (level paths n).count path = if n = path.length then 1 else 0 := by
  split
  next heq =>
    have hmem : path ∈ level paths n := mem_level_iff.2 ⟨heq.symm, heq ▸ hpath⟩
    exact List.count_eq_one_of_mem (nodup_level h n) hmem
  next hne =>
    rw [List.count_eq_zero]
    exact fun hmem => hne (length_of_mem_level hmem).symm

end Paths
