import Mathlib.Data.List.Basic

/-!
# Histories of snapshots

An undo history keeps snapshots on two stacks. Going back takes a snapshot from one stack, exchanges
it with the state, and puts what the state was on the other stack. This file develops the exchange
over any type of states and snapshots.

* `History.exchange`: up to `n` snapshots go from one stack to the other;
* `History.exchange_exchange`: going back and forth changes nothing, when each single exchange can be
  taken back;
* `History.exchange_all`: what a single exchange keeps of states and snapshots, many keep.
-/

namespace History

variable {σ κ : Type*} (swap : σ → κ → σ × κ)

/-- Take up to `n` snapshots from the first stack, exchange each with the state, and put what comes
out on the second stack. -/
def exchange : ℕ → σ → List κ → List κ → σ × List κ × List κ
  | 0, s, xs, ys => (s, xs, ys)
  | _ + 1, s, [], ys => (s, [], ys)
  | n + 1, s, x :: xs, ys => exchange n (swap s x).1 xs ((swap s x).2 :: ys)

variable {swap} {n : ℕ} {s : σ} {xs ys : List κ}

/-- The last of several exchanges, done on its own. -/
theorem exchange_succ :
    exchange swap (n + 1) s xs ys =
      exchange swap 1 (exchange swap n s xs ys).1 (exchange swap n s xs ys).2.1
        (exchange swap n s xs ys).2.2 := by
  induction n generalizing s xs ys with
  | zero => rfl
  | succ n ih =>
    match xs with
    | [] => rfl
    | x :: xs => exact ih

/-- As many exchanges back as there were forth restore the state and both stacks. -/
theorem exchange_exchange (hswap : ∀ s x, swap (swap s x).1 (swap s x).2 = (s, x))
    (hn : n ≤ xs.length) :
    exchange swap n (exchange swap n s xs ys).1 (exchange swap n s xs ys).2.2
        (exchange swap n s xs ys).2.1 = (s, ys, xs) := by
  induction n generalizing s xs ys with
  | zero => rfl
  | succ n ih =>
    match xs with
    | [] => exact absurd hn (by simp)
    | x :: xs =>
      have hback := @ih (swap s x).1 xs ((swap s x).2 :: ys) (by simpa using hn)
      -- the first exchange forth is the last one back
      rw [exchange_succ, exchange, hback]
      show ((swap (swap s x).1 (swap s x).2).1, ys, (swap (swap s x).1 (swap s x).2).2 :: xs) = _
      rw [hswap]

/-- A property of the state and one of all snapshots that single exchanges keep hold after many. -/
theorem exchange_all {P : σ → Prop} {Q : κ → Prop}
    (hswap : ∀ s x, P s → Q x → P (swap s x).1 ∧ Q (swap s x).2) (hs : P s)
    (hxs : ∀ x ∈ xs, Q x) (hys : ∀ y ∈ ys, Q y) :
    P (exchange swap n s xs ys).1 ∧ (∀ x ∈ (exchange swap n s xs ys).2.1, Q x) ∧
      ∀ y ∈ (exchange swap n s xs ys).2.2, Q y := by
  induction n generalizing s xs ys with
  | zero => exact ⟨hs, hxs, hys⟩
  | succ n ih =>
    match xs with
    | [] => exact ⟨hs, hxs, hys⟩
    | x :: xs =>
      rw [List.forall_mem_cons] at hxs
      obtain ⟨hs', hy⟩ := hswap s x hs hxs.1
      exact ih hs' hxs.2 (List.forall_mem_cons.2 ⟨hy, hys⟩)

end History
