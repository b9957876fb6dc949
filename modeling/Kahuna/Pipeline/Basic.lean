import Mathlib.Data.List.Basic

/-!
# Two copies of a state, with updates in flight

A party changes its own copy of a state and sends each update to another party, which takes the updates
in the order in which they were sent. What is in flight leads from the copy of the other party to its own.

- `InStep.send`, `InStep.deliver`: the copies stay in step as updates are sent and taken.
- `InStep.deliver` also tells what was known of an update when it was sent: a property of the state that
  the sender had then is one of the state that the receiver has when it takes the update.
-/

namespace Pipeline

variable {σ κ : Type*}

/-- Each update satisfies `P` in the state after the updates before it. -/
def Threaded (next : σ → κ → σ) (P : σ → κ → Prop) : σ → List κ → Prop
  | _, [] => True
  | s, k :: ks => P s k ∧ Threaded next P (next s k) ks

variable {next : σ → κ → σ} {P : σ → κ → Prop} {remote own : σ} {k : κ} {ks : List κ}

theorem threaded_append {s : σ} {ks' : List κ} :
    Threaded next P s (ks ++ ks') ↔ Threaded next P s ks ∧ Threaded next P (ks.foldl next s) ks' := by
  induction ks generalizing s with
  | nil => simp [Threaded]
  | cons k ks ih =>
    show _ ∧ Threaded next P (next s k) (ks ++ ks') ↔ _
    rw [ih, ← and_assoc]
    rfl

/-- The updates in flight lead from the copy of the receiver to that of the sender, and each of them was
sent in a state in which it satisfies `P`. -/
structure InStep (next : σ → κ → σ) (P : σ → κ → Prop) (remote : σ) (inFlight : List κ) (own : σ) :
    Prop where
  agree : inFlight.foldl next remote = own
  threaded : Threaded next P remote inFlight

namespace InStep

/-- The copies agree when nothing is in flight. -/
theorem nil (s : σ) : InStep next P s [] s := ⟨rfl, trivial⟩

/-- The sender changes its copy and sends the update. -/
theorem send (h : InStep next P remote ks own) (hk : P own k) :
    InStep next P remote (ks ++ [k]) (next own k) where
  agree := by rw [List.foldl_append, h.agree]; rfl
  threaded := threaded_append.2 ⟨h.threaded, by rw [h.agree]; exact ⟨hk, trivial⟩⟩

/-- The receiver takes the oldest update, in the state in which it was sent. -/
theorem deliver (h : InStep next P remote (k :: ks) own) :
    P remote k ∧ InStep next P (next remote k) ks own :=
  ⟨h.threaded.1, h.agree, h.threaded.2⟩

end InStep

end Pipeline
