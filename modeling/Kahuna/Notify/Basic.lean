import Mathlib.Logic.Basic

/-!
# Waiting for a notification

A task that waits for a condition checks it under a lock, registers after the lock was released, and then
sleeps. A notification wakes the tasks that have registered and no others. A task that was woken checks the
condition again.

- `Phase.Quiet`: a task that does not check the condition any more has reason not to.
- `Phase.Quiet.notified`: a notification keeps this for all tasks that have registered.
-/

namespace Notify

/-- Where a task stands that waits. -/
inductive Phase where
  /-- The condition is checked next. -/
  | checks
  /-- The condition was not met, and the task registers next. -/
  | registers
  /-- The task has registered. -/
  | asleep
  deriving DecidableEq, Repr

namespace Phase

/-- What a notification does. -/
def notified : Phase → Phase
  | .asleep => .checks
  | p => p

/-- The condition is not met as long as the task does not check it. -/
def Quiet (holds : Prop) (p : Phase) : Prop := p ≠ .checks → ¬ holds

variable {holds holds' : Prop} {p : Phase}

namespace Quiet

theorem checks : Quiet holds .checks := fun h => absurd rfl h

theorem of_not (h : ¬ holds) : Quiet holds p := fun _ => h

/-- A task registers only after the condition was found not to be met. -/
theorem register (h : Quiet holds .registers) : Quiet holds .asleep := fun _ => h (by simp)

/-- A change of the condition with a notification is harmless to those who have registered. -/
theorem notified (h : p = .registers → ¬ holds') : Quiet holds' p.notified := by
  intro hp
  cases p with
  | checks => exact absurd rfl hp
  | registers => exact h rfl
  | asleep => exact absurd rfl hp

end Quiet

end Phase

end Notify
