import Mathlib.Data.List.Basic
import Mathlib.Data.List.Induction
import Mathlib.Order.Lattice

/-!
# Turns of a sampled signal

A signal that is sampled at increasing positions is drawn as one block for each stretch of samples
with one key. The blocks begin at the turns, the samples whose key is not that of the sample before.
-/

namespace Timeline

variable {α κ π : Type*} [DecidableEq κ] (key : α → κ)

/-- The samples whose key is not that of the sample before, where `prev` is the key before the first
of them. -/
def turns : Option κ → List α → List α
  | _, [] => []
  | prev, x :: xs => if prev = some (key x) then turns prev xs else x :: turns (some (key x)) xs

@[simp] theorem turns_nil (prev : Option κ) : turns key prev [] = [] := rfl

/-- A turn is a sample. -/
theorem turns_sublist (prev : Option κ) (xs : List α) : (turns key prev xs).Sublist xs := by
  induction xs generalizing prev with
  | nil => exact List.Sublist.refl _
  | cons x xs ih =>
    rw [turns]
    split
    · exact (ih prev).cons x
    · exact (ih (some (key x))).cons_cons x

/-- The first sample of all is a turn. -/
theorem turns_none_cons (x : α) (xs : List α) :
    turns key none (x :: xs) = x :: turns key (some (key x)) xs := by
  simp [turns]

variable [LinearOrder π] (pos : α → π)

/-- A sample lies in the block of the turn: it has its key, and the next turn is behind it. -/
def InBlock (ts : List α) (i : ℕ) (x : α) : Prop :=
  (∃ s, ts[i]? = some s ∧ key s = key x ∧ pos s ≤ pos x) ∧
    ∀ s, ts[i + 1]? = some s → pos x < pos s

/-- A sample lies in a block, or in front of the first turn with the key before it. -/
private theorem inBlock_or {xs : List α} (h : xs.Pairwise fun x y => pos x < pos y)
    (prev : Option κ) {x : α} (hx : x ∈ xs) :
    (prev = some (key x) ∧ ∀ s, (turns key prev xs)[0]? = some s → pos x < pos s) ∨
      ∃ i, InBlock key pos (turns key prev xs) i x := by
  induction xs generalizing prev with
  | nil => simp at hx
  | cons y ys ih =>
    obtain ⟨hfirst, hrest⟩ := List.pairwise_cons.mp h
    -- what turns behind the head is behind the head
    have hbehind : ∀ (p : Option κ) (s : α), s ∈ turns key p ys → pos y < pos s :=
      fun p s hs => hfirst s ((turns_sublist key p ys).subset hs)
    by_cases hkey : prev = some (key y)
    · simp only [turns, if_pos hkey]
      rcases List.mem_cons.mp hx with rfl | hmem
      · exact .inl ⟨hkey, fun s hs => hbehind _ s (List.mem_of_getElem? hs)⟩
      · exact ih hrest prev hmem
    · simp only [turns, if_neg hkey]
      rcases List.mem_cons.mp hx with rfl | hmem
      · refine .inr ⟨0, ⟨x, rfl, rfl, le_refl _⟩, fun s hs => ?_⟩
        exact hbehind _ s (List.mem_of_getElem? (by simpa using hs))
      · right
        rcases ih hrest (some (key y)) hmem with ⟨hsame, hnext⟩ | ⟨i, ⟨s, hs, hskey, hle⟩, hnext⟩
        · exact ⟨0, ⟨y, rfl, Option.some.inj hsame, (hfirst x hmem).le⟩, by simpa using hnext⟩
        · exact ⟨i + 1, ⟨s, by simpa using hs, hskey, hle⟩, by simpa using hnext⟩

/-- Every sample lies in a block. -/
theorem exists_inBlock {xs : List α} (h : xs.Pairwise fun x y => pos x < pos y) {x : α}
    (hx : x ∈ xs) : ∃ i, InBlock key pos (turns key none xs) i x := by
  rcases inBlock_or key pos h none hx with ⟨habs, -⟩ | hblock
  · exact absurd habs (by simp)
  · exact hblock

end Timeline

/-!
## Turns and first occurrences

Dropping the elements that have the class of the element before them leaves the turns of a list.
Dropping those that occurred before leaves the first occurrences. The two agree exactly when an
element has the class of the one before it where it occurred before, and nowhere else.
-/

namespace Timeline

variable {κ γ : Type*} (cls : κ → γ)

/-- Behind elements with the members `seen`, of which the last one has the class `prev`, an element
has the class of the one before it exactly when it occurred before. -/
def Agrees : Option γ → List κ → List κ → Prop
  | _, _, [] => True
  | prev, seen, k :: ks =>
    (prev = some (cls k) ↔ k ∈ seen) ∧ Agrees (some (cls k)) (k :: seen) ks

/-- The class of the last element of a list, or of the one before it. -/
def lastClass (prev : Option γ) (ks : List κ) : Option γ := ks.foldl (fun _ k => some (cls k)) prev

section Agrees

variable {cls} {prev : Option γ} {seen seen' as bs ks : List κ}

@[simp] theorem lastClass_nil : lastClass cls prev [] = prev := rfl

/-- The class of the last element. -/
theorem lastClass_eq_getLast? {l : κ} (h : ks.getLast? = some l) :
    lastClass cls prev ks = some (cls l) := by
  obtain ⟨front, rfl⟩ := List.getLast?_eq_some_iff.mp h
  simp [lastClass]

/-- Elements of one class leave it the last one. -/
theorem lastClass_of_forall (h : ∀ k ∈ ks, prev = some (cls k)) : lastClass cls prev ks = prev := by
  induction ks with
  | nil => rfl
  | cons k ks ih =>
    obtain ⟨hk, hks⟩ := List.forall_mem_cons.mp h
    rw [lastClass, List.foldl_cons, ← hk]
    exact ih hks

/-- Only the members of what came before matter. -/
theorem agrees_congr (h : ∀ k, k ∈ seen ↔ k ∈ seen') :
    Agrees cls prev seen ks ↔ Agrees cls prev seen' ks := by
  induction ks generalizing prev seen seen' with
  | nil => exact Iff.rfl
  | cons k ks ih =>
    have hseen : ∀ x, x ∈ k :: seen ↔ x ∈ k :: seen' := fun x => by simp [h x]
    rw [Agrees, Agrees, h k, ih hseen]

theorem agrees_append : Agrees cls prev seen (as ++ bs) ↔
    Agrees cls prev seen as ∧ Agrees cls (lastClass cls prev as) (as ++ seen) bs := by
  induction as generalizing prev seen with
  | nil => simp [Agrees]
  | cons a as ih =>
    have hseen : ∀ k, k ∈ as ++ a :: seen ↔ k ∈ a :: as ++ seen := by
      intro k
      simp only [List.mem_append, List.mem_cons]
      tauto
    rw [List.cons_append, Agrees, Agrees, ih, and_assoc, agrees_congr hseen]
    rfl

/-- Where everything occurred before, everything has the class of the last element. -/
theorem agrees_of_subset (h : ∀ k ∈ ks, k ∈ seen) :
    Agrees cls prev seen ks ↔ ∀ k ∈ ks, prev = some (cls k) := by
  induction ks generalizing prev seen with
  | nil => simp [Agrees]
  | cons k ks ih =>
    obtain ⟨hk, hks⟩ := List.forall_mem_cons.mp h
    rw [Agrees, ih fun x hx => List.mem_cons_of_mem _ (hks x hx), List.forall_mem_cons]
    simp only [hk, iff_true]
    refine and_congr_right fun hprev => ?_
    rw [hprev]

/-- Elements that occurred before and have the class of the last element change nothing. -/
theorem agrees_append_append (hsub : ∀ k ∈ as, k ∈ ks) :
    Agrees cls prev seen (ks ++ (as ++ bs)) ↔
      Agrees cls prev seen (ks ++ bs) ∧ ∀ k ∈ as, lastClass cls prev ks = some (cls k) := by
  have hseen : ∀ k, k ∈ as ++ (ks ++ seen) ↔ k ∈ ks ++ seen := by
    intro k
    simp only [List.mem_append]
    exact ⟨fun h => h.elim (fun hk => .inl (hsub k hk)) id, .inr⟩
  rw [agrees_append, agrees_append, @agrees_append _ _ cls prev seen ks bs,
    agrees_of_subset fun k hk => List.mem_append_left _ (hsub k hk), agrees_congr hseen]
  constructor
  · rintro ⟨hks, has, hbs⟩
    rw [lastClass_of_forall has] at hbs
    exact ⟨⟨hks, hbs⟩, has⟩
  · rintro ⟨⟨hks, hbs⟩, has⟩
    rw [lastClass_of_forall has]
    exact ⟨hks, has, hbs⟩

end Agrees

/-! ## The two ways -/

section Turns

variable [DecidableEq γ]

/-- The first turn has another class than the element before it. -/
private theorem cls_ne_of_turns {c : γ} {ks ks' : List κ} {k : κ}
    (h : turns cls (some c) ks = k :: ks') : cls k ≠ c := by
  induction ks with
  | nil => simp at h
  | cons x xs ih =>
    rw [turns] at h
    split at h
    · exact ih h
    next hne =>
      obtain ⟨rfl, -⟩ := List.cons.inj h
      exact fun heq => hne (by rw [heq])

variable [DecidableEq κ]

/-- The turns are the first occurrences of what was not seen before exactly when the two ways of
dropping elements agree. -/
theorem turns_eq_filter_iff (prev : Option γ) (seen ks : List κ) :
    turns cls prev ks = (ks.filter (· ∉ seen)).eraseDups ↔ Agrees cls prev seen ks := by
  induction ks generalizing prev seen with
  | nil => simp [Agrees]
  | cons k ks ih =>
    have hfilter : (ks.filter (· ∉ k :: seen)) = (ks.filter (· ∉ seen)).filter fun b => !b == k := by
      rw [List.filter_filter]
      refine List.filter_congr fun x _ => ?_
      by_cases hx : x = k <;> simp [hx]
    rw [turns, Agrees]
    by_cases hturn : prev = some (cls k)
    · rw [if_pos hturn, hturn]
      by_cases hseen : k ∈ seen
      · have hmem : ∀ x, x ∈ k :: seen ↔ x ∈ seen := by simp [hseen]
        rw [List.filter_cons_of_neg (by simpa using hseen), ih, agrees_congr hmem]
        simp [hseen]
      · -- the first occurrence is dropped, so the turns go on with another class
        rw [List.filter_cons_of_pos (by simpa using hseen), List.eraseDups_cons]
        simp only [hseen, iff_false, not_true_eq_false, false_and]
        exact fun heq => cls_ne_of_turns cls heq rfl
    · rw [if_neg hturn]
      by_cases hseen : k ∈ seen
      · -- the element is kept again
        rw [List.filter_cons_of_neg (by simpa using hseen)]
        simp only [hturn, hseen, iff_true, false_and, iff_false]
        intro heq
        have hmem : k ∈ (ks.filter (· ∉ seen)).eraseDups := heq ▸ List.mem_cons_self
        simp [hseen] at hmem
      · rw [List.filter_cons_of_pos (by simpa using hseen), List.eraseDups_cons, List.cons.injEq,
          ← hfilter, ih]
        simp [hturn, hseen]

/-- Both ways of dropping elements leave the same. -/
theorem turns_eq_eraseDups_iff (ks : List κ) :
    turns cls none ks = ks.eraseDups ↔ Agrees cls none [] ks := by
  rw [← turns_eq_filter_iff]
  simp

end Turns

/-- The elements of a list one by one: each has the class of the element before it exactly when it
occurred before. -/
theorem agrees_iff (ks : List κ) :
    Agrees cls none [] ks ↔ ∀ pre k post, ks = pre ++ k :: post →
      ((∃ l ∈ pre.getLast?, cls l = cls k) ↔ k ∈ pre) := by
  have hlast : ∀ (pre : List κ) (k : κ), lastClass cls none pre = some (cls k) ↔
      ∃ l ∈ pre.getLast?, cls l = cls k := by
    intro pre k
    cases hget : pre.getLast? with
    | none =>
      rw [List.getLast?_eq_none_iff.mp hget]
      simp
    | some l => simp [lastClass_eq_getLast? hget]
  constructor
  · rintro h pre k post rfl
    obtain ⟨-, hk⟩ := agrees_append.mp h
    rw [Agrees, hlast, List.append_nil] at hk
    exact hk.1
  · intro h
    induction ks using List.reverseRecOn with
    | nil => trivial
    | append_singleton ks k ih =>
      rw [agrees_append]
      refine ⟨ih fun pre x post heq => h pre x (post ++ [k]) (by simp [heq]), ?_⟩
      rw [Agrees, hlast, List.append_nil]
      exact ⟨h ks k [] rfl, trivial⟩

/-- Turns of a list of things, by a class that depends on their keys. -/
theorem map_turns [DecidableEq γ] {α : Type*} (key : α → κ) (prev : Option γ) (xs : List α) :
    (turns (fun x => cls (key x)) prev xs).map key = turns cls prev (xs.map key) := by
  induction xs generalizing prev with
  | nil => rfl
  | cons x xs ih =>
    rw [turns, List.map_cons, turns]
    split
    · exact ih prev
    · rw [List.map_cons, ih]

end Timeline
