import Kahuna.Transition.Basic
import Mathlib.Data.List.Forall2
import Mathlib.Order.RelClasses

/-!
# Computations that ask a state

A computation that is given a state and returns it with its result may change the state in a way that shows
in no answer. It then gives the results of a computation that only reads.

- `Asks`: the computation gives the results of one that reads, and leaves the state alike.
- `Asks.bind`, `Asks.readAll`: a sequence of such computations, and one for each element of a list.
-/

namespace Asking

variable {σ α β ε : Type} {like : σ → σ → Prop} {s s' : σ}

/-- `m` gives what `x` gives, and leaves the state `s` alike. -/
structure Asks (like : σ → σ → Prop) (s : σ) (x : Except ε α) (m : Except ε (α × σ)) : Prop where
  answer : Prod.fst <$> m = x
  kept : ∀ {a s'}, m = .ok (a, s') → like s s'

namespace Asks

variable {x : Except ε α} {m : Except ε (α × σ)}

theorem pure [Std.Refl like] (a : α) : Asks (ε := ε) like s (.ok a) (.ok (a, s)) where
  answer := rfl
  kept h := by
    cases h
    exact Std.Refl.refl s

/-- A computation that asks, and another one for its result. -/
theorem bind [IsTrans σ like] {f : α → Except ε β} {g : α × σ → Except ε (β × σ)} (h : Asks like s x m)
    (hnext : ∀ a s', m = .ok (a, s') → like s s' → Asks like s' (f a) (g (a, s'))) :
    Asks like s (x >>= f) (m >>= g) := by
  obtain ⟨rfl, hkept⟩ := h
  match m with
  | .error e => exact ⟨rfl, fun h => nomatch h⟩
  | .ok (a, s') =>
    have hlike : like s s' := hkept rfl
    have hask := hnext a s' rfl hlike
    exact ⟨hask.answer, fun h => IsTrans.trans _ _ _ hlike (hask.kept h)⟩

/-- A result that is changed afterwards. -/
theorem map (f : α → β) (h : Asks like s x m) :
    Asks like s (f <$> x) ((fun p : α × σ => (f p.1, p.2)) <$> m) := by
  obtain ⟨rfl, hkept⟩ := h
  match m with
  | .error e => exact ⟨rfl, fun h => nomatch h⟩
  | .ok (a, s') =>
    refine ⟨rfl, fun h => ?_⟩
    cases h
    exact hkept rfl

/-- A computation asks a state as it asks one that is alike, if it reads the same there. -/
theorem congr {x' : Except ε α} (h : Asks like s x m) (hx : x = x') : Asks like s x' m := hx ▸ h

/-- A state that is alike may be asked instead. -/
theorem of_like [IsTrans σ like] (hs : like s s') (h : Asks like s' x m) : Asks like s x m where
  answer := h.answer
  kept hm := IsTrans.trans _ _ _ hs (h.kept hm)

end Asks

/-- Ask for each element of a list, and keep the results there are. -/
def readAll (f : σ → β → Except ε (Option α × σ)) : List β → σ → Except ε (List α × σ)
  | [], s => .ok ([], s)
  | b :: rest, s => do
    let (a, s) ← f s b
    let (as, s) ← readAll f rest s
    return (a.toList ++ as, s)

/-- The results there are, of a reading for each element. -/
def answers (f : β → Except ε (Option α)) (l : List β) : Except ε (List α) :=
  List.reduceOption <$> l.mapM f

theorem answers_cons (f : β → Except ε (Option α)) (b : β) (l : List β) :
    answers f (b :: l) = (do
      let a ← f b
      let as ← answers f l
      return a.toList ++ as) := by
  unfold answers
  rw [List.mapM_cons]
  match f b, l.mapM f with
  | .error _, _ => rfl
  | .ok _, .error _ => rfl
  | .ok none, .ok _ => rfl
  | .ok (some _), .ok _ => rfl

/-- The results may be changed one by one, or all together. -/
theorem answers_map {γ : Type} (g : α → γ) (f : β → Except ε (Option α)) (l : List β) :
    answers (fun b => Option.map g <$> f b) l = List.map g <$> answers f l := by
  induction l with
  | nil => rfl
  | cons b rest ih =>
    rw [answers_cons, answers_cons, ih]
    match f b, answers f rest with
    | .error _, _ => rfl
    | .ok _, .error _ => rfl
    | .ok none, .ok _ => rfl
    | .ok (some _), .ok _ => rfl

/-- Elements without a result may be left out. -/
theorem answers_filter {f : β → Except ε (Option α)} (p : β → Bool) (hp : ∀ b, p b = false → f b = .ok none)
    (l : List β) : answers f (l.filter p) = answers f l := by
  induction l with
  | nil => rfl
  | cons b rest ih =>
    rw [List.filter_cons, answers_cons]
    cases hb : p b with
    | true => rw [if_pos rfl, answers_cons, ih]
    | false =>
      rw [if_neg (by simp), ih, hp b hb]
      match answers f rest with
      | .error _ => rfl
      | .ok _ => rfl

/-- Where every element has a result, the results are those of the elements one by one. -/
theorem answers_eq_ok_iff {f : β → Except ε (Option α)} {l : List β} (hf : ∀ b ∈ l, f b ≠ .ok none)
    {as : List α} : answers f l = .ok as ↔ List.Forall₂ (fun b a => f b = .ok (some a)) l as := by
  induction l generalizing as with
  | nil =>
    rw [List.forall₂_nil_left_iff]
    exact ⟨fun h => (Except.ok.inj h).symm, fun h => h ▸ rfl⟩
  | cons b rest ih =>
    rw [List.forall_mem_cons] at hf
    rw [answers_cons]
    constructor
    · intro h
      obtain ⟨a, ha, h⟩ := Except.bind_eq_ok.1 h
      obtain ⟨as', has', h⟩ := Except.bind_eq_ok.1 h
      match a with
      | none => exact absurd ha hf.1
      | some a =>
        obtain rfl : a :: as' = as := Except.ok.inj h
        exact .cons ha ((ih hf.2).1 has')
    · rintro (- | ⟨ha, hrest⟩)
      rw [ha, (ih hf.2).2 hrest]
      rfl

/-- Lists that are related one element after the other, over a list between them. -/
theorem forall₂_comp {γ : Type} {R : α → β → Prop} {S : β → γ → Prop} {T : α → γ → Prop} {as : List α}
    {bs : List β} {cs : List γ} (h : List.Forall₂ R as bs) (h' : List.Forall₂ S bs cs)
    (hT : ∀ a b c, R a b → S b c → T a c) : List.Forall₂ T as cs := by
  induction h generalizing cs with
  | nil =>
    cases h'
    exact .nil
  | cons hab _ ih =>
    cases h' with
    | cons hbc hrest => exact .cons (hT _ _ _ hab hbc) (ih hrest)

/-- Asking for each element gives what reading gives, where each element is read alike. -/
theorem Asks.readAll [Std.Refl like] [IsTrans σ like] {f : σ → β → Except ε (Option α × σ)}
    {read : σ → β → Except ε (Option α)} (hf : ∀ s b, Asks like s (read s b) (f s b))
    (hread : ∀ {s s'}, like s s' → read s' = read s) (l : List β) (s : σ) :
    Asks like s (answers (read s) l) (Asking.readAll f l s) := by
  induction l generalizing s with
  | nil => exact Asks.pure []
  | cons b rest ih =>
    rw [answers_cons]
    refine (hf s b).bind fun a s₁ _ hs₁ => ?_
    refine Asks.bind ((ih s₁).congr (by rw [hread hs₁])) fun as s₂ _ _ => ?_
    exact Asks.pure _

end Asking
