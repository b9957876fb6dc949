import Kahuna.Transducer.Basic
import Mathlib.Data.List.Induction
import Mathlib.Order.Lattice

/-!
# Gated grouping

A gate lets some inputs of a stream through, and the inputs that pass are collected into groups of a
given size. A group in progress is handed on as it is when an input is stopped at the gate, and at
the end of the stream. Serial protocols group sampled bits into words this way.

* `Grouping.groups`: the groups of a stream;
* `Grouping.flatten_groups`: the groups are the inputs that pass, in order;
* `Grouping.groups_flatten_append`: the groups of a stream that passes whole;
* `Grouping.eq_of_heads`: nothing but the first member of each group is needed to tell the groups;
* `Grouping.forall_uninterrupted_iff`: when the inputs are times and the gate may open and close at
  any time, no group spans a time at which the gate is closed exactly when the gate stays open
  between neighbouring inputs that pass, except where a group is full.
-/

namespace Grouping

variable {ι : Type*} (size : ℕ) (sel : ι → Bool)

/-- Hand on the group in progress, if there is one. -/
def closing (pending : List ι) : List (List ι) := if pending = [] then [] else [pending]

/-- One input of the stream. -/
def step (pending : List ι) (x : ι) : List (List ι) × List ι :=
  if sel x then
    if pending.length + 1 = size then ([pending ++ [x]], []) else ([], pending ++ [x])
  else (closing pending, [])

/-- The grouping transducer, whose state is the group in progress. -/
def grouping : Transducer ι (List ι) (List ι) := ⟨step size sel⟩

/-- The groups of a stream. -/
def groups (xs : List ι) : List (List ι) :=
  (grouping size sel).emit [] xs ++ closing ((grouping size sel).final [] xs)

/-- How many inputs in a row have passed the gate at the end of the stream. -/
def streak (xs : List ι) : ℕ := (xs.reverse.takeWhile sel).length

/-! ## The group in progress -/

@[simp] theorem streak_nil : streak sel ([] : List ι) = 0 := rfl

theorem streak_concat (xs : List ι) (x : ι) :
    streak sel (xs ++ [x]) = if sel x then streak sel xs + 1 else 0 := by
  rw [streak, List.reverse_append, List.reverse_singleton, List.singleton_append,
    List.takeWhile_cons]
  by_cases h : sel x
  · simp [h, streak]
  · simp [h]

theorem final_concat (xs : List ι) (x : ι) :
    (grouping size sel).final [] (xs ++ [x])
      = (step size sel ((grouping size sel).final [] xs) x).2 := by
  rw [Transducer.final_append]
  rfl

theorem emit_concat (xs : List ι) (x : ι) :
    (grouping size sel).emit [] (xs ++ [x]) = (grouping size sel).emit [] xs
      ++ (step size sel ((grouping size sel).final [] xs) x).1 := by
  rw [Transducer.emit_append, Transducer.emit_cons, Transducer.emit_nil, List.append_nil]
  rfl

/-- What the group in progress is: the last inputs of the stream, as many as have passed in a row
since a group was last full. -/
structure InProgress (pending xs : List ι) : Prop where
  suffix : pending <:+ xs
  length : pending.length = streak sel xs % size
  passed : ∀ x ∈ pending, sel x = true

variable {size} {sel}

theorem inProgress_final (hsize : 0 < size) (xs : List ι) :
    InProgress size sel ((grouping size sel).final [] xs) xs := by
  induction xs using List.reverseRecOn with
  | nil => exact ⟨List.nil_suffix, by simp, by simp⟩
  | append_singleton xs x ih =>
    obtain ⟨hsuffix, hlength, hpassed⟩ := ih
    rw [final_concat, step]
    have hlt : streak sel xs % size < size := Nat.mod_lt _ hsize
    by_cases hx : sel x
    · have hstreak : streak sel (xs ++ [x]) = streak sel xs + 1 := by rw [streak_concat, if_pos hx]
      by_cases hfull : ((grouping size sel).final [] xs).length + 1 = size
      · rw [if_pos hx, if_pos hfull]
        refine ⟨List.nil_suffix, ?_, by simp⟩
        rw [hstreak, ← Nat.mod_add_mod, ← hlength, hfull, Nat.mod_self]
        rfl
      · rw [if_pos hx, if_neg hfull]
        refine ⟨?_, ?_, ?_⟩
        · obtain ⟨before, hbefore⟩ := hsuffix
          refine ⟨before, ?_⟩
          show before ++ ((grouping size sel).final [] xs ++ [x]) = xs ++ [x]
          rw [← List.append_assoc, hbefore]
        · have hmod : (streak sel xs + 1) % size = streak sel xs % size + 1 := by
            rw [← Nat.mod_add_mod, Nat.mod_eq_of_lt (by omega)]
          rw [hstreak, hmod, ← hlength, List.length_append, List.length_singleton]
        · intro y hy
          rcases List.mem_append.mp hy with hy | hy
          · exact hpassed y hy
          · rwa [List.mem_singleton.mp hy]
    · rw [if_neg hx]
      exact ⟨List.nil_suffix, by rw [streak_concat, if_neg hx]; simp, by simp⟩

/-! ## The groups -/

theorem flatten_closing (pending : List ι) : (closing pending).flatten = pending := by
  unfold closing
  split
  · next h => simp [h]
  · simp

/-- The groups are the inputs that pass the gate, in order. -/
theorem flatten_groups (xs : List ι) : (groups size sel xs).flatten = xs.filter sel := by
  rw [groups, List.flatten_append, flatten_closing]
  induction xs using List.reverseRecOn with
  | nil => rfl
  | append_singleton xs x ih =>
    rw [emit_concat, final_concat, List.filter_append, ← ih, List.flatten_append, List.append_assoc,
      List.append_assoc]
    congr 1
    rw [step]
    by_cases hx : sel x
    · by_cases hfull : ((grouping size sel).final [] xs).length + 1 = size
      · simp [hx, hfull]
      · simp [hx, hfull]
    · simp [hx, flatten_closing]

theorem ne_nil_of_mem_closing {pending g : List ι} (h : g ∈ closing pending) : g ≠ [] := by
  unfold closing at h
  split at h
  · simp at h
  · next hne => rwa [List.mem_singleton.mp h]

/-- A group has a member. -/
theorem ne_nil_of_mem_groups {xs g : List ι} (h : g ∈ groups size sel xs) : g ≠ [] := by
  rcases List.mem_append.mp h with h | h
  · refine @Transducer.emit_forall _ _ _ (grouping size sel) (fun _ => True) (fun g => g ≠ [])
      (fun _ _ _ => trivial) ?_ [] trivial xs g h
    intro pending x _ g hg
    simp only [grouping, step] at hg
    split at hg
    · split at hg
      · rw [List.mem_singleton.mp hg]
        simp
      · simp at hg
    · exact ne_nil_of_mem_closing hg
  · exact ne_nil_of_mem_closing h

/-! ## Streams that pass whole -/

/-- Inputs that pass join the group in progress as long as it does not become full. -/
theorem run_of_length_lt {pending xs : List ι} (hsel : ∀ x ∈ xs, sel x = true)
    (hlt : pending.length + xs.length < size) :
    (grouping size sel).emit pending xs = [] ∧
      (grouping size sel).final pending xs = pending ++ xs := by
  induction xs generalizing pending with
  | nil => simp
  | cons x xs ih =>
    rw [List.forall_mem_cons] at hsel
    rw [List.length_cons] at hlt
    have hstep : (grouping size sel).step pending x = ([], pending ++ [x]) := by
      show step size sel pending x = _
      rw [step, if_pos hsel.1, if_neg (by omega)]
    have hlength : (pending ++ [x]).length + xs.length < size := by
      rw [List.length_append, List.length_singleton]
      omega
    obtain ⟨hemit, hfinal⟩ := ih hsel.2 hlength
    rw [Transducer.emit_cons, Transducer.final_cons, hstep, hemit, hfinal]
    simp

/-- A group that passes and is full is handed on at once. -/
theorem groups_append_of_full {g xs : List ι} (hsel : ∀ x ∈ g, sel x = true)
    (hfull : g.length = size) (hsize : 0 < size) :
    groups size sel (g ++ xs) = g :: groups size sel xs := by
  rcases List.eq_nil_or_concat' g with rfl | ⟨init, x, rfl⟩
  · rw [List.length_nil] at hfull
    omega
  rw [List.length_append, List.length_singleton] at hfull
  have hinit : ∀ y ∈ init, sel y = true := fun y hy => hsel y (List.mem_append_left _ hy)
  have hlt : ([] : List ι).length + init.length < size := by
    rw [List.length_nil]
    omega
  obtain ⟨hemit, hfinal⟩ := run_of_length_lt hinit hlt
  have hstep : (grouping size sel).step init x = ([init ++ [x]], []) := by
    show step size sel init x = _
    rw [step, if_pos (hsel x (by simp)), if_pos hfull]
  rw [groups, groups, List.append_assoc, Transducer.emit_append, Transducer.final_append, hemit,
    hfinal, List.nil_append, List.nil_append, List.singleton_append, Transducer.emit_cons,
    Transducer.final_cons, hstep]
  rfl

/-- A stream of groups that pass and are full, and of some more inputs that pass. -/
theorem groups_flatten_append {gs : List (List ι)} {rest : List ι}
    (hsel : ∀ x ∈ gs.flatten ++ rest, sel x = true) (hfull : ∀ g ∈ gs, g.length = size)
    (hrest : rest.length < size) : groups size sel (gs.flatten ++ rest) = gs ++ closing rest := by
  have hsize : 0 < size := Nat.zero_lt_of_lt hrest
  induction gs with
  | nil =>
    rw [List.flatten_nil, List.nil_append] at hsel
    have hlt : ([] : List ι).length + rest.length < size := by rwa [List.length_nil, Nat.zero_add]
    obtain ⟨hemit, hfinal⟩ := run_of_length_lt hsel hlt
    rw [List.flatten_nil, List.nil_append, groups, hemit, hfinal]
    rfl
  | cons g gs ih =>
    rw [List.forall_mem_cons] at hfull
    rw [List.flatten_cons, List.append_assoc] at hsel ⊢
    have hsel' := List.forall_mem_append.1 hsel
    rw [groups_append_of_full hsel'.1 hfull.1 hsize, ih hsel'.2 hfull.2]
    rfl

/-! ## Where a group lies -/

/-- Where a group lies in the stream, and what follows it when it is not full. -/
def LiesIn (size : ℕ) (sel : ι → Bool) (g xs : List ι) : Prop :=
  ∃ before after, xs = before ++ g ++ after ∧
    (g.length < size → ∀ x ∈ after.head?, sel x = false)

theorem liesIn_of_mem_emit (hsize : 0 < size) {xs g : List ι}
    (h : g ∈ (grouping size sel).emit [] xs) : ∃ before after, xs = before ++ g ++ after ∧
      (g.length < size → ∃ x, after.head? = some x ∧ sel x = false) := by
  induction xs using List.reverseRecOn with
  | nil => simp at h
  | append_singleton xs x ih =>
    obtain ⟨before, hbefore⟩ := (inProgress_final hsize xs : InProgress size sel _ xs).suffix
    rw [emit_concat] at h
    rcases List.mem_append.mp h with h | h
    · obtain ⟨before, after, hxs, hshort⟩ := ih h
      refine ⟨before, after ++ [x], by rw [hxs, List.append_assoc], fun hlen => ?_⟩
      obtain ⟨y, hy, hsel⟩ := hshort hlen
      exact ⟨y, by rw [List.head?_append, hy]; rfl, hsel⟩
    · -- the group that `x` fills, or that `x` cuts short
      unfold step at h
      split at h
      · split at h
        · next hfull =>
          rw [List.mem_singleton.mp h]
          refine ⟨before, [], by rw [List.append_nil, ← List.append_assoc, hbefore], fun hlen => ?_⟩
          rw [List.length_append, List.length_singleton] at hlen
          omega
        · simp at h
      · next hx =>
        unfold closing at h
        split at h
        · simp at h
        · rw [List.mem_singleton.mp h]
          exact ⟨before, [x], by rw [hbefore], fun _ => ⟨x, rfl, by simpa using hx⟩⟩

/-- A group is a stretch of the stream, and a group that is not full is followed by an input that is
stopped at the gate, or by nothing. -/
theorem liesIn_of_mem_groups (hsize : 0 < size) {xs g : List ι} (h : g ∈ groups size sel xs) :
    LiesIn size sel g xs := by
  rcases List.mem_append.mp h with h | h
  · obtain ⟨before, after, hxs, hshort⟩ := liesIn_of_mem_emit hsize h
    refine ⟨before, after, hxs, fun hlen x hx => ?_⟩
    obtain ⟨y, hy, hsel⟩ := hshort hlen
    rw [hy] at hx
    rwa [← Option.some.inj hx]
  · obtain ⟨before, hbefore⟩ := (inProgress_final hsize xs : InProgress size sel _ xs).suffix
    unfold closing at h
    split at h
    · simp at h
    · rw [List.mem_singleton.mp h]
      exact ⟨before, [], by rw [List.append_nil, hbefore], by simp⟩

/-- A prefix that ends before a member that it does not contain is determined by that member. -/
theorem eq_of_append_cons_eq {xs ys xs' ys' : List ι} {y : ι} (hy : y ∉ xs) (hy' : y ∉ xs')
    (h : xs ++ y :: ys = xs' ++ y :: ys') : xs = xs' := by
  classical
  have hidx : ∀ zs ws : List ι, y ∉ zs → (zs ++ y :: ws).idxOf y = zs.length := by
    intro zs ws hzs
    rw [List.idxOf_append_of_notMem hzs, List.idxOf_cons_self, Nat.add_zero]
  have hlen : xs.length = xs'.length := by
    rw [← hidx xs ys hy, ← hidx xs' ys' hy', h]
  exact (List.append_inj h hlen).1

/-- Two ways to cut a list of different members into groups are the same when they cut at the same
members. -/
theorem eq_of_heads {gs gs' : List (List ι)} (hflat : gs.flatten = gs'.flatten)
    (hnodup : gs.flatten.Nodup) (hne : ∀ g ∈ gs, g ≠ [])
    (hheads : gs.map List.head? = gs'.map List.head?) : gs = gs' := by
  induction gs generalizing gs' with
  | nil => simpa using hheads.symm
  | cons g gs ih =>
    obtain ⟨g', gs', rfl⟩ : ∃ g' tail, gs' = g' :: tail := by
      cases gs' with
      | nil => simp at hheads
      | cons g' tail => exact ⟨g', tail, rfl⟩
    simp only [List.map_cons, List.cons.injEq] at hheads
    rw [List.flatten_cons, List.flatten_cons] at hflat
    rw [List.flatten_cons] at hnodup
    have hgs : ∀ h ∈ gs, h ≠ [] := fun h hh => hne h (List.mem_cons_of_mem _ hh)
    suffices hg : g = g' by
      subst hg
      rw [ih (List.append_cancel_left hflat) (List.nodup_append.mp hnodup).2.1 hgs hheads.2]
    -- the second group starts at the same member in both, and the first group ends before it
    cases gs with
    | nil =>
      have hgs' : gs' = [] := by simpa using hheads.2.symm
      simpa [hgs'] using hflat
    | cons k ks =>
      obtain ⟨k', ks', rfl⟩ : ∃ k' tail, gs' = k' :: tail := by
        cases gs' with
        | nil => simp at hheads
        | cons k' tail => exact ⟨k', tail, rfl⟩
      obtain ⟨y, k, rfl⟩ := List.exists_cons_of_ne_nil (hgs k List.mem_cons_self)
      obtain ⟨k', rfl⟩ : ∃ tail, k' = y :: tail := by
        cases k' with
        | nil => simp at hheads
        | cons z tail =>
          simp only [List.map_cons, List.head?_cons, List.cons.injEq, Option.some.injEq] at hheads
          exact ⟨tail, by rw [hheads.2.1]⟩
      have hnotin : ∀ {zs ws : List ι}, (zs ++ y :: ws).Nodup → y ∉ zs := by
        intro zs ws h hy
        exact (List.nodup_append.mp h).2.2 y hy y List.mem_cons_self rfl
      rw [List.flatten_cons, List.flatten_cons, List.cons_append, List.cons_append] at hflat
      rw [List.flatten_cons, List.cons_append] at hnodup
      exact eq_of_append_cons_eq (hnotin hnodup) (hnotin (hflat ▸ hnodup)) hflat

/-! ## Uninterrupted groups -/

section Order

variable {τ : Type*} [LinearOrder τ] {size : ℕ} {sel : τ → Bool}

/-- The gate is open from the first time of the group to the last. -/
def Uninterrupted (sel : τ → Bool) (group : List τ) : Prop :=
  ∀ a ∈ group.head?, ∀ b ∈ group.getLast?, ∀ u, a ≤ u → u ≤ b → sel u = true

/-- The gate is open between two times. -/
def OpenBetween (sel : τ → Bool) (a b : τ) : Prop := ∀ u, a < u → u < b → sel u = true

/-- The gate stays open between neighbouring times that pass, except where a group is full. -/
def OpenInGroups (size : ℕ) (sel : τ → Bool) (times : List τ) : Prop :=
  ∀ before a b after, times = before ++ a :: b :: after → sel a = true → sel b = true →
    streak sel (before ++ [a]) % size ≠ 0 → OpenBetween sel a b

@[simp] theorem uninterrupted_nil : Uninterrupted sel ([] : List τ) := by simp [Uninterrupted]

/-- A group with one more time. -/
theorem uninterrupted_concat {pending : List τ} {x : τ} (hx : sel x = true)
    (hsorted : (pending ++ [x]).Pairwise (· < ·)) :
    Uninterrupted sel (pending ++ [x]) ↔
      Uninterrupted sel pending ∧ ∀ b ∈ pending.getLast?, OpenBetween sel b x := by
  rcases List.eq_nil_or_concat' pending with rfl | ⟨init, b, rfl⟩
  · constructor
    · intro _
      simp
    · intro _ a ha c hc u hau huc
      obtain rfl : x = a := by simpa using ha
      obtain rfl : x = c := by simpa using hc
      rwa [le_antisymm huc hau]
  · obtain ⟨a, ha⟩ : ∃ a, (init ++ [b]).head? = some a := by
      cases init <;> simp
    have hhead : (init ++ [b] ++ [x]).head? = some a := by rw [List.head?_append, ha, Option.some_or]
    have hbx : b < x := by
      have := (List.pairwise_append.mp hsorted).2.2 b (by simp) x (by simp)
      exact this
    have hab : a ≤ b := by
      have hmem := List.mem_of_mem_head? ha
      rcases List.mem_append.mp hmem with hmem | hmem
      · have hpair := (List.pairwise_append.mp (List.pairwise_append.mp hsorted).1).2.2
        exact (hpair a hmem b (by simp)).le
      · exact (List.mem_singleton.mp hmem).le
    simp only [Uninterrupted, hhead, ha, Option.mem_some_iff, forall_eq',
      List.getLast?_append, List.getLast?_singleton, Option.some_or]
    constructor
    · intro h
      exact ⟨fun u hau hub => h u hau (hub.trans hbx.le),
        fun u hbu hux => h u (hab.trans hbu.le) hux.le⟩
    · rintro ⟨hpending, hgap⟩ u hau hux
      rcases le_or_gt u b with hub | hbu
      · exact hpending u hau hub
      · rcases hux.lt_or_eq with hux | rfl
        · exact hgap u hbu hux
        · exact hx

/-- The condition at the end of a longer stream. -/
theorem openInGroups_concat {times : List τ} {x : τ} :
    OpenInGroups size sel (times ++ [x]) ↔ OpenInGroups size sel times ∧
      ∀ before a, times = before ++ [a] → sel a = true → sel x = true →
        streak sel times % size ≠ 0 → OpenBetween sel a x := by
  constructor
  · intro h
    refine ⟨?_, ?_⟩
    · intro before a b after htimes
      exact h before a b (after ++ [x]) (by simp [htimes])
    · rintro before a rfl ha hx hstreak
      exact h before a x [] (by simp) ha hx hstreak
  · rintro ⟨h, hlast⟩ before a b after htimes ha hb hstreak
    rcases List.eq_nil_or_concat' after with rfl | ⟨init, y, rfl⟩
    · have hsplit : times ++ [x] = (before ++ [a]) ++ [b] := by simpa using htimes
      obtain ⟨rfl, hxb⟩ := List.append_inj' hsplit rfl
      obtain rfl : x = b := by simpa using hxb
      exact hlast before a rfl ha hb hstreak
    · have hsplit : times ++ [x] = (before ++ a :: b :: init) ++ [y] := by simpa using htimes
      obtain ⟨rfl, -⟩ := List.append_inj' hsplit rfl
      exact h before a b init rfl ha hb hstreak

/-- No group is interrupted exactly when the gate stays open between neighbouring times of a
group. -/
theorem forall_uninterrupted_iff (hsize : 0 < size) {times : List τ}
    (hsorted : times.Pairwise (· < ·)) :
    (∀ g ∈ groups size sel times, Uninterrupted sel g) ↔ OpenInGroups size sel times := by
  have hclosing : ∀ pending : List τ,
      (∀ g ∈ closing pending, Uninterrupted sel g) ↔ Uninterrupted sel pending := by
    intro pending
    unfold closing
    by_cases h : pending = []
    · simp [h]
    · simp [h]
  rw [groups, List.forall_mem_append, hclosing]
  induction times using List.reverseRecOn with
  | nil => simp [OpenInGroups]
  | append_singleton times x ih =>
    have hprogress : InProgress size sel _ times := inProgress_final hsize times
    have ih := propext (ih (List.pairwise_append.mp hsorted).1)
    rw [openInGroups_concat, ← ih, emit_concat, final_concat, step, List.forall_mem_append]
    by_cases hx : sel x
    case neg => simp [hx, hclosing]
    rw [if_pos hx]
    obtain ⟨hsuffix, hlength, hpassed⟩ := hprogress
    set pending := (grouping size sel).final [] times with hpending
    have hgroup : Uninterrupted sel (pending ++ [x]) ↔
        Uninterrupted sel pending ∧ ∀ b ∈ pending.getLast?, OpenBetween sel b x := by
      apply uninterrupted_concat hx
      obtain ⟨before, hbefore⟩ := hsuffix
      rw [← hbefore, List.append_assoc] at hsorted
      exact (List.pairwise_append.mp hsorted).2.1
    -- the group in progress ends where the stream so far ends
    have hgap : (∀ b ∈ pending.getLast?, OpenBetween sel b x) ↔
        ∀ before a, times = before ++ [a] → sel a = true → sel x = true →
          streak sel times % size ≠ 0 → OpenBetween sel a x := by
      constructor
      · rintro h before a rfl _ _ hstreak
        obtain ⟨init, hinit⟩ := hsuffix
        rcases List.eq_nil_or_concat' pending with hnil | ⟨tail, b, hb⟩
        · rw [hnil, List.length_nil] at hlength
          exact absurd hlength.symm hstreak
        · have hsplit : (init ++ tail) ++ [b] = before ++ [a] := by
            rw [List.append_assoc, ← hb, hinit]
          obtain ⟨-, hba⟩ := List.append_inj' hsplit rfl
          obtain rfl : b = a := by simpa using hba
          exact h b (by simp [hb])
      · intro h b hb
        obtain ⟨tail, htail⟩ := List.getLast?_eq_some_iff.mp hb
        obtain ⟨init, hinit⟩ := hsuffix
        refine h (init ++ tail) b ?_ (hpassed b (List.mem_of_getLast? hb)) hx ?_
        · rw [List.append_assoc, ← htail, hinit]
        · rw [← hlength, htail]
          simp
    by_cases hfull : pending.length + 1 = size
    · simp only [hfull, if_true, List.mem_singleton, forall_eq, uninterrupted_nil, and_true, hgroup,
        hgap]
      exact and_assoc.symm
    · simp only [hfull, if_false, hgroup, hgap]
      simp
      exact and_assoc.symm

end Order

end Grouping
