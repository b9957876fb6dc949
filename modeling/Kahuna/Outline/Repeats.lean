import Kahuna.Outline.Gathering
import Kahuna.Timeline.Turns

/-!
# Collecting what chosen members contribute

Each chosen member of an outline contributes a value, its own or those of all members below it. What is
below two chosen members is contributed twice. The first contribution of each member is in the order of
the list (`marked`); this file says what the repeated ones do to a list from which neighbours of one
class are dropped.
-/

namespace Outline

open Timeline

variable {α β γ : Type*} (level : α → ℕ) (chosen whole : α → Bool) (val : α → Option β)

/-- The members below the one in front of a list. -/
def under (x : α) (rest : List α) : List α := rest.takeWhile (level x < level ·)

/-- What a member in front of a list contributes: its own value, or those of all members below it. -/
def contribution (x : α) (rest : List α) : List β :=
  if whole x then (under level x rest).filterMap val else (val x).toList

/-- The contributions of the chosen members, one after the other. -/
def collect : List α → List β
  | [] => []
  | x :: rest => (if chosen x then contribution level whole val x rest else []) ++ collect rest

/-- The values of the members that are chosen or below a chosen one that contributes all of them. -/
def markedFrom (opened xs : List α) : List β :=
  (xs.zip (pathsFrom level opened xs)).filterMap fun m =>
    if chosen m.1 || m.2.any (fun y => chosen y && whole y) then val m.1 else none

/-- What is contributed again, below a chosen member that has contributed it, has the class of the last
value below that member. -/
def RepeatsApart (cls : β → γ) (xs : List α) : Prop :=
  ∀ g rest, (g :: rest) <:+ xs → chosen g → whole g →
    ∀ s rest', (s :: rest') <:+ under level g rest → chosen s →
      ∀ r ∈ contribution level whole val s rest', ∀ l ∈ ((under level g rest).filterMap val).getLast?,
        cls l = cls r

section Collect

variable {level chosen whole val} {x : α} {xs ys sub rest : List α} {r : β}

/-- What is below a member is still so when more comes behind it that is not below another one. -/
theorem Below.append {y : α} {inner outer : List α} (h : Below level y inner outer)
    (hrest : Below level x sub rest) (hy : y ∈ sub) : Below level y inner (outer ++ rest) := by
  refine ⟨h.deeper, fun z hz => ?_⟩
  cases outer with
  | nil => exact (hrest.behind z hz).trans (hrest.deeper y hy).le
  | cons w outer => exact h.behind z hz

theorem under_eq (h : Below level x sub rest) : under level x (sub ++ rest) = sub := by
  have hrest : rest.takeWhile (level x < level ·) = [] := by
    cases rest with
    | nil => rfl
    | cons y rest =>
      have := h.behind y rfl
      exact List.takeWhile_cons_of_neg (by simpa using this)
  rw [under, List.takeWhile_append_of_pos fun y hy => by simpa using h.deeper y hy, hrest,
    List.append_nil]

/-- A longer list behind a member adds to what it contributes. -/
theorem contribution_subset (hr : r ∈ contribution level whole val x xs) :
    r ∈ contribution level whole val x (xs ++ ys) := by
  have hleading : under level x xs <+: under level x (xs ++ ys) := by
    rw [under, under, List.takeWhile_append]
    split
    next hall =>
      rw [List.IsPrefix.eq_of_length (List.takeWhile_prefix _) hall]
      exact List.prefix_append _ _
    · exact List.prefix_refl _
  rw [contribution] at hr ⊢
  split at hr
  next hwhole =>
    rw [if_pos hwhole]
    exact (hleading.filterMap val).subset hr
  next hwhole => rwa [if_neg hwhole]

/-- What is collected is contributed by a chosen member. -/
theorem mem_collect : r ∈ collect level chosen whole val xs ↔
    ∃ s rest, (s :: rest) <:+ xs ∧ chosen s ∧ r ∈ contribution level whole val s rest := by
  induction xs with
  | nil => simp [collect]
  | cons x xs ih =>
    rw [collect, List.mem_append, ih]
    constructor
    · rintro (hown | ⟨s, rest, hsuffix, hs, hr⟩)
      · split at hown
        next hx => exact ⟨x, xs, List.suffix_refl _, hx, hown⟩
        next => simp at hown
      · exact ⟨s, rest, hsuffix.trans (List.suffix_cons x xs), hs, hr⟩
    · rintro ⟨s, rest, hsuffix, hs, hr⟩
      rcases List.suffix_cons_iff.1 hsuffix with heq | hrest
      · obtain ⟨rfl, rfl⟩ := List.cons.inj heq
        exact .inl (by rwa [if_pos hs])
      · exact .inr ⟨s, rest, hrest, hs, hr⟩

/-- What is collected is the value of a member. -/
theorem mem_filterMap_of_mem_collect (hr : r ∈ collect level chosen whole val xs) :
    r ∈ xs.filterMap val := by
  obtain ⟨s, rest, hsuffix, -, hown⟩ := mem_collect.1 hr
  rw [contribution] at hown
  split at hown
  · obtain ⟨y, hy, hval⟩ := List.mem_filterMap.1 hown
    have hrest : y ∈ rest := (List.takeWhile_prefix _).subset hy
    exact List.mem_filterMap.2 ⟨y, hsuffix.subset (List.mem_cons_of_mem _ hrest), hval⟩
  · exact List.mem_filterMap.2 ⟨s, hsuffix.subset List.mem_cons_self, Option.mem_toList.1 hown⟩

/-- What is below a member contributes the same whatever comes behind it. -/
theorem collect_append (h : Below level x sub rest) : collect level chosen whole val (sub ++ rest) =
    collect level chosen whole val sub ++ collect level chosen whole val rest := by
  induction sub with
  | nil => rfl
  | cons y sub ih =>
    have hsub := (List.forall_mem_cons.1 h.deeper).2
    obtain ⟨subsub, subrest, rfl, hbelow⟩ := exists_below level y sub
    have hbelow' := hbelow.append h List.mem_cons_self
    have hown : contribution level whole val y (subsub ++ subrest ++ rest) =
        contribution level whole val y (subsub ++ subrest) := by
      rw [contribution, contribution, List.append_assoc, under_eq hbelow', under_eq hbelow]
    rw [List.cons_append, collect, collect, hown, ih ⟨hsub, h.behind⟩, List.append_assoc]

/-- A member that contributes its own value at most. -/
theorem collect_cons (hx : ¬ (chosen x ∧ whole x)) : collect level chosen whole val (x :: xs) =
    (if chosen x then (val x).toList else []) ++ collect level chosen whole val xs := by
  rw [collect]
  split
  next hchosen => rw [contribution, if_neg fun hwhole => hx ⟨hchosen, hwhole⟩]
  next => rfl

/-- A member that contributes all values below it. -/
theorem collect_subtree (hx : chosen x ∧ whole x) (h : Below level x sub rest) :
    collect level chosen whole val (x :: (sub ++ rest)) = sub.filterMap val ++
      (collect level chosen whole val sub ++ collect level chosen whole val rest) := by
  rw [collect, if_pos hx.1, contribution, if_pos hx.2, under_eq h, collect_append h]

end Collect

/-! ## The values in order -/

section Marked

variable {level chosen whole val} {x : α} {opened xs sub rest : List α}

/-- A member below none that contributes all values. -/
theorem markedFrom_cons (hopened : ∀ y ∈ opened, (chosen y && whole y) = false) :
    markedFrom level chosen whole val opened (x :: xs) =
      (if chosen x then (val x).toList else []) ++
        markedFrom level chosen whole val (x :: opened.filter (level · < level x)) xs := by
  have hpath : (opened.filter (level · < level x)).any (fun y => chosen y && whole y) = false := by
    rw [List.any_eq_false]
    exact fun y hy => by simpa using hopened y (List.mem_of_mem_filter hy)
  rw [markedFrom, pathsFrom, List.zip_cons_cons, List.filterMap_cons]
  simp only [hpath, Bool.or_false]
  split
  next hnone =>
    split at hnone
    next hchosen => simp [hchosen, hnone, markedFrom]
    next hchosen => simp [hchosen, markedFrom]
  next v hsome =>
    split at hsome
    next hchosen => simp [hchosen, hsome, markedFrom]
    next => cases hsome

/-- A member that contributes all values below it, and has none itself. -/
theorem markedFrom_subtree (hx : chosen x && whole x) (hval : val x = none)
    (h : Below level x sub rest) : markedFrom level chosen whole val opened (x :: (sub ++ rest)) =
      sub.filterMap val ++ markedFrom level chosen whole val opened rest := by
  -- the member is an ancestor of everything below it
  have hsub : ∀ m ∈ sub.zip ((paths level sub).map (· ++ [x] ++ opened.filter (level · < level x))),
      m.2.any (fun y => chosen y && whole y) := by
    rintro ⟨y, path⟩ hm
    obtain ⟨inner, -, rfl⟩ := List.mem_map.1 (List.of_mem_zip hm).2
    rw [List.any_eq_true]
    exact ⟨x, by simp, hx⟩
  rw [markedFrom, pathsFrom_subtree h, ← List.cons_append, List.zip_append (by simp),
    List.filterMap_append, pathsFrom_under h.deeper, paths_under h.deeper]
  congr 1
  rw [List.map_cons, List.zip_cons_cons, List.filterMap_cons, hval, ite_self, List.map_map]
  have hlen : sub.length = ((paths level sub).map
      (· ++ [x] ++ opened.filter (level · < level x))).length := by simp [paths]
  calc _ = (sub.zip ((paths level sub).map
        (· ++ [x] ++ opened.filter (level · < level x)))).filterMap fun m => val m.1 := by
        refine List.filterMap_congr fun m hm => ?_
        rw [hsub m hm, Bool.or_true, if_pos rfl]
    _ = ((sub.zip ((paths level sub).map
        (· ++ [x] ++ opened.filter (level · < level x)))).map Prod.fst).filterMap val := by
        rw [List.filterMap_map]
        rfl
    _ = sub.filterMap val := by rw [List.map_fst_zip hlen.le]

end Marked

/-! ## What is contributed again -/

section Repeats

variable {level chosen whole val} {cls : β → γ} {x : α} {xs sub rest : List α}

theorem repeatsApart_cons (hx : ¬ (chosen x ∧ whole x)) :
    RepeatsApart level chosen whole val cls (x :: xs) ↔
      RepeatsApart level chosen whole val cls xs := by
  constructor
  · exact fun h g rest hsuffix => h g rest (hsuffix.trans (List.suffix_cons x xs))
  · intro h g rest hsuffix hg hwhole
    rcases List.suffix_cons_iff.1 hsuffix with heq | htail
    · obtain ⟨rfl, rfl⟩ := List.cons.inj heq
      exact absurd ⟨hg, hwhole⟩ hx
    · exact h g rest htail hg hwhole

/-- What the outermost of the members contributes decides for those below it. -/
theorem repeatsApart_subtree (hx : chosen x) (hwhole : whole x) (h : Below level x sub rest) :
    RepeatsApart level chosen whole val cls (x :: (sub ++ rest)) ↔
      (∀ r ∈ collect level chosen whole val sub, ∀ l ∈ (sub.filterMap val).getLast?, cls l = cls r) ∧
        RepeatsApart level chosen whole val cls rest := by
  constructor
  · intro hall
    refine ⟨fun r hr l hl => ?_, fun g rest' hsuffix => hall g rest' ?_⟩
    · obtain ⟨s, rest', hsuffix, hs, hown⟩ := mem_collect.1 hr
      refine hall x (sub ++ rest) (List.suffix_refl _) hx hwhole s rest' ?_ hs r hown l ?_
      · rwa [under_eq h]
      · rwa [under_eq h]
    · exact hsuffix.trans ((List.suffix_append sub rest).trans (List.suffix_cons x _))
  · rintro ⟨hsub, hrest⟩ g tail hsuffix hg hgwhole s rest' hs hschosen r hr l hl
    rcases List.suffix_cons_iff.1 hsuffix with heq | htail
    · obtain ⟨rfl, rfl⟩ := List.cons.inj heq
      rw [under_eq h] at hs hl
      exact hsub r (mem_collect.2 ⟨s, rest', hs, hschosen, hr⟩) l hl
    · obtain ⟨pre, hpre⟩ := htail
      rcases List.append_eq_append_iff.1 hpre with ⟨front, hfront, htail⟩ | ⟨c, -, hc⟩
      · match front, htail with
        | [], htail =>
          exact hrest g tail (htail ▸ List.suffix_refl _) hg hgwhole s rest' hs hschosen r hr l hl
        | y :: front, htail =>
          -- the member is below the outermost one, and so is all that it contributes
          obtain ⟨rfl, rfl⟩ : g = y ∧ tail = front ++ rest := List.cons.inj htail
          have hg' : (g :: front) <:+ sub := ⟨pre, hfront.symm⟩
          obtain ⟨inner, outer, rfl, hbelow⟩ := exists_below level g front
          have hunder : under level g (inner ++ outer ++ rest) = inner := by
            rw [List.append_assoc, under_eq (hbelow.append h (hg'.subset List.mem_cons_self))]
          rw [hunder] at hs hl
          have hr' : r ∈ collect level chosen whole val sub := by
            obtain ⟨above, habove⟩ := hs
            refine mem_collect.2 ⟨s, rest' ++ outer, ?_, hschosen, contribution_subset hr⟩
            refine List.IsSuffix.trans ⟨g :: above, ?_⟩ hg'
            rw [← habove]
            simp
          have hl' : l ∈ collect level chosen whole val sub := by
            refine mem_collect.2 ⟨g, inner ++ outer, hg', hg, ?_⟩
            rw [contribution, if_pos hgwhole, under_eq hbelow]
            exact List.mem_of_getLast? hl
          obtain ⟨last, hlast⟩ : ∃ last, (sub.filterMap val).getLast? = some last := by
            rw [← Option.isSome_iff_exists, List.getLast?_isSome]
            exact List.ne_nil_of_mem (mem_filterMap_of_mem_collect hl')
          exact (hsub l hl' last hlast).symm.trans (hsub r hr' last hlast)
      · exact hrest g tail ⟨c, hc.symm⟩ hg hgwhole s rest' hs hschosen r hr l hl

/-- The collected values and those in order: the same is left of both exactly when what is contributed
again does not show. -/
theorem agrees_collect (hval : ∀ x, whole x → val x = none) {opened : List α}
    (hopened : ∀ y ∈ opened, (chosen y && whole y) = false) (prev : Option γ) (seen : List β) :
    Agrees cls prev seen (collect level chosen whole val xs) ↔
      Agrees cls prev seen (markedFrom level chosen whole val opened xs) ∧
        RepeatsApart level chosen whole val cls xs := by
  induction hlen : xs.length using Nat.strong_induction_on generalizing opened prev seen xs with
  | h n ih =>
    match xs with
    | [] =>
      have hnone : RepeatsApart level chosen whole val cls ([] : List α) := by
        intro g rest hsuffix
        simp at hsuffix
      simp [collect, markedFrom, Agrees, hnone]
    | x :: xs =>
      rw [List.length_cons] at hlen
      by_cases hx : chosen x ∧ whole x
      · -- all values below the member come first, then those that are contributed again
        obtain ⟨sub, rest, rfl, hbelow⟩ := exists_below level x xs
        rw [List.length_append] at hlen
        rw [collect_subtree hx hbelow, agrees_append_append fun r hr => mem_filterMap_of_mem_collect hr,
          markedFrom_subtree (by simp [hx]) (hval x hx.2) hbelow, repeatsApart_subtree hx.1 hx.2 hbelow,
          agrees_append, agrees_append, ih rest.length (by omega) hopened _ _ rfl]
        have hlast : (∀ r ∈ collect level chosen whole val sub,
            lastClass cls prev (sub.filterMap val) = some (cls r)) ↔
            ∀ r ∈ collect level chosen whole val sub, ∀ l ∈ (sub.filterMap val).getLast?,
              cls l = cls r := by
          refine forall₂_congr fun r hr => ?_
          cases hget : (sub.filterMap val).getLast? with
          | none =>
            have hmem := mem_filterMap_of_mem_collect hr
            rw [List.getLast?_eq_none_iff.1 hget] at hmem
            simp at hmem
          | some l => simp [lastClass_eq_getLast? hget]
        rw [hlast]
        tauto
      · have hopened' : ∀ y ∈ x :: opened.filter (level · < level x), (chosen y && whole y) = false :=
          List.forall_mem_cons.2 ⟨by simpa using hx, fun y hy => hopened y (List.mem_of_mem_filter hy)⟩
        rw [collect_cons hx, markedFrom_cons hopened, repeatsApart_cons hx, agrees_append, agrees_append,
          ih xs.length (by omega) hopened' _ _ rfl, and_assoc]

end Repeats

/-! ## First contributions -/

section Firsts

variable {level chosen whole val} {xs : List α} [DecidableEq β]

/-- Lists with the same front have the same first occurrences when what follows does. -/
private theorem eraseDups_append_congr {as bs cs : List β} (h : ∀ p : β → Bool,
    (bs.filter p).eraseDups = (cs.filter p).eraseDups) : (as ++ bs).eraseDups = (as ++ cs).eraseDups := by
  rw [List.eraseDups_append, List.eraseDups_append, List.removeAll, List.removeAll, h]

/-- What occurred before is no first occurrence. -/
private theorem eraseDups_append_again {as bs cs : List β} (h : ∀ r ∈ bs, r ∈ as) :
    (as ++ (bs ++ cs)).eraseDups = (as ++ cs).eraseDups := by
  have hnone : bs.removeAll as = [] := by
    rw [List.removeAll, List.filter_eq_nil_iff]
    exact fun r hr => by simpa using h r hr
  rw [List.eraseDups_append, @List.eraseDups_append _ _ _ as cs, List.removeAll, List.filter_append,
    ← List.removeAll, hnone, List.nil_append, List.removeAll]

/-- The first contributions are in the order of the members. -/
theorem eraseDups_collect (hval : ∀ x, whole x → val x = none) {opened : List α}
    (hopened : ∀ y ∈ opened, (chosen y && whole y) = false) (p : β → Bool) :
    ((collect level chosen whole val xs).filter p).eraseDups =
      ((markedFrom level chosen whole val opened xs).filter p).eraseDups := by
  induction hlen : xs.length using Nat.strong_induction_on generalizing opened p xs with
  | h n ih =>
    match xs with
    | [] => rfl
    | x :: xs =>
      rw [List.length_cons] at hlen
      by_cases hx : chosen x ∧ whole x
      · obtain ⟨sub, rest, rfl, hbelow⟩ := exists_below level x xs
        rw [List.length_append] at hlen
        have hagain : ∀ r ∈ (collect level chosen whole val sub).filter p,
            r ∈ (sub.filterMap val).filter p := by
          intro r hr
          obtain ⟨hmem, hp⟩ := List.mem_filter.1 hr
          exact List.mem_filter.2 ⟨mem_filterMap_of_mem_collect hmem, hp⟩
        rw [collect_subtree hx hbelow, markedFrom_subtree (by simp [hx]) (hval x hx.2) hbelow,
          List.filter_append, List.filter_append, List.filter_append, eraseDups_append_again hagain]
        refine eraseDups_append_congr fun q => ?_
        rw [List.filter_filter, List.filter_filter]
        exact ih rest.length (by omega) hopened _ rfl
      · have hopened' : ∀ y ∈ x :: opened.filter (level · < level x), (chosen y && whole y) = false :=
          List.forall_mem_cons.2 ⟨by simpa using hx, fun y hy => hopened y (List.mem_of_mem_filter hy)⟩
        rw [collect_cons hx, markedFrom_cons hopened, List.filter_append, List.filter_append]
        refine eraseDups_append_congr fun q => ?_
        rw [List.filter_filter, List.filter_filter]
        exact ih xs.length (by omega) hopened' _ rfl

end Firsts

/-! ## Other values -/

section Map

variable {level chosen whole val} {κ : Type*} (f : β → κ) {x : α} {opened xs : List α}

theorem contribution_map : contribution level whole (fun x => (val x).map f) x xs =
    (contribution level whole val x xs).map f := by
  rw [contribution, contribution]
  split
  · exact List.map_filterMap.symm
  · cases val x <;> rfl

theorem collect_map : collect level chosen whole (fun x => (val x).map f) xs =
    (collect level chosen whole val xs).map f := by
  induction xs with
  | nil => rfl
  | cons x xs ih =>
    rw [collect, collect, ih, contribution_map, List.map_append]
    split <;> rfl

theorem markedFrom_map : markedFrom level chosen whole (fun x => (val x).map f) opened xs =
    (markedFrom level chosen whole val opened xs).map f := by
  rw [markedFrom, markedFrom, List.map_filterMap]
  refine List.filterMap_congr fun m _ => ?_
  split <;> rfl

theorem repeatsApart_map {cls : κ → γ} :
    RepeatsApart level chosen whole (fun x => (val x).map f) cls xs ↔
      RepeatsApart level chosen whole val (fun r => cls (f r)) xs := by
  have hlast : ∀ ys : List α, (ys.filterMap fun x => (val x).map f).getLast? =
      ((ys.filterMap val).getLast?).map f := fun ys => by
    rw [← List.map_filterMap, List.getLast?_map]
  simp only [RepeatsApart, contribution_map, hlast, Option.mem_def, Option.map_eq_some_iff,
    List.mem_map, forall_exists_index, and_imp, forall_apply_eq_imp_iff₂]

end Map

end Outline
