import Mathlib.Data.String.Basic
import Kahuna.FiniteMap.Keys
import Kahuna.Prefixes.Basic
import Kahuna.Wave.Names

/-!
# Short names that are unique

A variable can be shown under the shortest name that no other variable has: its own name if it is the
only one of that name, and otherwise with as many of the scopes above it as set it apart. The variables
of one name are sorted by their paths, read from the last scope on, so that each has to be compared with
its neighbours alone.

* `shownScopes_inj`: no two variables of one name are shown with the same scopes, except those that are
  shown with none;
* `minimalNames_iff`: the short names are unique unless two variables have the same full name, or an
  unnamed scope is left out next to a variable without scopes.
-/

namespace Wave

/-- The mark for scopes that are left out. -/
def ELLIPSIS : String := "…"

namespace VariableRef

open Prefixes

/-- The variables by their names. -/
def groupsByName (vars : List VariableRef) : FiniteMap String (List VariableRef) :=
  FiniteMap.groupBy (fun v => some v.name) vars

/-- The variables with their paths, read from the last scope on, in the order of these. -/
def sortedEntries (vars : List VariableRef) : List (List String × VariableRef) :=
  (vars.map fun v => (v.path.strs.reverse, v)).insertionSort fun a b => a.1 ≤ b.1

/-- The short name of an entry at its place in the sorted list. -/
def displayEntry (entries : List (List String × VariableRef)) (i : ℕ) (e : List String × VariableRef) :
    String :=
  let need := need (entries.map Prod.fst) i
  if need = 0 ∨ e.1.isEmpty then e.2.name
  else
    let take := min need e.1.length
    let scope := ".".intercalate (e.1.take take).reverse
    let mark := if take < e.1.length then ELLIPSIS else ""
    if scope.isEmpty then e.2.name else mark ++ scope ++ "." ++ e.2.name

/-- The full names of the variables of one name, and their short names. -/
def groupDisplays (vars : List VariableRef) : List (String × String) :=
  if vars.length = 1 then vars.map fun v => (v.fullPathString, v.name)
  else (sortedEntries vars).zipIdx.map fun e =>
    (e.1.2.fullPathString, displayEntry (sortedEntries vars) e.2 e.1)

/-- The short names of all variables, by their full names. The names are visited in the order of a hash
map, which is any order. -/
def computeMinimalDisplayMap (order : List String) (vars : List VariableRef) :
    FiniteMap String String :=
  (order.flatMap fun name => groupDisplays (((groupsByName vars).get name).getD [])).foldl
    (fun result e => result.insert e.1 e.2) FiniteMap.empty

/-! ## Names with some scopes -/

/-- The name of a variable with some of its scopes. -/
def display (shown : List String) (v : VariableRef) : String :=
  if shown = [] then v.name
  else (if shown.length < v.path.strs.length then ELLIPSIS else "") ++ ".".intercalate shown ++ "." ++
    v.name

/-- The parts of the path and the name contain neither a dot nor the mark. -/
def Unmarked (v : VariableRef) : Prop :=
  ∀ part ∈ v.path.strs ++ [v.name], '.' ∉ part.toList ∧ '…' ∉ part.toList

/-- The scopes that are shown, the first one with the mark if others are left out. -/
def marked (cut : Bool) : List String → List String
  | [] => []
  | s :: rest => ((if cut then ELLIPSIS else "") ++ s) :: rest

theorem display_eq (shown : List String) (v : VariableRef) :
    display shown v =
      ".".intercalate (marked (shown.length < v.path.strs.length) shown ++ [v.name]) := by
  cases shown with
  | nil => simp [display, marked]
  | cons s rest =>
    rw [display, if_neg (List.cons_ne_nil _ _), marked, List.cons_append,
      String.intercalate_cons_append, ← List.cons_append,
      String.intercalate_append_of_ne_nil (List.cons_ne_nil _ _) (List.cons_ne_nil _ _),
      String.intercalate_singleton]
    simp [String.append_assoc]

theorem not_mem_marked {cut : Bool} {shown : List String} (h : ∀ part ∈ shown, '.' ∉ part.toList) :
    ∀ part ∈ marked cut shown, '.' ∉ part.toList := by
  cases shown with
  | nil => simp [marked]
  | cons s rest =>
    rw [List.forall_mem_cons] at h
    rw [marked, List.forall_mem_cons]
    refine ⟨?_, h.2⟩
    cases cut <;> simp [ELLIPSIS, h.1]

/-- The scopes without the mark. -/
def unmarked (parts : List String) : List String :=
  parts.map fun part => String.ofList (part.toList.filter (· ≠ '…'))

theorem unmarked_of_not_mem {parts : List String} (h : ∀ part ∈ parts, '…' ∉ part.toList) :
    unmarked parts = parts := by
  have hpart : ∀ part ∈ parts, String.ofList (part.toList.filter (· ≠ '…')) = part := by
    intro part hpart
    have hfilter : part.toList.filter (· ≠ '…') = part.toList := by
      rw [List.filter_eq_self]
      intro c hc
      have hne : c ≠ '…' := fun heq => h part hpart (heq ▸ hc)
      simpa using hne
    rw [hfilter, String.ofList_toList]
  rw [unmarked, List.map_congr_left hpart, List.map_id']

/-- The mark can be taken off again. -/
theorem unmarked_marked {cut : Bool} {shown : List String} (h : ∀ part ∈ shown, '…' ∉ part.toList) :
    unmarked (marked cut shown) = shown := by
  cases shown with
  | nil => rfl
  | cons s rest =>
    have hmark : unmarked (marked cut (s :: rest)) = unmarked (s :: rest) := by
      cases cut <;> simp [marked, unmarked, ELLIPSIS]
    rw [hmark, unmarked_of_not_mem h]

/-- A short name tells the name and the scopes that are shown. -/
theorem display_inj {u v : VariableRef} {shown shown' : List String} (hu : u.Unmarked)
    (hv : v.Unmarked) (hshown : shown ⊆ u.path.strs) (hshown' : shown' ⊆ v.path.strs)
    (h : display shown u = display shown' v) : u.name = v.name ∧ shown = shown' := by
  have hparts : ∀ {w : VariableRef} {parts : List String}, w.Unmarked → parts ⊆ w.path.strs →
      ∀ part ∈ parts, '.' ∉ part.toList ∧ '…' ∉ part.toList :=
    fun hw hsub part hpart => hw part (List.mem_append_left _ (hsub hpart))
  have hlast : ∀ {w : VariableRef}, w.Unmarked → '.' ∉ w.name.toList :=
    fun hw => (hw _ (by simp)).1
  have hnodot : ∀ {w : VariableRef} {parts : List String} (cut : Bool), w.Unmarked →
      parts ⊆ w.path.strs → ∀ part ∈ marked cut parts ++ [w.name], '.' ∉ part.toList := by
    intro w parts cut hw hsub part hpart
    rcases List.mem_append.1 hpart with hpart | hpart
    · exact not_mem_marked (fun part hpart => (hparts hw hsub part hpart).1) part hpart
    · rw [List.mem_singleton.1 hpart]
      exact hlast hw
  -- the parts are read back between the points, since none of them has one
  rw [display_eq, display_eq] at h
  have hsplit := splitOn_intercalate (by simp) (hnodot (shown.length < u.path.strs.length) hu hshown)
  rw [h, splitOn_intercalate (by simp) (hnodot _ hv hshown')] at hsplit
  obtain ⟨hmarked, hname⟩ := List.append_inj' hsplit rfl
  refine ⟨by simpa using hname.symm, ?_⟩
  rw [← unmarked_marked fun part hpart => (hparts hu hshown part hpart).2, ← hmarked,
    unmarked_marked fun part hpart => (hparts hv hshown' part hpart).2]

/-! ## The scopes that are shown -/

/-- The scopes that are shown at a place of the sorted paths. An unnamed scope is not shown alone. -/
def shownScopes (paths : List (List String)) (i : ℕ) : List String :=
  let taken := (paths.getD i []).take (need paths i)
  if taken = [""] then [] else taken.reverse

variable {paths : List (List String)} {i j : ℕ}

theorem shownScopes_eq_nil_iff :
    shownScopes paths i = [] ↔
      (paths.getD i []).take (need paths i) = [] ∨ (paths.getD i []).take (need paths i) = [""] := by
  rw [shownScopes]
  generalize (paths.getD i []).take (need paths i) = taken
  by_cases h : taken = [""]
  · simp [h]
  · simp [h]

/-- The scopes that are shown set a variable apart from the others, if any are shown. -/
theorem shownScopes_inj (hsorted : paths.Pairwise (· ≤ ·)) (hi : i < paths.length)
    (hj : j < paths.length) (hne : paths.getD i [] ≠ paths.getD j [])
    (h : shownScopes paths i = shownScopes paths j) : shownScopes paths i = [] := by
  have hij : i ≠ j := fun heq => hne (heq ▸ rfl)
  by_contra hnil
  have hnil' : shownScopes paths j ≠ [] := h ▸ hnil
  have htaken : ∀ {k : ℕ}, shownScopes paths k ≠ [] →
      shownScopes paths k = ((paths.getD k []).take (need paths k)).reverse := by
    intro k hk
    rw [Ne, shownScopes_eq_nil_iff, not_or] at hk
    rw [shownScopes, if_neg hk.2]
  -- both take enough to differ from each other
  rw [htaken hnil, htaken hnil', List.reverse_inj] at h
  have hlt := commonPrefixLen_lt_need hsorted hi hj hij
  have hlt' := commonPrefixLen_lt_need hsorted hj hi hij.symm
  rw [commonPrefixLen_comm] at hlt'
  exact hne (eq_of_take_eq_take hlt hlt' h)

/-- Nothing is shown of a path that is empty, and of one that ends in an unnamed scope if that is all of
it or enough to set it apart. -/
theorem shownScopes_eq_nil_iff_getLast (hsorted : paths.Pairwise (· ≤ ·)) (hlen : 1 < paths.length)
    (hi : i < paths.length) :
    shownScopes paths i = [] ↔ paths.getD i [] = [] ∨ (paths.getD i []).head? = some "" ∧
      (paths.getD i [] = [""] ∨
        ∀ j < paths.length, j ≠ i → (paths.getD j []).head? ≠ some "") := by
  have hpos := need_pos hi hlen
  rw [shownScopes_eq_nil_iff]
  cases hpath : paths.getD i [] with
  | nil => simp
  | cons s rest =>
    obtain ⟨n, hn⟩ := Nat.exists_eq_succ_of_ne_zero (Nat.ne_of_gt hpos)
    rw [hn, List.take_succ_cons, List.head?_cons, Option.some_inj, List.cons.injEq, List.cons.injEq,
      List.take_eq_nil_iff]
    simp only [List.cons_ne_nil, false_or]
    -- an element that needs its first entry alone is the only one with this entry
    have halone : n = 0 ↔ ∀ j < paths.length, j ≠ i → (paths.getD j []).head? ≠ some s := by
      constructor
      · rintro rfl j hj hij hhead
        have hlt := commonPrefixLen_lt_need hsorted hi hj (Ne.symm hij)
        have hagree : 0 < commonPrefixLen (paths.getD i []) (paths.getD j []) :=
          commonPrefixLen_pos_iff.2 ⟨s, by rw [hpath]; rfl, hhead⟩
        omega
      · intro hall
        by_contra hne
        obtain ⟨j, hj, hij, hagree⟩ := exists_of_one_lt_need hi (by omega)
        obtain ⟨x, hx, hx'⟩ := commonPrefixLen_pos_iff.1 hagree
        rw [hpath, List.head?_cons, Option.some_inj] at hx
        exact hall j hj hij (hx ▸ hx')
    constructor
    · rintro ⟨rfl, hrest⟩
      refine ⟨rfl, ?_⟩
      rcases hrest with hzero | hnil
      · exact Or.inr (halone.1 hzero)
      · exact Or.inl ⟨rfl, hnil⟩
    · rintro ⟨rfl, ⟨-, hnil⟩ | hall⟩
      · exact ⟨rfl, Or.inr hnil⟩
      · exact ⟨rfl, Or.inl (halone.2 hall)⟩

/-! ## One group -/

variable {vars : List VariableRef} {u v : VariableRef}

/-- The paths of a group, in order. -/
def sortedPaths (vars : List VariableRef) : List (List String) := (sortedEntries vars).map Prod.fst

theorem mem_sortedEntries {e : List String × VariableRef} :
    e ∈ sortedEntries vars ↔ ∃ v ∈ vars, (v.path.strs.reverse, v) = e := by
  rw [sortedEntries, (List.perm_insertionSort _ _).mem_iff, List.mem_map]

theorem length_sortedEntries (vars : List VariableRef) : (sortedEntries vars).length = vars.length := by
  rw [sortedEntries, List.length_insertionSort, List.length_map]

theorem pairwise_sortedPaths (vars : List VariableRef) : (sortedPaths vars).Pairwise (· ≤ ·) := by
  have htotal : Std.Total fun a b : List String × VariableRef => a.1 ≤ b.1 :=
    ⟨fun a b => le_total a.1 b.1⟩
  have htrans : IsTrans (List String × VariableRef) fun a b => a.1 ≤ b.1 :=
    ⟨fun _ _ _ hab hbc => le_trans hab hbc⟩
  rw [sortedPaths, List.pairwise_map]
  exact List.pairwise_insertionSort _ _

/-- The place of a variable in its group. -/
def placeOf (vars : List VariableRef) (v : VariableRef) : ℕ :=
  (sortedEntries vars).idxOf (v.path.strs.reverse, v)

theorem getElem?_placeOf (hv : v ∈ vars) :
    (sortedEntries vars)[placeOf vars v]? = some (v.path.strs.reverse, v) := by
  have hmem := mem_sortedEntries.2 ⟨v, hv, rfl⟩
  have hlt := List.idxOf_lt_length_of_mem hmem
  rw [placeOf, List.getElem?_eq_getElem hlt, List.getElem_idxOf]

theorem placeOf_lt (hv : v ∈ vars) : placeOf vars v < (sortedPaths vars).length := by
  rw [sortedPaths, List.length_map]
  exact List.idxOf_lt_length_of_mem (mem_sortedEntries.2 ⟨v, hv, rfl⟩)

theorem getD_placeOf (hv : v ∈ vars) :
    (sortedPaths vars).getD (placeOf vars v) [] = v.path.strs.reverse := by
  rw [sortedPaths, List.getD_eq_getElem?_getD, List.getElem?_map, getElem?_placeOf hv]
  rfl

/-- The scopes with which a variable is shown in its group. -/
def shownIn (vars : List VariableRef) (v : VariableRef) : List String :=
  if vars.length = 1 then [] else shownScopes (sortedPaths vars) (placeOf vars v)

theorem intercalate_eq_empty_iff {parts : List String} (h : parts ≠ []) :
    (".".intercalate parts).isEmpty = true ↔ parts = [""] := by
  rw [String.isEmpty_iff]
  cases parts with
  | nil => exact absurd rfl h
  | cons first rest =>
    cases rest with
    | nil => simp
    | cons next rest =>
      constructor
      · intro hempty
        have hlist := congrArg String.toList hempty
        simp [String.toList_append] at hlist
      · simp

/-- The short name of an entry is its name with the scopes that are shown. -/
theorem displayEntry_eq {e : List String × VariableRef} (hpath : e.1 = e.2.path.strs.reverse)
    {entries : List (List String × VariableRef)} {i : ℕ} (he : entries[i]? = some e) :
    displayEntry entries i e = display (shownScopes (entries.map Prod.fst) i) e.2 := by
  have hget : (entries.map Prod.fst).getD i [] = e.1 := by
    rw [List.getD_eq_getElem?_getD, List.getElem?_map, he]
    rfl
  rw [displayEntry, shownScopes, hget]
  have htake : e.1.take (min (need (entries.map Prod.fst) i) e.1.length) =
      e.1.take (need (entries.map Prod.fst) i) := by
    rw [← List.take_eq_take_min]
  have hlength : (e.1.take (need (entries.map Prod.fst) i)).length =
      min (need (entries.map Prod.fst) i) e.1.length := List.length_take
  have hnil := @List.take_eq_nil_iff _ e.1 (need (entries.map Prod.fst) i)
  simp only [htake]
  generalize e.1.take (need (entries.map Prod.fst) i) = taken at *
  -- no scope is taken, or one without a name, whose text is empty as well, or there is a text
  by_cases hempty : taken = []
  · rw [if_pos (by simpa using hnil.1 hempty)]
    simp [display, hempty]
  · rw [if_neg (by simpa using hempty ∘ hnil.2), ← hlength]
    by_cases hunnamed : taken = [""]
    · simp [display, hunnamed]
    · have hscope : ¬ (".".intercalate taken.reverse).isEmpty = true := by
        rw [intercalate_eq_empty_iff (by simpa using hempty), List.reverse_eq_iff]
        exact hunnamed
      have hshown : taken.reverse ≠ [] := by simpa using hempty
      have hcut : e.1.length = e.2.path.strs.length := by rw [hpath, List.length_reverse]
      rw [if_neg hscope, if_neg hunnamed, display, if_neg hshown, List.length_reverse, hcut]

/-- Every variable of a group has a short name. -/
theorem mem_groupDisplays (hv : v ∈ vars) :
    (v.fullPathString, display (shownIn vars v) v) ∈ groupDisplays vars := by
  rw [groupDisplays, shownIn]
  split
  next => exact List.mem_map.2 ⟨v, hv, rfl⟩
  next =>
    have hplace := getElem?_placeOf hv
    refine List.mem_map.2 ⟨_, List.mk_mem_zipIdx_iff_getElem?.2 hplace, ?_⟩
    rw [displayEntry_eq rfl hplace, sortedPaths]

/-- The full names of a group. -/
theorem map_fst_groupDisplays_perm (vars : List VariableRef) :
    ((groupDisplays vars).map Prod.fst).Perm (vars.map fullPathString) := by
  rw [groupDisplays]
  split
  next => rw [List.map_map]; rfl
  next =>
    -- the group is sorted, and the places are forgotten
    have hsnd : (sortedEntries vars).map (fun e => e.2.fullPathString) =
        ((sortedEntries vars).map Prod.snd).map fullPathString := by
      rw [List.map_map]
      rfl
    have hperm : ((sortedEntries vars).map Prod.snd).Perm vars := by
      have h := (List.perm_insertionSort (fun a b : List String × VariableRef => a.1 ≤ b.1)
        (vars.map fun v => (v.path.strs.reverse, v))).map Prod.snd
      rwa [List.map_map, Function.comp_def, List.map_id'] at h
    have hzip : ((sortedEntries vars).zipIdx.map fun e =>
        (e.1.2.fullPathString, displayEntry (sortedEntries vars) e.2 e.1)).map Prod.fst =
          ((sortedEntries vars).zipIdx.map Prod.fst).map fun e => e.2.fullPathString := by
      rw [List.map_map, List.map_map]
      rfl
    rw [hzip, List.zipIdx_map_fst, hsnd]
    exact hperm.map _

/-- The scopes that are shown are the last ones of the path. -/
theorem shownIn_suffix (hv : v ∈ vars) : shownIn vars v <:+ v.path.strs := by
  rw [shownIn]
  split
  next => exact List.nil_suffix
  next =>
    rw [shownScopes, getD_placeOf hv]
    split
    next => exact List.nil_suffix
    next =>
      rw [← List.reverse_prefix, List.reverse_reverse]
      exact List.take_prefix _ _

/-- Two variables of a group are shown with the same scopes only if they are shown with none. -/
theorem shownIn_inj (hu : u ∈ vars) (hv : v ∈ vars) (hne : u.path.strs ≠ v.path.strs)
    (h : shownIn vars u = shownIn vars v) : shownIn vars u = [] := by
  rw [shownIn, shownIn] at *
  by_cases hone : vars.length = 1
  · rw [if_pos hone]
  · rw [if_neg hone, if_neg hone] at h
    rw [if_neg hone]
    refine shownScopes_inj (pairwise_sortedPaths vars) (placeOf_lt hu) (placeOf_lt hv) ?_ h
    rw [getD_placeOf hu, getD_placeOf hv, Ne, List.reverse_inj]
    exact hne

theorem nodup_sortedPaths (h : (vars.map fun v => v.path.strs).Nodup) : (sortedPaths vars).Nodup := by
  have hperm : (sortedPaths vars).Perm ((vars.map fun v => v.path.strs).map List.reverse) := by
    have h := (List.perm_insertionSort (fun a b : List String × VariableRef => a.1 ≤ b.1)
      (vars.map fun v => (v.path.strs.reverse, v))).map Prod.fst
    rw [List.map_map] at h
    rw [List.map_map]
    exact h
  rw [hperm.nodup_iff]
  exact h.map List.reverse_injective

/-- A variable of a group is shown with no scopes if it has none, or if it ends in an unnamed scope that
is all of its path or the only unnamed one. -/
theorem shownIn_eq_nil_iff (hnodup : (vars.map fun v => v.path.strs).Nodup) (hlen : 1 < vars.length)
    (hv : v ∈ vars) :
    shownIn vars v = [] ↔ v.path.strs = [] ∨ v.path.strs.getLast? = some "" ∧ (v.path.strs = [""] ∨
      ∀ w ∈ vars, w.path.strs.getLast? = some "" → w.path.strs = v.path.strs) := by
  have hplace := placeOf_lt hv
  have hlength : (sortedPaths vars).length = vars.length := by
    rw [sortedPaths, List.length_map, length_sortedEntries]
  -- the other places are those of the other variables
  have hothers : (∀ j < (sortedPaths vars).length, j ≠ placeOf vars v →
      ((sortedPaths vars).getD j []).head? ≠ some "") ↔
      ∀ w ∈ vars, w.path.strs.getLast? = some "" → w.path.strs = v.path.strs := by
    constructor
    · intro hall w hw hlast
      by_contra hne
      refine hall _ (placeOf_lt hw) ?_ ?_
      · intro heq
        have hget := getD_placeOf hw
        rw [heq, getD_placeOf hv, List.reverse_inj] at hget
        exact hne hget.symm
      · rw [getD_placeOf hw, List.head?_reverse, hlast]
    · intro hall j hj hne hhead
      have hmem : (sortedPaths vars)[j] ∈ sortedPaths vars := List.getElem_mem hj
      obtain ⟨e, he, hej⟩ := List.mem_map.1 hmem
      obtain ⟨w, hw, rfl⟩ := mem_sortedEntries.1 he
      rw [List.getD_eq_getElem _ _ hj, ← hej, List.head?_reverse] at hhead
      have hsame : (sortedPaths vars)[j] = (sortedPaths vars)[placeOf vars v] := by
        rw [← List.getD_eq_getElem _ [] hplace, getD_placeOf hv, ← hej, hall w hw hhead]
      exact hne ((nodup_sortedPaths hnodup).getElem_inj_iff.1 hsame)
  rw [shownIn, if_neg (by omega), shownScopes_eq_nil_iff_getLast (pairwise_sortedPaths vars)
    (by omega) hplace, hothers, getD_placeOf hv, List.reverse_eq_nil_iff, List.head?_reverse,
    List.reverse_eq_iff]
  rfl

/-! ## All names -/

/-- The variables of a name. -/
def ofName (vars : List VariableRef) (name : String) : List VariableRef :=
  ((groupsByName vars).get name).getD []

theorem ofName_eq (vars : List VariableRef) (name : String) :
    ofName vars name = vars.filter fun v => v.name = name := by
  rw [ofName, groupsByName, FiniteMap.getD_groupBy]
  simp only [Option.some_inj]

theorem mem_ofName {name : String} : v ∈ ofName vars name ↔ v ∈ vars ∧ v.name = name := by
  rw [ofName_eq, List.mem_filter, decide_eq_true_eq]

/-- Every variable has its short name if no two have the same full name. -/
theorem get_computeMinimalDisplayMap {order : List String}
    (horder : order.Perm (groupsByName vars).keys) (hkeys : (vars.map fullPathString).Nodup)
    (hv : v ∈ vars) :
    (computeMinimalDisplayMap order vars).get v.fullPathString =
      some (display (shownIn (ofName vars v.name) v) v) := by
  have hgroup : v ∈ ofName vars v.name := mem_ofName.2 ⟨hv, rfl⟩
  have hvisited : v.name ∈ order := by
    rw [horder.mem_iff]
    exact (FiniteMap.mem_keys_groupBy _).2 ⟨v, hv, rfl⟩
  have hnodup : ((order.flatMap fun name => groupDisplays (ofName vars name)).map Prod.fst).Nodup := by
    rw [List.map_flatMap, List.nodup_flatMap]
    constructor
    · intro name _
      rw [(map_fst_groupDisplays_perm _).nodup_iff, ofName_eq]
      exact hkeys.sublist ((List.filter_sublist).map _)
    · -- a full name belongs to one variable, and so to one name
      refine (horder.nodup_iff.2 (groupsByName vars).nodupKeys).imp fun hne => ?_
      intro key hkey hkey'
      rw [(map_fst_groupDisplays_perm _).mem_iff, List.mem_map] at hkey hkey'
      obtain ⟨u, hu, rfl⟩ := hkey
      obtain ⟨w, hw, heq⟩ := hkey'
      rw [mem_ofName] at hu hw
      have hsame := List.inj_on_of_nodup_map hkeys hw.1 hu.1 heq
      exact hne (by rw [← hu.2, ← hw.2, hsame])
  have hmem : (v.fullPathString, display (shownIn (ofName vars v.name) v) v) ∈
      order.flatMap fun name => groupDisplays (ofName vars name) :=
    List.mem_flatMap.2 ⟨v.name, hvisited, mem_groupDisplays hgroup⟩
  exact FiniteMap.get_foldl_insert_of_mem hnodup hmem _

/-- The short names are unique: no two variables have the same one, and each is the name of the variable
behind the last scopes of its path, with the mark in front of them if some are left out. -/
structure UniqueNames (vars : List VariableRef) (result : FiniteMap String String) : Prop where
  distinct : (vars.map fun v => result.get v.fullPathString).Nodup
  shown : ∀ v ∈ vars, ∃ shown, shown <:+ v.path.strs ∧
    result.get v.fullPathString = some (display shown v)

/-- Among the variables of its name, all scopes of a variable are left out because the last one is
unnamed: it is the only scope, or no other path ends in an unnamed scope. -/
def LosesScopes (vars : List VariableRef) (v : VariableRef) : Prop :=
  v.path.strs.getLast? = some "" ∧ (v.path.strs = [""] ∨
    ∀ w ∈ vars, w.name = v.name → w.path.strs.getLast? = some "" → w.path.strs = v.path.strs)

instance (vars : List VariableRef) (v : VariableRef) : Decidable (LosesScopes vars v) :=
  inferInstanceAs (Decidable (_ ∧ _))

section Unique

variable (hdistinct : (vars.map fun v => (v.path.strs, v.name)).Nodup)

include hdistinct

theorem eq_of_path_eq (hu : u ∈ vars) (hv : v ∈ vars) (hpath : u.path.strs = v.path.strs)
    (hname : u.name = v.name) : u = v :=
  List.inj_on_of_nodup_map hdistinct hu hv (Prod.ext hpath hname)

theorem nodup_paths_ofName (name : String) : ((ofName vars name).map fun v => v.path.strs).Nodup := by
  have hgroup : (ofName vars name).Nodup := by
    rw [ofName_eq]
    exact (List.Nodup.of_map _ hdistinct).filter _
  refine hgroup.map_on fun u hu v hv hpath => ?_
  rw [mem_ofName] at hu hv
  exact eq_of_path_eq hdistinct hu.1 hv.1 hpath (hu.2.trans hv.2.symm)

/-- Two variables of one name are shown alike only if one has no scopes and the other loses its own. -/
theorem shownIn_eq_iff (hu : u ∈ vars) (hv : v ∈ vars) (hname : u.name = v.name) (hne : u ≠ v) :
    shownIn (ofName vars u.name) u = shownIn (ofName vars v.name) v ↔
      u.path.strs = [] ∧ LosesScopes vars v ∨ v.path.strs = [] ∧ LosesScopes vars u := by
  have hgu : u ∈ ofName vars v.name := mem_ofName.2 ⟨hu, hname⟩
  have hgv : v ∈ ofName vars v.name := mem_ofName.2 ⟨hv, rfl⟩
  have hpaths : u.path.strs ≠ v.path.strs := fun heq => hne (eq_of_path_eq hdistinct hu hv heq hname)
  have hlen : 1 < (ofName vars v.name).length := FiniteMap.one_lt_length_of_mem hgu hgv hne
  have hnil : ∀ {w : VariableRef}, w ∈ vars → w.name = v.name →
      (shownIn (ofName vars v.name) w = [] ↔ w.path.strs = [] ∨ LosesScopes vars w) := by
    intro w hw hwv
    rw [shownIn_eq_nil_iff (nodup_paths_ofName hdistinct v.name) hlen (mem_ofName.2 ⟨hw, hwv⟩)]
    simp only [mem_ofName, and_imp, LosesScopes, hwv]
  rw [hname]
  constructor
  · intro heq
    have hnone := shownIn_inj hgu hgv hpaths heq
    have hu' := (hnil hu hname).1 hnone
    have hv' := (hnil hv rfl).1 (heq ▸ hnone)
    rcases hu' with hu' | hu'
    · rcases hv' with hv' | hv'
      · exact absurd (hu'.trans hv'.symm) hpaths
      · exact Or.inl ⟨hu', hv'⟩
    · rcases hv' with hv' | hv'
      · exact Or.inr ⟨hv', hu'⟩
      · -- both end in an unnamed scope, so either is all of its path
        exfalso
        rcases hu'.2 with hu'' | hu''
        · rcases hv'.2 with hv'' | hv''
          · exact hpaths (hu''.trans hv''.symm)
          · exact hpaths (hv'' u hu hname hu'.1)
        · exact hpaths (hu'' v hv hname.symm hv'.1).symm
  · rintro (⟨hu', hv'⟩ | ⟨hv', hu'⟩)
    · rw [(hnil hu hname).2 (Or.inl hu'), (hnil hv rfl).2 (Or.inr hv')]
    · rw [(hnil hu hname).2 (Or.inr hu'), (hnil hv rfl).2 (Or.inl hv')]

end Unique

/-- **The short names are unique** exactly if no two variables have the same full name, and none that has
no scopes has the name of one that loses its scopes. -/
theorem minimalNames_iff {order : List String} (horder : order.Perm (groupsByName vars).keys)
    (hdistinct : (vars.map fun v => (v.path.strs, v.name)).Nodup)
    (hunmarked : ∀ v ∈ vars, v.Unmarked) :
    UniqueNames vars (computeMinimalDisplayMap order vars) ↔
      (vars.map fullPathString).Nodup ∧
        ∀ u ∈ vars, ∀ v ∈ vars, u.name = v.name → u.path.strs = [] → ¬ LosesScopes vars v := by
  have hmap : (vars.map fun v => (computeMinimalDisplayMap order vars).get v.fullPathString) =
      (vars.map fullPathString).map (computeMinimalDisplayMap order vars).get := by
    rw [List.map_map]
    rfl
  constructor
  · rintro ⟨hnames, -⟩
    have hkeys : (vars.map fullPathString).Nodup := List.Nodup.of_map _ (hmap ▸ hnames)
    refine ⟨hkeys, fun u hu v hv hname hnil hloses => ?_⟩
    have hne : u ≠ v := by
      rintro rfl
      simp [LosesScopes, hnil] at hloses
    have hshown := (shownIn_eq_iff hdistinct hu hv hname hne).2 (Or.inl ⟨hnil, hloses⟩)
    -- without scopes, the variable is shown under its name, and so is the other one
    have hnone : shownIn (ofName vars u.name) u = [] := by
      have hsuffix := shownIn_suffix (mem_ofName.2 ⟨hu, rfl⟩)
      rwa [hnil, List.suffix_nil] at hsuffix
    refine hne (List.inj_on_of_nodup_map hnames hu hv ?_)
    rw [get_computeMinimalDisplayMap horder hkeys hu, get_computeMinimalDisplayMap horder hkeys hv,
      ← hshown, hnone, display, display, if_pos rfl, if_pos rfl, hname]
  · rintro ⟨hkeys, hall⟩
    have hget := fun v hv => get_computeMinimalDisplayMap horder hkeys (v := v) hv
    refine ⟨?_, fun v hv => ⟨_, shownIn_suffix (mem_ofName.2 ⟨hv, rfl⟩), hget v hv⟩⟩
    refine (List.Nodup.of_map _ hdistinct).map_on fun u hu v hv heq => ?_
    rw [hget u hu, hget v hv, Option.some_inj] at heq
    obtain ⟨hname, hshown⟩ := display_inj (hunmarked u hu) (hunmarked v hv)
      (shownIn_suffix (mem_ofName.2 ⟨hu, rfl⟩)).subset (shownIn_suffix (mem_ofName.2 ⟨hv, rfl⟩)).subset heq
    by_contra hne
    rcases (shownIn_eq_iff hdistinct hu hv hname hne).1 hshown with ⟨hnil, hloses⟩ | ⟨hnil, hloses⟩
    · exact hall u hu v hv hname hnil hloses
    · exact hall v hv u hu hname.symm hnil hloses

example :
    let vars := ["top.dut.x", "other.dut.x", "top.sub.x"].map fromHierarchyString
    (vars.map fun v => (computeMinimalDisplayMap ["x"] vars).get v.fullPathString) =
      [some "top.dut.x", some "other.dut.x", some "…sub.x"] := by
  decide

/-- A variable below scopes with the given names. -/
def signalX (path : List String) : VariableRef where
  path := ScopeRef.fromStrs path
  name := "x"
  id := none
  index := none

theorem unmarked_signalX {path : List String}
    (h : ∀ part ∈ path, '.' ∉ part.toList ∧ '…' ∉ part.toList) : (signalX path).Unmarked := by
  intro part hpart
  rcases List.mem_append.1 hpart with hpart | hpart
  · exact h part hpart
  · rw [List.mem_singleton.1 hpart]
    simp [signalX]

theorem minimalNames_iff_nested :
    UniqueNames [signalX ["top", "dut"], signalX ["other", "dut"], signalX ["top", "sub"], signalX []]
      (computeMinimalDisplayMap ["x"]
        [signalX ["top", "dut"], signalX ["other", "dut"], signalX ["top", "sub"], signalX []]) := by
  refine (minimalNames_iff (by decide) (by decide) ?_).2
    ⟨by decide, by decide⟩
  simp only [List.forall_mem_cons, List.not_mem_nil, false_implies, implies_true, and_true]
  exact ⟨unmarked_signalX (by decide), unmarked_signalX (by decide),
    unmarked_signalX (by decide), unmarked_signalX (by decide)⟩

/-- A variable outside all scopes and one in an unnamed scope have the same short name. -/
theorem not_forall_uniqueNames :
    ¬ ∀ (order : List String) (vars : List VariableRef), order.Perm (groupsByName vars).keys →
      (vars.map fun v => (v.path.strs, v.name)).Nodup → (∀ v ∈ vars, v.Unmarked) →
      UniqueNames vars (computeMinimalDisplayMap order vars) := by
  intro hall
  have hunmarked : ∀ v ∈ [signalX [], signalX [""]], v.Unmarked := by
    simp only [List.forall_mem_cons, List.not_mem_nil, false_implies, implies_true, and_true]
    exact ⟨unmarked_signalX (by decide), unmarked_signalX (by decide)⟩
  have hnames := (hall ["x"] [signalX [], signalX [""]] (by decide) (by decide)
    hunmarked).distinct
  exact absurd hnames (by decide)

end VariableRef

end Wave
