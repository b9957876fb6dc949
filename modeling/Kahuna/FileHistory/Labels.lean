import Mathlib.Data.List.GetD
import Kahuna.FiniteMap.Keys
import Kahuna.Text.Basic
import Kahuna.Text.Separators

/-!
# Labels of recent files

The list of recent files shows each file under the last segment of its path. Files with the same last
segment are shown with more segments, as many as are needed to tell all of them apart, or with the whole
path if no number of segments does.

* `segments_labelForDepth`: the segments of a label are the last segments of its path;
* `disambiguatedLabels_eq`: the label of a path depends on its group alone;
* `disambiguatedLabels_nodup`: different paths have different labels.
-/

namespace FileHistory

/-- The two characters between the segments of a path. -/
def isSeparator (c : Char) : Bool := c = '/' ∨ c = '\\'

/-- The segments of a path that are not empty. -/
def segments (path : List Char) : List (List Char) :=
  (path.splitOnP isSeparator).filter (· ≠ [])

/-- The last `depth` segments. -/
def labelForDepth (parts : List (List Char)) (depth : ℕ) : List Char :=
  ['/'].intercalate (parts.drop (parts.length - depth))

/-- The segments of the path at an index. -/
def segmentsAt (paths : List (List Char)) (idx : ℕ) : List (List Char) :=
  segments (paths.getD idx [])

/-- The labels before any two files are told apart. -/
def lastSegments (paths : List (List Char)) : List (List Char) :=
  paths.map fun path => (segments path).getLast?.getD "<unknown>".toList

/-- The indices of the paths with the same last segment. -/
def groups (paths : List (List Char)) : FiniteMap (List Char) (List ℕ) :=
  FiniteMap.groupBy (fun idx => (segmentsAt paths idx).getLast?) (List.range paths.length)

/-- The length of the longest path of a group. -/
def maxDepth (paths : List (List Char)) (indexes : List ℕ) : ℕ :=
  (indexes.map fun idx => (segmentsAt paths idx).length).max?.getD 1

/-- The first depth at which the labels of a group differ. -/
def foundUniqueDepth (paths : List (List Char)) (indexes : List ℕ) : Option ℕ :=
  (List.range' 2 (maxDepth paths indexes - 1)).find? fun depth =>
    (indexes.map fun idx => labelForDepth (segmentsAt paths idx) depth).Nodup

/-- The labels after one group. -/
def relabel (paths labels : List (List Char)) (indexes : List ℕ) : List (List Char) :=
  if indexes.length ≤ 1 then labels
  else match foundUniqueDepth paths indexes with
    | some depth =>
      indexes.foldl (fun labels idx => labels.set idx (labelForDepth (segmentsAt paths idx) depth)) labels
    | none => indexes.foldl (fun labels idx => labels.set idx (paths.getD idx [])) labels

/-- The labels of all paths. The groups are visited in the order of a hash map, which is any order of
their names. -/
def disambiguatedLabels (order paths : List (List Char)) : List (List Char) :=
  order.foldl (fun labels name => relabel paths labels (((groups paths).get name).getD []))
    (lastSegments paths)

/-! ## Segments and labels -/

/-- Segments are not empty and contain no separator. -/
theorem of_mem_segments {path part : List Char} (h : part ∈ segments path) :
    part ≠ [] ∧ ∀ c ∈ part, isSeparator c = false := by
  rw [segments, List.mem_filter] at h
  exact ⟨by simpa using h.2, Text.not_of_mem_splitOnP h.1⟩

/-- Segments that were joined are found again. -/
theorem segments_intercalate {parts : List (List Char)} (hne : parts ≠ [])
    (h : ∀ part ∈ parts, part ≠ [] ∧ ∀ c ∈ part, isSeparator c = false) :
    segments (['/'].intercalate parts) = parts := by
  have hsplit : (['/'].intercalate parts).splitOnP isSeparator = parts :=
    Text.splitOnP_intercalate rfl hne fun part hpart => (h part hpart).2
  rw [segments, hsplit, List.filter_eq_self]
  intro part hpart
  simpa using (h part hpart).1

/-- The segments of a label are the last segments of its path. -/
theorem segments_labelForDepth {path : List Char} {depth : ℕ} (hne : segments path ≠ [])
    (hdepth : 0 < depth) :
    segments (labelForDepth (segments path) depth) =
      (segments path).drop ((segments path).length - depth) := by
  have hlen : 0 < (segments path).length := List.length_pos_iff.2 hne
  refine segments_intercalate ?_ fun part hpart => of_mem_segments (List.mem_of_mem_drop hpart)
  rw [Ne, List.drop_eq_nil_iff]
  omega

/-- A label names its path: it is the path itself, or its last segments. -/
inductive Names (path : List Char) : List Char → Prop
  | whole : Names path path
  | last (depth : ℕ) (h : 0 < depth) : Names path (labelForDepth (segments path) depth)

/-- A label ends like its path. -/
theorem Names.getLast?_eq {path label : List Char} (h : Names path label) (hne : segments path ≠ []) :
    (segments label).getLast? = (segments path).getLast? := by
  cases h with
  | whole => rfl
  | last depth hdepth =>
    have hlen : 0 < (segments path).length := List.length_pos_iff.2 hne
    rw [segments_labelForDepth hne hdepth, List.getLast?_drop, if_neg (by omega)]

/-- The last segment is the label at depth one. -/
theorem labelForDepth_one {parts : List (List Char)} {name : List Char}
    (h : parts.getLast? = some name) : labelForDepth parts 1 = name := by
  obtain ⟨init, rfl⟩ := List.getLast?_eq_some_iff.1 h
  simp [labelForDepth]

/-! ## One group -/

/-- The paths of a group are those with its last segment. -/
theorem getD_groups (paths : List (List Char)) (name : List Char) :
    ((groups paths).get name).getD [] =
      (List.range paths.length).filter fun idx => (segmentsAt paths idx).getLast? = some name :=
  FiniteMap.getD_groupBy _ _ _

theorem mem_getD_groups {paths : List (List Char)} {name : List Char} {idx : ℕ} :
    idx ∈ ((groups paths).get name).getD [] ↔
      idx < paths.length ∧ (segmentsAt paths idx).getLast? = some name := by
  rw [getD_groups, List.mem_filter, List.mem_range, decide_eq_true_eq]

/-- The label that a path gets as a member of a group. -/
def groupLabel (paths : List (List Char)) (indexes : List ℕ) (idx : ℕ) : List Char :=
  match foundUniqueDepth paths indexes with
  | some depth => labelForDepth (segmentsAt paths idx) depth
  | none => paths.getD idx []

theorem getElem?_foldl_set {α : Type*} (f : ℕ → α) (indexes : List ℕ) (labels : List α) (i : ℕ) :
    (indexes.foldl (fun labels idx => labels.set idx (f idx)) labels)[i]? =
      if i ∈ indexes then labels[i]?.map fun _ => f i else labels[i]? := by
  induction indexes generalizing labels with
  | nil => rfl
  | cons idx indexes ih =>
    rw [List.foldl_cons, ih]
    by_cases hi : i = idx
    · -- a place that occurs again is set to the same label
      subst hi
      have hset : (labels.set i (f i))[i]? = labels[i]?.map fun _ => f i := List.getElem?_set_self'
      rw [hset, if_pos List.mem_cons_self, Option.map_map]
      exact ite_self _
    · simp [List.getElem?_set_ne (Ne.symm hi), hi]

/-- A group changes the labels of its members and no others. -/
theorem getElem?_relabel (paths labels : List (List Char)) (indexes : List ℕ) (i : ℕ) :
    (relabel paths labels indexes)[i]? =
      if i ∈ indexes ∧ 1 < indexes.length then labels[i]?.map fun _ => groupLabel paths indexes i
      else labels[i]? := by
  rw [relabel]
  by_cases hlen : indexes.length ≤ 1
  · simp [hlen, Nat.not_lt.2 hlen]
  · rw [if_neg hlen]
    simp only [groupLabel, not_le.1 hlen, and_true]
    cases foundUniqueDepth paths indexes with
    | none => exact getElem?_foldl_set _ indexes labels i
    | some depth => exact getElem?_foldl_set _ indexes labels i

/-- A label that is found in a group names its path. -/
theorem names_groupLabel (paths : List (List Char)) (indexes : List ℕ) (idx : ℕ) :
    Names (paths.getD idx []) (groupLabel paths indexes idx) := by
  rw [groupLabel]
  cases h : foundUniqueDepth paths indexes with
  | none => exact .whole
  | some depth =>
    have hmem := List.mem_of_find?_eq_some h
    rw [List.mem_range'_1] at hmem
    exact .last depth (by omega)

/-- The labels of a group differ. -/
theorem eq_of_groupLabel_eq {paths : List (List Char)} {indexes : List ℕ} {i j : ℕ}
    (hpaths : paths.Nodup) (hi : i < paths.length) (hj : j < paths.length) (hmi : i ∈ indexes)
    (hmj : j ∈ indexes) (h : groupLabel paths indexes i = groupLabel paths indexes j) : i = j := by
  rw [groupLabel, groupLabel] at h
  cases hdepth : foundUniqueDepth paths indexes with
  | none =>
    simp only [hdepth] at h
    rw [List.getD_eq_getElem _ _ hi, List.getD_eq_getElem _ _ hj] at h
    exact (hpaths.getElem_inj_iff).1 h
  | some depth =>
    simp only [hdepth] at h
    have hnodup := List.find?_some hdepth
    rw [decide_eq_true_eq] at hnodup
    exact List.inj_on_of_nodup_map hnodup hmi hmj h

/-! ## All groups -/

/-- The label of a path, which depends on its own group alone. -/
def labelOf (paths : List (List Char)) (idx : ℕ) : List Char :=
  let name := (segmentsAt paths idx).getLast?.getD "<unknown>".toList
  let indexes := ((groups paths).get name).getD []
  if idx ∈ indexes ∧ 1 < indexes.length then groupLabel paths indexes idx else name

variable {order paths : List (List Char)}

/-- A visit of groups changes a label when it comes to the group of the path. -/
theorem getElem?_foldl_relabel {idx : ℕ} {name : List Char} (hnodup : order.Nodup)
    (hname : (segmentsAt paths idx).getLast? = some name) (labels : List (List Char)) :
    (order.foldl (fun labels name => relabel paths labels (((groups paths).get name).getD []))
      labels)[idx]? =
      if name ∈ order then (relabel paths labels (((groups paths).get name).getD []))[idx]?
      else labels[idx]? := by
  induction order generalizing labels with
  | nil => rfl
  | cons visited order ih =>
    rw [List.nodup_cons] at hnodup
    rw [List.foldl_cons, ih hnodup.2]
    by_cases hvisited : name = visited
    · -- this is the group of the path, and no later one is
      subst hvisited
      rw [if_neg hnodup.1, if_pos List.mem_cons_self]
    · -- another group does not have the path
      have hother : idx ∉ ((groups paths).get visited).getD [] := by
        rw [mem_getD_groups, hname]
        simp [hvisited]
      have hkept : (relabel paths labels (((groups paths).get visited).getD []))[idx]? =
          labels[idx]? := by
        rw [getElem?_relabel, if_neg fun h => hother h.1]
      simp only [List.mem_cons, hvisited, false_or, getElem?_relabel, hkept]

/-- The labels, path by path. -/
theorem getElem?_disambiguatedLabels {idx : ℕ} (horder : order.Perm (groups paths).keys)
    (hidx : idx < paths.length) (hne : segmentsAt paths idx ≠ []) :
    (disambiguatedLabels order paths)[idx]? = some (labelOf paths idx) := by
  obtain ⟨name, hname⟩ := Option.isSome_iff_exists.1 (List.getLast?_isSome.2 hne)
  have hnodup : order.Nodup := horder.nodup_iff.2 (groups paths).nodupKeys
  have hvisited : name ∈ order := by
    rw [horder.mem_iff]
    exact (FiniteMap.mem_keys_groupBy _).2 ⟨idx, List.mem_range.2 hidx, hname⟩
  -- before the first visit, the label is the last segment
  have hinitial : (lastSegments paths)[idx]? = some name := by
    rw [segmentsAt, List.getD_eq_getElem _ _ hidx] at hname
    simp [lastSegments, hidx, hname]
  rw [disambiguatedLabels, getElem?_foldl_relabel hnodup hname, if_pos hvisited, getElem?_relabel,
    hinitial, labelOf, hname]
  split <;> simp [*]

theorem length_foldl_set {α : Type*} (f : ℕ → α) (indexes : List ℕ) (labels : List α) :
    (indexes.foldl (fun labels idx => labels.set idx (f idx)) labels).length = labels.length := by
  induction indexes generalizing labels with
  | nil => rfl
  | cons idx indexes ih => rw [List.foldl_cons, ih, List.length_set]

theorem length_relabel (paths labels : List (List Char)) (indexes : List ℕ) :
    (relabel paths labels indexes).length = labels.length := by
  rw [relabel]
  split
  next => rfl
  next =>
    cases foundUniqueDepth paths indexes with
    | none => exact length_foldl_set _ indexes labels
    | some depth => exact length_foldl_set _ indexes labels

theorem length_disambiguatedLabels (order paths : List (List Char)) :
    (disambiguatedLabels order paths).length = paths.length := by
  have hfold : ∀ labels : List (List Char),
      (order.foldl (fun labels name => relabel paths labels (((groups paths).get name).getD []))
        labels).length = labels.length := by
    induction order with
    | nil => exact fun _ => rfl
    | cons name order ih =>
      intro labels
      rw [List.foldl_cons, ih, length_relabel]
  rw [disambiguatedLabels, hfold, lastSegments, List.length_map]

theorem segmentsAt_ne_nil (hne : ∀ path ∈ paths, segments path ≠ []) {idx : ℕ}
    (hidx : idx < paths.length) : segmentsAt paths idx ≠ [] := by
  rw [segmentsAt, List.getD_eq_getElem _ _ hidx]
  exact hne _ (List.getElem_mem hidx)

theorem disambiguatedLabels_eq (horder : order.Perm (groups paths).keys)
    (hne : ∀ path ∈ paths, segments path ≠ []) :
    disambiguatedLabels order paths = (List.range paths.length).map (labelOf paths) := by
  refine List.ext_getElem? fun idx => ?_
  by_cases hidx : idx < paths.length
  · rw [getElem?_disambiguatedLabels horder hidx (segmentsAt_ne_nil hne hidx)]
    simp [hidx]
  · rw [List.getElem?_eq_none (by rw [length_disambiguatedLabels]; omega),
      List.getElem?_eq_none (by simp; omega)]

/-- Every label names its path. -/
theorem names_labelOf {idx : ℕ} (hne : segmentsAt paths idx ≠ []) :
    Names (paths.getD idx []) (labelOf paths idx) := by
  obtain ⟨name, hname⟩ := Option.isSome_iff_exists.1 (List.getLast?_isSome.2 hne)
  rw [labelOf, hname, Option.getD_some]
  split
  next => exact names_groupLabel paths _ idx
  next =>
    rw [← labelForDepth_one hname]
    exact .last 1 Nat.one_pos

/-- Paths with the same label have the same last segment, so they are in one group, and within a group
the labels differ. -/
theorem eq_of_labelOf_eq {i j : ℕ} (hpaths : paths.Nodup) (hne : ∀ path ∈ paths, segments path ≠ [])
    (hi : i < paths.length) (hj : j < paths.length) (h : labelOf paths i = labelOf paths j) : i = j := by
  have hi' := segmentsAt_ne_nil hne hi
  have hj' := segmentsAt_ne_nil hne hj
  -- a label names its path, so that it tells the last segment
  have hlast : (segmentsAt paths i).getLast? = (segmentsAt paths j).getLast? := by
    have hlasti := (names_labelOf hi').getLast?_eq hi'
    have hlastj := (names_labelOf hj').getLast?_eq hj'
    rw [segmentsAt, ← hlasti, h, hlastj, segmentsAt]
  obtain ⟨name, hname⟩ := Option.isSome_iff_exists.1 (List.getLast?_isSome.2 hi')
  have hmi : i ∈ ((groups paths).get name).getD [] := mem_getD_groups.2 ⟨hi, hname⟩
  have hmj : j ∈ ((groups paths).get name).getD [] := mem_getD_groups.2 ⟨hj, hlast ▸ hname⟩
  by_contra hij
  have hsize : 1 < (((groups paths).get name).getD []).length := FiniteMap.one_lt_length_of_mem hmi hmj hij
  rw [labelOf, labelOf, ← hlast, hname, Option.getD_some, if_pos ⟨hmi, hsize⟩, if_pos ⟨hmj, hsize⟩] at h
  exact hij (eq_of_groupLabel_eq hpaths hi hj hmi hmj h)

/-- **The labels tell the files apart.** For different paths that all have a segment, each label names
the path at its position, and no two labels are equal. -/
theorem disambiguatedLabels_nodup (horder : order.Perm (groups paths).keys) (hpaths : paths.Nodup)
    (hne : ∀ path ∈ paths, segments path ≠ []) :
    List.Forall₂ Names paths (disambiguatedLabels order paths) ∧
      (disambiguatedLabels order paths).Nodup := by
  rw [disambiguatedLabels_eq horder hne]
  constructor
  · rw [List.forall₂_iff_get]
    refine ⟨by simp, fun idx hidx _ => ?_⟩
    have hnames := names_labelOf (segmentsAt_ne_nil hne hidx)
    rw [List.getD_eq_getElem _ _ hidx] at hnames
    simpa using hnames
  · refine List.nodup_range.map_on fun i hi j hj h => ?_
    exact eq_of_labelOf_eq hpaths hne (List.mem_range.1 hi) (List.mem_range.1 hj) h

/-- Two files that differ in their separators alone, and one under another name. -/
theorem disambiguatedLabels_nodup_backslash :
    disambiguatedLabels ["c".toList, "b".toList] ["a/b".toList, "a\\b".toList, "/a//c/".toList] =
        ["a/b".toList, "a\\b".toList, "c".toList] ∧
      (disambiguatedLabels ["c".toList, "b".toList]
        ["a/b".toList, "a\\b".toList, "/a//c/".toList]).Nodup :=
  ⟨by decide, (disambiguatedLabels_nodup (by decide) (by decide)
    (by decide)).2⟩

end FileHistory
