import Kahuna.Wave.Canvases
import Kahuna.Wave.References

/-!
# Annotations and their groups

Annotations are kept in one list and listed in groups by their numbers. This file says when the groups
partition the annotations.

- `GroupsSound`: each number is in one group, once, and is that of an annotation.
- `SystemState.KeepsGroups`: what keeps the groups sound, message by message.
- `groups_partition`: in every run that keeps them sound, the groups partition the annotations.
-/

namespace Wave

open ItemTree Decoders

/-- The numbers of all groups. -/
def groupIds (groups : List AnnotationGroup) : List AnnotationId :=
  groups.flatMap AnnotationGroup.annotations

/-- There is a group of that name. -/
def HasGroup (name : String) (groups : List AnnotationGroup) : Prop := ∃ group ∈ groups, group.name = name

/-- The groups hold each number of an annotation, once, and no other. Numbers from `next` on are not in
use. -/
structure GroupsSound (next : ℕ) (annotations : List Annotation) (groups : List AnnotationGroup) : Prop where
  nodup : (groupIds groups).Nodup
  mem_iff (id : AnnotationId) : id ∈ groupIds groups ↔ id ∈ annotations.map Annotation.id
  lt_next : ∀ a ∈ annotations, a.id < next

/-! ## Operations on groups -/

section Groups

variable {groups groups' : List AnnotationGroup} {id : AnnotationId} {name : String}

/-- A number is added to the group of a name. -/
theorem groupIds_addToGroup (h : HasGroup name groups) :
    (groupIds (WaveData.addToGroup name id groups)).Perm (id :: groupIds groups) := by
  induction groups with
  | nil =>
    obtain ⟨group, hgroup, -⟩ := h
    cases hgroup
  | cons group rest ih =>
    rw [WaveData.addToGroup]
    split
    next =>
      rw [groupIds, groupIds, List.flatMap_cons, List.flatMap_cons, List.append_assoc,
        List.singleton_append]
      exact List.perm_middle
    next hname =>
      obtain ⟨group', hgroup', hname'⟩ := h
      have hmem := (List.mem_cons.1 hgroup').resolve_left fun heq => hname (heq ▸ hname')
      rw [groupIds, groupIds, List.flatMap_cons, List.flatMap_cons]
      exact ((ih ⟨group', hmem, hname'⟩).append_left _).trans List.perm_middle

/-- A number is taken out of the group that has it. -/
theorem groupIds_removeFromGroups (h : WaveData.removeFromGroups id groups = some groups') :
    (groupIds groups).Perm (id :: groupIds groups') ∧
      groups'.map AnnotationGroup.name = groups.map AnnotationGroup.name := by
  induction groups generalizing groups' with
  | nil => cases h
  | cons group rest ih =>
    rw [WaveData.removeFromGroups] at h
    split at h
    next hmem =>
      cases h
      refine ⟨?_, rfl⟩
      rw [groupIds, groupIds, List.flatMap_cons, List.flatMap_cons]
      exact (List.perm_cons_erase (by simpa using hmem)).append_right _
    next =>
      obtain ⟨rest', hrest, rfl⟩ := Option.map_eq_some_iff.1 h
      obtain ⟨hperm, hnames⟩ := ih hrest
      refine ⟨?_, by rw [List.map_cons, List.map_cons, hnames]⟩
      rw [groupIds, groupIds, List.flatMap_cons, List.flatMap_cons]
      exact (hperm.append_left _).trans List.perm_middle

/-- A number that cannot be taken out is in no group. -/
theorem not_mem_of_removeFromGroups (h : WaveData.removeFromGroups id groups = none) :
    id ∉ groupIds groups := by
  induction groups with
  | nil => simp [groupIds]
  | cons group rest ih =>
    rw [WaveData.removeFromGroups] at h
    split at h
    · cases h
    next hmem =>
      rw [groupIds, List.flatMap_cons, List.mem_append, not_or]
      exact ⟨by simpa using hmem, ih (Option.map_eq_none_iff.1 h)⟩

theorem hasGroup_congr (h : groups'.map AnnotationGroup.name = groups.map AnnotationGroup.name) :
    HasGroup name groups' ↔ HasGroup name groups := by
  have hmap : ∀ gs : List AnnotationGroup, HasGroup name gs ↔ name ∈ gs.map AnnotationGroup.name :=
    fun gs => List.mem_map.symm
  rw [hmap, hmap, h]

/-- Deleting an empty group takes no number away. -/
theorem groupIds_eraseP (hempty : ∀ group, groups.find? (·.name == name) = some group →
    group.annotations = []) : groupIds (groups.eraseP (·.name == name)) = groupIds groups := by
  induction groups with
  | nil => rfl
  | cons group rest ih =>
    rw [List.find?_cons] at hempty
    rw [List.eraseP_cons]
    cases hname : group.name == name with
    | true =>
      rw [hname] at hempty
      rw [cond_true, groupIds, groupIds, List.flatMap_cons, hempty group rfl, List.nil_append]
    | false =>
      rw [hname] at hempty
      rw [cond_false, groupIds, groupIds, List.flatMap_cons, List.flatMap_cons]
      exact congrArg _ (ih hempty)

/-- A group loses its numbers when all its annotations are deleted. -/
def clearGroup (name : String) (group : AnnotationGroup) : AnnotationGroup :=
  if group.name = name then { group with cycleCounter := 0, annotations := [] } else group

theorem clearGroup_sublist (name : String) (groups : List AnnotationGroup) :
    (groupIds (groups.map (clearGroup name))).Sublist (groupIds groups) := by
  induction groups with
  | nil => exact .slnil
  | cons group rest ih =>
    rw [List.map_cons, groupIds, groupIds, List.flatMap_cons, List.flatMap_cons]
    refine List.Sublist.append ?_ ih
    unfold clearGroup
    split
    · exact List.nil_sublist _
    · exact .refl _

/-- The numbers that are left are those that were in no group of the name. -/
theorem mem_clearGroup (hnodup : (groupIds groups).Nodup) :
    id ∈ groupIds (groups.map (clearGroup name)) ↔ id ∈ groupIds groups ∧
      (groups.any fun group => group.name == name && group.annotations.contains id) = false := by
  induction groups with
  | nil => simp [groupIds]
  | cons group rest ih =>
    rw [groupIds, List.flatMap_cons, List.nodup_append] at hnodup
    obtain ⟨-, hrest, hdisjoint⟩ := hnodup
    rw [List.map_cons, groupIds, groupIds, List.flatMap_cons, List.flatMap_cons, List.mem_append,
      List.mem_append, List.any_cons, Bool.or_eq_false_iff]
    change _ ∨ id ∈ groupIds (rest.map (clearGroup name)) ↔
      (_ ∨ id ∈ groupIds rest) ∧ _
    rw [ih hrest]
    by_cases hid : id ∈ group.annotations
    · -- no other group has it
      have hnot : id ∉ groupIds rest := fun hmem => hdisjoint id hid id hmem rfl
      have hnone : ∀ other ∈ rest, other.name = name → id ∉ other.annotations :=
        fun other hother _ hmem => hnot (List.mem_flatMap.2 ⟨other, hother, hmem⟩)
      by_cases hname : group.name = name
      · simp [clearGroup, hname, hid, hnot]
      · simpa [clearGroup, hname, hid] using hnone
    · by_cases hname : group.name = name
      · simp [clearGroup, hname, hid]
      · simp [clearGroup, hname, hid]

end Groups

/-! ## What keeps the groups sound -/

namespace GroupsSound

variable {next next' : ℕ} {annotations : List Annotation} {groups groups' : List AnnotationGroup}

theorem mono (h : GroupsSound next annotations groups) (hnext : next ≤ next') :
    GroupsSound next' annotations groups :=
  ⟨h.nodup, h.mem_iff, fun a ha => (h.lt_next a ha).trans_le hnext⟩

/-- The groups may list their numbers in another order. -/
theorem perm (h : GroupsSound next annotations groups) (hperm : (groupIds groups').Perm (groupIds groups)) :
    GroupsSound next annotations groups' :=
  ⟨hperm.nodup_iff.2 h.nodup, fun id => (hperm.mem_iff).trans (h.mem_iff id), h.lt_next⟩

theorem nil (next : ℕ) (h : groupIds groups = []) : GroupsSound next [] groups :=
  ⟨by rw [h]; exact List.nodup_nil, fun id => by rw [h]; exact Iff.rfl, by simp⟩

/-- A new annotation goes to the default group. -/
theorem added (h : GroupsSound next annotations groups)
    (hgroup : HasGroup WaveData.defaultGroupName groups) (attached : List DisplayedItemRef) :
    GroupsSound (next + 1) (annotations ++ [{ id := next, attached }])
      (WaveData.addToGroup WaveData.defaultGroupName next groups) := by
  have hperm : (groupIds (WaveData.addToGroup WaveData.defaultGroupName next groups)).Perm
      (next :: groupIds groups) := groupIds_addToGroup hgroup
  have hnew : next ∉ groupIds groups := by
    intro hmem
    obtain ⟨a, ha, hid⟩ := List.mem_map.1 ((h.mem_iff next).1 hmem)
    exact absurd (h.lt_next a ha) (hid ▸ lt_irrefl next)
  refine ⟨hperm.nodup_iff.2 (List.nodup_cons.2 ⟨hnew, h.nodup⟩), fun id => ?_, fun a ha => ?_⟩
  · rw [hperm.mem_iff, List.mem_cons, h.mem_iff id, List.map_append, List.mem_append, List.map_singleton,
      List.mem_singleton]
    exact or_comm
  · rcases List.mem_append.1 ha with ha | ha
    · exact (h.lt_next a ha).trans (Nat.lt_succ_self next)
    · rw [List.mem_singleton.1 ha]
      exact Nat.lt_succ_self next

theorem removed (h : GroupsSound next annotations groups) (id : AnnotationId) :
    GroupsSound next (annotations.filter fun a => a.id != id)
      ((WaveData.removeFromGroups id groups).getD groups) := by
  have hlt : ∀ a ∈ annotations.filter fun a => a.id != id, a.id < next :=
    fun a ha => h.lt_next a (List.mem_of_mem_filter ha)
  have hids : ∀ id', id' ∈ (annotations.filter fun a => a.id != id).map Annotation.id ↔
      id' ∈ annotations.map Annotation.id ∧ id' ≠ id := by
    intro id'
    simp only [List.mem_map, List.mem_filter, bne_iff_ne]
    constructor
    · rintro ⟨a, ⟨ha, hne⟩, rfl⟩
      exact ⟨⟨a, ha, rfl⟩, hne⟩
    · rintro ⟨⟨a, ha, rfl⟩, hne⟩
      exact ⟨a, ⟨ha, hne⟩, rfl⟩
  cases hremove : WaveData.removeFromGroups id groups with
  | none =>
    refine ⟨h.nodup, fun id' => ?_, hlt⟩
    rw [hids, ← h.mem_iff id']
    refine ⟨fun hmem => ⟨hmem, ?_⟩, And.left⟩
    rintro rfl
    exact not_mem_of_removeFromGroups hremove hmem
  | some groups' =>
    have hperm := (groupIds_removeFromGroups hremove).1
    obtain ⟨hnot, hnodup⟩ := List.nodup_cons.1 (hperm.nodup_iff.1 h.nodup)
    refine ⟨hnodup, fun id' => ?_, hlt⟩
    rw [hids, ← h.mem_iff id', hperm.mem_iff, List.mem_cons]
    constructor
    · intro hmem
      exact ⟨.inr hmem, fun heq => hnot (heq ▸ hmem)⟩
    · rintro ⟨heq | hmem, hne⟩
      · exact absurd heq hne
      · exact hmem

/-- A new group is empty. -/
theorem createGroup (h : GroupsSound next annotations groups) (name : String) :
    GroupsSound next annotations (groups ++ [{ name, cycleCounter := 0, annotations := [] }]) := by
  refine h.perm (.of_eq ?_)
  rw [groupIds, List.flatMap_append, List.flatMap_singleton, List.append_nil]
  rfl

theorem removeAll (h : GroupsSound next annotations groups) (name : String) :
    GroupsSound next
      (annotations.filter fun a =>
        !groups.any fun group => group.name == name && group.annotations.contains a.id)
      (groups.map (clearGroup name)) := by
  refine ⟨h.nodup.sublist (clearGroup_sublist name groups), fun id => ?_,
    fun a ha => h.lt_next a (List.mem_of_mem_filter ha)⟩
  rw [mem_clearGroup h.nodup, h.mem_iff id]
  simp only [List.mem_map, List.mem_filter, Bool.not_eq_true']
  constructor
  · rintro ⟨⟨a, ha, rfl⟩, hnone⟩
    exact ⟨a, ⟨ha, hnone⟩, rfl⟩
  · rintro ⟨a, ⟨ha, hnone⟩, rfl⟩
    exact ⟨⟨a, ha, rfl⟩, hnone⟩

/-- A number goes to another group. -/
theorem moveToGroup (h : GroupsSound next annotations groups) {id : AnnotationId} {name : String}
    (hremove : WaveData.removeFromGroups id groups = some groups') (hgroup : HasGroup name groups) :
    GroupsSound next annotations (WaveData.addToGroup name id groups') := by
  obtain ⟨hperm, hnames⟩ := groupIds_removeFromGroups hremove
  exact h.perm ((groupIds_addToGroup ((hasGroup_congr hnames).2 hgroup)).trans hperm.symm)

end GroupsSound

/-- Edits that neither annotate nor remove an item with an annotation change no annotation. -/
theorem annotations_of_edits {e : Effect} {c c' : Contents} (hannotates : ¬ e.annotates)
    (hremoves : ∀ k, e.removes k → ∀ a ∈ c.annotations, k ∉ a.attached)
    (hedits : Relation.ReflTransGen (Edit e) c c') :
    c'.annotations = c.annotations ∧ c'.groups = c.groups := by
  induction hedits with
  | refl => exact ⟨rfl, rfl⟩
  | tail _ hedit ih =>
    cases hedit with
    | rearrange | add | addMarker | moveMarker | drop => exact ih
    | @remove refs removed _ hremoved =>
      have hforget : ∀ (ks : List DisplayedItemRef) (d : Contents), (∀ k ∈ ks, e.removes k) →
          d.annotations = c.annotations → (ks.foldl Contents.forget d).annotations = c.annotations := by
        intro ks
        induction ks with
        | nil => exact fun _ _ hd => hd
        | cons k rest ihks =>
          intro d hks hd
          rw [List.forall_mem_cons] at hks
          refine ihks _ hks.2 ?_
          show d.annotations.filter _ = _
          rw [hd, List.filter_eq_self]
          intro a ha
          simpa using hremoves k hks.1 a ha
      exact ⟨hforget removed _ hremoved ih.1, (Contents.foldl_forget _ _).2.2.2.trans ih.2⟩
    | annotate ha => exact absurd ha hannotates

/-! ## Runs -/

/-- The groups partition the annotations: the number of an annotation is in one group, once, and each
number in a group is that of an annotation. -/
structure WaveData.GroupsPartition (w : WaveData) : Prop where
  count_eq_one : ∀ a ∈ w.annotations, (groupIds w.annotationGroups).count a.id = 1
  exists_annotation : ∀ group ∈ w.annotationGroups, ∀ id ∈ group.annotations,
    ∃ a ∈ w.annotations, a.id = id

theorem GroupsSound.partition {next : ℕ} {w : WaveData}
    (h : GroupsSound next w.annotations w.annotationGroups) : w.GroupsPartition where
  count_eq_one a ha := by
    refine List.count_eq_one_of_mem h.nodup ((h.mem_iff a.id).2 ?_)
    exact List.mem_map_of_mem ha
  exists_annotation group hgroup id hid :=
    List.mem_map.1 ((h.mem_iff id).1 (List.mem_flatMap.2 ⟨group, hgroup, hid⟩))

/-- What keeps the groups in line with the annotations. A waveform that takes the place of another empties
the groups, so there may be no annotations. A new annotation needs the default group, a group that is
deleted has to be empty, and an annotation that is moved needs its new group. A removed item may have no
annotation. -/
def Message.KeepsGroups (w : WaveData) (m : Message) : Prop :=
  match m with
  | .wavesLoaded _ .clear => True
  | .wavesLoaded .. => w.annotations = []
  | .rectangleAdded .. | .arrowAdded .. => HasGroup WaveData.defaultGroupName w.annotationGroups
  | .deleteAnnotationGroup name =>
    ∀ group, w.annotationGroups.find? (·.name == name) = some group → group.annotations = []
  | .updateAnnotationGroup id name =>
    (∀ group ∈ w.annotationGroups, id ∉ group.annotations) ∨
      ∃ group, name = some group ∧ HasGroup group w.annotationGroups
  | m => ∀ k, m.Removes w k → ∀ a ∈ w.annotations, k ∉ a.attached

namespace SystemState

variable {env : Env} {σ σ' : SystemState} {w w' : WaveData}

/-- `Message.KeepsGroups` in the state, and the annotations of a loaded state are in its groups and have
numbers that were handed out. -/
def KeepsGroups (σ : SystemState) (m : Message) : Prop :=
  (∀ w, σ.user.waves = some w → m.KeepsGroups w) ∧
    ∀ loaded new, m = .loadState loaded → loaded.waves = some new →
      GroupsSound σ.annotationIdSource new.annotations new.annotationGroups

/-- The groups of a display or a snapshot are sound. -/
def SoundFor (next : ℕ) (c : Contents) : Prop := GroupsSound next c.annotations c.groups

theorem annotationIdSource_onWaves {f : WaveData → Run WaveData} (h : σ.onWaves f = .ok σ') :
    σ'.annotationIdSource = σ.annotationIdSource := by
  unfold onWaves at h
  split at h
  · cases h
    rfl
  · simp only [Except.bind_eq_ok] at h
    obtain ⟨w, -, h⟩ := h
    cases h
    rfl

theorem annotationIdSource_saveCurrentCanvas (env : Env) (σ : SystemState) (message : String) :
    (σ.saveCurrentCanvas env message).annotationIdSource = σ.annotationIdSource := by
  unfold saveCurrentCanvas
  split <;> rfl

theorem annotationIdSource_edit {message : String} {f : WaveData → Run WaveData}
    (h : σ.edit env message f = .ok σ') : σ'.annotationIdSource = σ.annotationIdSource :=
  (annotationIdSource_onWaves h).trans (annotationIdSource_saveCurrentCanvas env σ message)

/-- Only a new annotation uses a number up. -/
theorem annotationIdSource_le {m : Message} (h : σ.update env m = .ok σ') :
    σ.annotationIdSource ≤ σ'.annotationIdSource := by
  have hedit : ∀ {message : String} {f : WaveData → Run WaveData}, σ.edit env message f = .ok σ' →
      σ.annotationIdSource ≤ σ'.annotationIdSource := fun h => (annotationIdSource_edit h).ge
  have hon : ∀ {f : WaveData → Run WaveData}, σ.onWaves f = .ok σ' →
      σ.annotationIdSource ≤ σ'.annotationIdSource := fun h => (annotationIdSource_onWaves h).ge
  cases m with
  | addVariables vars =>
    simp only [update] at h
    split at h
    · cases h
      exact le_rfl
    · exact hedit h
  | rectangleAdded | arrowAdded =>
    have hid := annotationIdSource_edit h
    rw [hid]
    exact Nat.le_succ _
  | removeVisibleItems target =>
    cases target with
    | explicit => exact hedit h
    | currentSelection => exact hedit h
  | resolveMarkerSet name time =>
    simp only [update, resolveMarkerSet] at h
    split at h
    · cases h
      exact le_rfl
    · split at h
      · exact hedit h
      · exact hedit h
  | resolveMarkerRemove name =>
    simp only [update, resolveMarkerRemove] at h
    split at h
    · exact hon h
    · cases h
      exact le_rfl
  | focusTransaction txRef tx =>
    simp only [update, focusTransaction] at h
    split at h
    · exact hedit h
    · exact hon h
  | addDraggedVariables refs =>
    simp only [update, addDraggedVariables] at h
    split at h
    · cases h
      exact le_rfl
    · simp only [Except.bind_eq_ok] at h
      obtain ⟨_, -, h⟩ := h
      cases h
      exact le_rfl
  | variableDragFinished =>
    simp only [update, variableDragFinished] at h
    split at h
    · cases h
      exact le_rfl
    · split at h
      · cases h
        exact le_rfl
      · exact (annotationIdSource_edit h).ge
  | decoderAdd protocol items =>
    have hsaved := σ.annotationIdSource_saveCurrentCanvas env ("Add " ++ protocol.display ++ " decoder")
    simp only [update, decoderAdd] at h
    split at h
    · cases h
      exact hsaved.ge
    · split at h
      · cases h
        exact hsaved.ge
      · simp only [Except.bind_eq_ok] at h
        obtain ⟨_, -, h⟩ := h
        cases h
        exact hsaved.ge
  | undo count | redo count =>
    simp only [update, undo, redo] at h
    cases h
    split <;> exact le_rfl
  | wavesLoaded newWaves loadOptions =>
    simp only [update, onWavesLoaded] at h
    split at h
    · simp only [Except.bind_eq_ok] at h
      obtain ⟨_, -, h⟩ := h
      cases h
      exact le_rfl
    · simp only [Except.bind_eq_ok] at h
      obtain ⟨_, -, h⟩ := h
      cases h
      exact le_rfl
    · cases h
      exact le_rfl
  | loadState loaded =>
    simp only [update, loadState] at h
    split at h
    · simp only [Except.bind_eq_ok] at h
      obtain ⟨_, -, h⟩ := h
      cases h
      exact le_rfl
    · cases h
      exact le_rfl
  | variableDragStarted | variableDragTargetChanged =>
    cases h
    exact le_rfl
  | removeMarker | focusItem | unfocusItem | moveFocus | itemSelectRange | itemSelectAll | itemSelectionClear
  | setItemSelected | toggleItemSelected | removePlaceholders | annotationClicked
  | toggleAnnotationListVisibility => exact hon h
  | _ => exact hedit h

/-- One step keeps the groups of all canvases sound. -/
theorem groupsSound_step {m : Message} (hinv : ∃ w, σ.Holds (SoundFor σ.annotationIdSource) w)
    (hm : σ.KeepsGroups m) (h : σ.update env m = .ok σ') :
    ∃ w', σ'.Holds (SoundFor σ'.annotationIdSource) w' := by
  obtain ⟨w, hinv⟩ := hinv
  have hsource := annotationIdSource_le h
  have hkeeps := hm.1 w hinv.waves
  have hsound : GroupsSound σ.annotationIdSource w.annotations w.annotationGroups := hinv.display
  -- the canvases stay sound when more numbers are in use
  have hinv' : σ.Holds (SoundFor σ'.annotationIdSource) w :=
    ⟨hinv.waves, hinv.previousWaves, hsound.mono hsource,
      fun c hc => GroupsSound.mono (hinv.snapshots c hc) hsource⟩
  -- a change of the annotations and their groups
  have hchange : ∀ {message : String} {f : WaveData → Run WaveData}, σ.edit env message f = .ok σ' →
      (∀ w', f w = .ok w' → w'.displayItemRefCounter = w.displayItemRefCounter ∧
        GroupsSound σ.annotationIdSource w'.annotations w'.annotationGroups) →
      ∃ w', σ'.Holds (SoundFor σ'.annotationIdSource) w' := by
    intro message f h hf
    obtain ⟨w', hfw, hchanged⟩ := changed_edit hinv.waves h
    obtain ⟨hcounter, hsound'⟩ := hf w' hfw
    exact ⟨w', hinv'.of_changed (fun _ _ hc _ => hc) hchanged hcounter.ge (hsound'.mono hsource)⟩
  by_cases hannotates : m.Annotates
  · cases m with
    | rectangleAdded waveFrom waveTo | arrowAdded wavePointFrom wavePointTo =>
      have hid := annotationIdSource_edit h
      obtain ⟨w', hf, hchanged⟩ := changed_edit (by exact hinv.waves) h
      cases hf
      refine ⟨_, hinv'.of_changed (fun _ _ hc _ => hc)
        ⟨hchanged.waves, hchanged.previousWaves, hchanged.snapshots⟩ le_rfl ?_⟩
      rw [hid]
      exact hsound.added hkeeps _
    | removeAnnotation id =>
      refine hchange h fun w' hw' => ?_
      cases hw'
      exact ⟨rfl, hsound.removed id⟩
    | createAnnotationGroup name =>
      refine hchange h fun w' hw' => ?_
      cases hw'
      exact ⟨rfl, hsound.createGroup name⟩
    | deleteAnnotationGroup name =>
      refine hchange h fun w' hw' => ?_
      cases hw'
      exact ⟨rfl, hsound.perm (.of_eq (groupIds_eraseP hkeeps))⟩
    | deleteAllAnnotationInGroup name =>
      refine hchange h fun w' hw' => ?_
      cases hw'
      exact ⟨rfl, hsound.removeAll name⟩
    | updateAnnotationGroup id name =>
      refine hchange h fun w' hw' => ?_
      cases hw'
      unfold WaveData.updateAnnotationGroup
      split
      next => exact ⟨rfl, hsound⟩
      next groups hremove =>
        rcases hkeeps with hnone | ⟨group, rfl, hgroup⟩
        · have hmem := (groupIds_removeFromGroups hremove).1.mem_iff.2 List.mem_cons_self
          obtain ⟨group, hgroup, hid⟩ := List.mem_flatMap.1 hmem
          exact absurd hid (hnone group hgroup)
        · exact ⟨rfl, hsound.moveToGroup hremove hgroup⟩
    | _ => exact hannotates.elim
  · have hremoves : ∀ k, m.Removes w k → ∀ a ∈ w.annotations, k ∉ a.attached := by
      cases m with
      | rectangleAdded | arrowAdded | deleteAnnotationGroup | updateAnnotationGroup =>
        exact absurd trivial hannotates
      | wavesLoaded => exact fun _ => False.elim
      | _ => exact hkeeps
    refine hinv'.step (fun _ _ hc _ => hc) (fun e c' hr _ ha hedits => ?_) (fun c' hc' hgroups => ?_)
      (fun c' hc' => ⟨?_, hinv'.snapshots⟩) h
    · obtain ⟨hannotations, hgroups⟩ := annotations_of_edits (fun he => hannotates (ha he))
        (fun k hk => hremoves k (hr k hk)) hedits
      rw [SoundFor, hannotations, hgroups]
      exact hinv'.display
    · rw [SoundFor, hc'.annotations, hgroups]
      exact hinv'.display
    · cases m with
      | wavesLoaded newWaves loadOptions =>
        cases loadOptions with
        | clear =>
          obtain rfl := hc'
          exact .nil _ rfl
        | keepAvailable | keepAll =>
          have hempty : w.contents.annotations = [] := hkeeps
          rw [SoundFor, hc'.1.annotations, hc'.2, hempty]
          exact .nil _ rfl
      | loadState loaded =>
        simp only [Message.Loads] at hc'
        cases hloaded : loaded.waves with
        | none =>
          rw [hloaded] at hc'
          obtain rfl := hc'
          exact hinv'.display
        | some new =>
          rw [hloaded] at hc'
          rw [SoundFor, hc'.1.annotations, hc'.2]
          exact (hm.2 loaded new rfl hloaded).mono hsource
      | _ => exact hc'.elim

/-- In every run that keeps the groups in line with the annotations, they partition them in every state. -/
theorem groups_partition {inner : WaveContainer}
    (h : Transition.Reachable (update env) KeepsGroups (fresh inner) σ) :
    ∀ w, σ.user.waves = some w → w.GroupsPartition := by
  have hstart : ∃ w, (fresh inner).Holds (SoundFor (fresh inner).annotationIdSource) w :=
    ⟨_, rfl, rfl, .nil 0 rfl, by simp [fresh, SystemState.snapshots]⟩
  obtain ⟨w, hinv⟩ := h.invariant (I := fun σ => ∃ w, σ.Holds (SoundFor σ.annotationIdSource) w) hstart
    fun _ _ _ hinv hm hstep => groupsSound_step hinv hm hstep
  intro w' hw'
  obtain rfl : w = w' := Option.some.inj (hinv.waves.symm.trans hw')
  exact GroupsSound.partition hinv.display

/-- New annotations have the default group, those that are moved have their new group, nothing is removed
that has an annotation, and nothing is loaded. -/
def staysGrouped (σ : SystemState) (m : Message) : Bool :=
  match m with
  | .rectangleAdded .. | .arrowAdded .. =>
    σ.user.waves.all fun w => w.annotationGroups.any (·.name == WaveData.defaultGroupName)
  | .updateAnnotationGroup _ (some name) =>
    σ.user.waves.all fun w => w.annotationGroups.any (·.name == name)
  | .removeItems _ => σ.user.waves.all fun w => w.annotations.all fun a => a.attached.isEmpty
  | .addDivider .. | Message.removeAnnotation _ | .createAnnotationGroup _ | .deleteAllAnnotationInGroup _
  | .undo _ => true
  | _ => false

theorem keepsGroups_of_staysGrouped (σ : SystemState) (m : Message) (h : σ.staysGrouped m = true) :
    σ.KeepsGroups m := by
  have hgroup : ∀ {w : WaveData} {name : String}, σ.user.waves = some w →
      (σ.user.waves.all fun w => w.annotationGroups.any (·.name == name)) = true →
      HasGroup name w.annotationGroups := by
    intro w name hw h
    rw [hw, Option.all_some, List.any_eq_true] at h
    obtain ⟨group, hmem, hname⟩ := h
    exact ⟨group, hmem, by simpa using hname⟩
  cases m with
  | rectangleAdded | arrowAdded =>
    refine ⟨fun w hw => ?_, fun _ _ hload => nomatch hload⟩
    show HasGroup WaveData.defaultGroupName w.annotationGroups
    exact hgroup hw h
  | updateAnnotationGroup id name =>
    cases name with
    | none => cases h
    | some name => exact ⟨fun w hw => .inr ⟨name, rfl, hgroup hw h⟩, fun _ _ hload => nomatch hload⟩
  | removeItems items =>
    refine ⟨fun w hw k _ a ha => ?_, fun _ _ hload => nomatch hload⟩
    simp only [staysGrouped, hw, Option.all_some, List.all_eq_true, List.isEmpty_iff] at h
    rw [h a ha]
    exact List.not_mem_nil
  | addDivider | removeAnnotation | createAnnotationGroup | deleteAllAnnotationInGroup | undo =>
    exact ⟨fun w _ k => False.elim, fun _ _ hload => nomatch hload⟩
  | _ => cases h

/-- Annotations are added and put in groups; one of them and a divider are removed, and this is undone. -/
theorem groups_partition_moved :
    ∃ σ w, Transition.checkedRun (update defaultEnv) staysGrouped (fresh linkWaves)
        [.addDivider none none, .rectangleAdded none none, .createAnnotationGroup "bugs",
          .arrowAdded none none, .updateAnnotationGroup 0 (some "bugs"),
          .deleteAllAnnotationInGroup "Ungrouped", .removeItems [1], .undo 2] = some σ ∧
      σ.user.waves = some w ∧ w.annotationGroups.map AnnotationGroup.annotations = [[1], [0]] ∧
      w.GroupsPartition := by
  obtain ⟨σ, hrun, hreach, htest⟩ := Transition.exists_reachable_of_checkedRun (update defaultEnv)
    KeepsGroups (fresh linkWaves) staysGrouped
    [.addDivider none none, .rectangleAdded none none, .createAnnotationGroup "bugs",
      .arrowAdded none none, .updateAnnotationGroup 0 (some "bugs"),
      .deleteAllAnnotationInGroup "Ungrouped", .removeItems [1], .undo 2]
    (fun σ => σ.user.waves.any fun w => w.annotationGroups.map AnnotationGroup.annotations = [[1], [0]])
    keepsGroups_of_staysGrouped (by decide)
  obtain ⟨w, hw, hgroups⟩ := (Option.any_eq_true _ _).1 htest
  exact ⟨σ, w, hrun, hw, by simpa using hgroups, groups_partition hreach w hw⟩

/-- A waveform that takes the place of another leaves the annotations without groups. -/
theorem not_groupsPartition_reloaded :
    ¬ ∀ (env : Env) (inner : WaveContainer) (σ : SystemState),
      Transition.Reachable (update env) (fun _ _ => True) (fresh inner) σ →
        ∀ w, σ.user.waves = some w → w.GroupsPartition := by
  intro h
  obtain ⟨σ, -, hreach, htest⟩ := Transition.exists_reachable_of_run (update defaultEnv)
    (fun _ _ => True) (fresh linkWaves) [.rectangleAdded none none, .wavesLoaded linkWaves .keepAll]
    (fun σ => σ.user.waves.any fun w =>
      w.annotations.map Annotation.id = [0] ∧ groupIds w.annotationGroups = [])
    (by simp) (by decide)
  obtain ⟨w, hw, hids⟩ := (Option.any_eq_true _ _).1 htest
  rw [decide_eq_true_eq] at hids
  obtain ⟨a, ha, -⟩ := List.mem_map.1 (hids.1 ▸ List.mem_singleton_self 0)
  have hcount := (h defaultEnv linkWaves σ hreach w hw).count_eq_one a ha
  rw [hids.2] at hcount
  cases hcount

end SystemState

end Wave
