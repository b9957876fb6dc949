import Kahuna.Outline.Trees
import Kahuna.Wave.Placing

/-!
# Scopes as groups

`add_scope_as_group` puts in a group for a scope, behind it the variables of the scope, and behind those the groups
of the scopes inside it. Each step starts where the one before it has ended, so that the places are accepted one
after the other, once the first one is.

- `scopeGroups`: the tree of groups that a tree of scopes should become;
- `Stacked`: items that have been put in, all of them below the first or beside it, with `Stacked.append` for the next;
- `addScopeAsGroup_stacked`: a scope with everything inside it, by induction on its tree;
- `mirrorsScope_iff`: the scopes are mirrored exactly when the place at the focus is accepted.
-/

namespace Wave

open ItemTree Outline DisplayedItemTree Decoders

namespace WaveData

variable {w w' w₁ w₂ : WaveData} {position : TargetPosition} {contents contents' : List (ℕ × DisplayedItem)}
  {item : DisplayedItem} {env : Env} {l : ℕ}

/-! ## The groups of a tree of scopes -/

/-- A group for each scope, with the variables of the scope, and behind them the groups of the scopes inside it. -/
def scopeGroups (env : Env) (w : WaveData) (scopes : Outline.Tree ScopeRef) : Outline.Tree DisplayedItem :=
  scopes.expand (fun scope => .group scope.name) fun scope => (w.sortedVariables env scope).map variableItem

/-- A scope and all scopes inside it are added in one block, which is their tree of groups, and all other items keep
their order, their levels and their parents. The place is that of the focus. -/
def MirrorsScope (env : Env) (w : WaveData) (depth : ℕ) (scopes : Outline.Tree ScopeRef) : Prop :=
  ∃ next w' n level block contents,
    addScopeAsGroup env depth true scopes.value
      ((w.insertPosition w.focusedItem).getD w.endInsertPosition) w = .ok (next, w') ∧
    AddsBlock w n block contents w' ∧ Outline.Tree.read contents = [(level, scopeGroups env w scopes)] ∧
    w.KeepsParents n block.length w'

/-- What is written down of a scope: its group, its variables, and the scopes inside it. -/
theorem outline_scopeGroups (scope : ScopeRef) (children : List (Outline.Tree ScopeRef)) :
    (scopeGroups env w (.node scope children)).outline l
      = ((l, .group scope.name) :: (w.sortedVariables env scope).map fun r => (l + 1, variableItem r))
        ++ Outline.Tree.outlines (l + 1) (children.map (scopeGroups env w)) := by
  rw [scopeGroups, Outline.Tree.expand_node, Outline.Tree.outline_node, Outline.Tree.outlines_append,
    Outline.Tree.outlines_leaves, List.map_map]
  rfl

/-- The variables of a scope are in the file. -/
theorem exists_variableMeta {r : VariableRef} {scope : ScopeRef} (h : r ∈ w.sortedVariables env scope) :
    ∃ v, w.inner.variableMeta r = .ok (some v) := by
  have hmem : r ∈ w.inner.variablesInScope scope := (List.perm_insertionSort _ _).mem_iff.1 h
  have href : ∃ id, w.inner.refIn scope id = some r := by
    unfold WaveContainer.variablesInScope at hmem
    split at hmem
    · obtain ⟨id, -, hid⟩ := List.mem_filterMap.1 hmem
      exact ⟨id, hid⟩
    · split at hmem
      · cases hmem
      · obtain ⟨id, -, hid⟩ := List.mem_filterMap.1 hmem
        exact ⟨id, hid⟩
  obtain ⟨id, hid⟩ := href
  rw [WaveContainer.refIn, Option.bind_eq_some_iff] at hid
  obtain ⟨v, hv, hid⟩ := hid
  split at hid
  · cases hid
  · obtain rfl := Option.some.inj hid
    refine ⟨v, ?_⟩
    simp only [WaveContainer.variableMeta, WaveContainer.getVar, WaveContainer.getVarRef, hv]

/-- So their signals can be requested. -/
theorem loadVariables_eq_ok {refs : List VariableRef} {inner : WaveContainer}
    (h : ∀ r ∈ refs, ∃ v, inner.variableMeta r = .ok (some v)) : inner.loadVariables refs = .ok () := by
  induction refs with
  | nil => rfl
  | cons r rest ih =>
    rw [List.forall_mem_cons] at h
    obtain ⟨v, hv⟩ := h.1
    rw [WaveContainer.variableMeta] at hv
    rw [WaveContainer.loadVariables, hv]
    exact ih h.2

/-! ## Items that are put in one behind the other -/

/-- Items have been put in at an accepted place, the first of them at the level of the place, and none of them is
shallower. -/
structure Stacked (w : WaveData) (position : TargetPosition) (contents : List (ℕ × DisplayedItem))
    (w₁ : WaveData) : Prop where
  wellFormed : w.itemsTree.WellFormed
  accepted : checkLocation w.itemsTree.items position = .ok ()
  adds : ∃ block, AddsBlock w position.before block contents w₁
  head : contents.head?.map Prod.fst = some position.level
  deep : ∀ c ∈ contents, position.level ≤ c.1

/-- The first item. -/
theorem stacked_insertItem (hwf : w.itemsTree.WellFormed)
    (hcheck : checkLocation w.itemsTree.items position = .ok ()) (item : DisplayedItem) (moveFocus : Bool) :
    ∃ w', w.insertItem item (some position) moveFocus = .ok (w.displayItemRefCounter + 1, w') ∧
      Stacked w position [(position.level, item)] w' := by
  obtain ⟨w', hrun, hadds⟩ := @addsBlock_insertItem _ (some position) hwf hcheck item moveFocus
  exact ⟨w', hrun, hwf, hcheck, ⟨_, hadds⟩, rfl, by simp⟩

namespace Stacked

theorem wellFormed' (h : Stacked w position contents w₁) : w₁.itemsTree.WellFormed := by
  obtain ⟨block, hadds⟩ := h.adds
  exact hadds.wellFormed

theorem inner (h : Stacked w position contents w₁) : w₁.inner = w.inner := by
  obtain ⟨block, hadds⟩ := h.adds
  exact hadds.inner

/-- Behind the items the next place is accepted, at the level of the first of them or one level deeper. -/
theorem checkLocation_next (h : Stacked w position contents w₁) (hl : position.level ≤ l)
    (hl' : l ≤ position.level + 1) (hmax : l ≤ maxLevel) :
    checkLocation w₁.itemsTree.items ⟨position.before + contents.length, l⟩ = .ok () := by
  obtain ⟨block, hadds⟩ := h.adds
  obtain ⟨-, -, -, hbehind⟩ := (checkLocation_iff h.wellFormed).1 h.accepted
  have hlevels := hadds.levels_eq
  have hdeep : ∀ x ∈ block, position.level ≤ x.1 := by
    intro x hx
    have hmem : x.1 ∈ contents.map Prod.fst := hlevels ▸ List.mem_map_of_mem hx
    obtain ⟨c, hc, heq⟩ := List.mem_map.1 hmem
    exact heq ▸ h.deep c hc
  rw [← hadds.length_eq]
  refine (hadds.inserted.checkLocation_iff hadds.wellFormed le_rfl).2 ⟨hmax, ?_, fun x hx => ?_⟩
  · rw [List.take_length, boundAfter_append]
    cases block with
    | nil =>
      -- there is a first item
      have hhead := h.head
      rw [← List.head?_map, ← hlevels] at hhead
      cases hhead
    | cons x block =>
      rw [boundAfter_cons]
      rw [List.forall_mem_cons] at hdeep
      refine le_boundAfter (hl'.trans (Nat.succ_le_succ hdeep.1)) fun y hy => ?_
      exact hl'.trans (Nat.succ_le_succ (hdeep.2 y hy))
  · rw [List.drop_length, List.nil_append] at hx
    exact (hbehind x hx).trans hl

/-- More items are put in behind. -/
theorem append (h : Stacked w position contents w₁) (hl : position.level ≤ l)
    (h' : Stacked w₁ ⟨position.before + contents.length, l⟩ contents' w₂) :
    Stacked w position (contents ++ contents') w₂ := by
  obtain ⟨block, hadds⟩ := h.adds
  obtain ⟨block', hadds'⟩ := h'.adds
  refine ⟨h.wellFormed, h.accepted, ⟨block ++ block', hadds.append ?_⟩, ?_, fun c hc => ?_⟩
  · rw [hadds.length_eq]
    exact hadds'
  · have hhead := h.head
    cases contents with
    | nil => cases hhead
    | cons c contents => exact hhead
  · rcases List.mem_append.1 hc with hc | hc
    · exact h.deep c hc
    · exact hl.trans (h'.deep c hc)

/-- Variables are put in one behind the other. -/
theorem addVariablesLoop (h : Stacked w position contents w₁) (hl : position.level ≤ l)
    (hl' : l ≤ position.level + 1) (hmax : l ≤ maxLevel) {refs : List VariableRef}
    (hmeta : ∀ r ∈ refs, ∃ v, w.inner.variableMeta r = .ok (some v)) :
    ∃ itemRefs w₂, WaveData.addVariablesLoop false refs ⟨position.before + contents.length, l⟩ w₁
        = .ok (itemRefs, w₂) ∧ itemRefs.length = refs.length ∧
      Stacked w position (contents ++ refs.map fun r => (l, variableItem r)) w₂ := by
  induction refs generalizing contents w₁ with
  | nil => exact ⟨[], w₁, rfl, rfl, by rwa [List.map_nil, List.append_nil]⟩
  | cons r rest ih =>
    rw [List.forall_mem_cons] at hmeta
    obtain ⟨v, hv⟩ := hmeta.1
    obtain ⟨w₂, hrun, hstacked⟩ := stacked_insertItem h.wellFormed' (h.checkLocation_next hl hl' hmax)
      (variableItem r) true
    obtain ⟨itemRefs, w₃, hrest, hlen, hall⟩ := ih (h.append hl hstacked) hmeta.2
    rw [List.length_append, List.length_singleton] at hrest
    refine ⟨(w₁.displayItemRefCounter + 1) :: itemRefs, w₃, ?_, by simp [hlen], ?_⟩
    · rw [WaveData.addVariablesLoop, h.inner, hv]
      simp only [Except.bind_eq_ok]
      exact ⟨_, hrun, _, hrest, rfl⟩
    · rwa [List.append_assoc] at hall

/-- The scopes of a scope are put in one behind the other. -/
theorem addScopesAsGroups {add : ScopeRef → TargetPosition → WaveData → Run (TargetPosition × WaveData)}
    {groups : Outline.Tree ScopeRef → Outline.Tree DisplayedItem} {children : List (Outline.Tree ScopeRef)}
    (h : Stacked w position contents w₁) (hl : position.level ≤ l) (hl' : l ≤ position.level + 1)
    (hmax : l ≤ maxLevel)
    (hadd : ∀ child ∈ children, ∀ (w₁ : WaveData) (pos : TargetPosition), w₁.inner = w.inner →
      w₁.itemsTree.WellFormed → pos.level = l → checkLocation w₁.itemsTree.items pos = .ok () →
      ∃ next w₂, add child.value pos w₁ = .ok (next, w₂) ∧
        next.before = pos.before + ((groups child).outline l).length ∧
        Stacked w₁ pos ((groups child).outline l) w₂) :
    ∃ next w₂, WaveData.addScopesAsGroups add l (children.map Outline.Tree.value)
        ⟨position.before + contents.length, l⟩ w₁
        = .ok (next, w₂) ∧
      next.before = position.before + (contents ++ Outline.Tree.outlines l (children.map groups)).length ∧
      Stacked w position (contents ++ Outline.Tree.outlines l (children.map groups)) w₂ := by
  induction children generalizing contents w₁ with
  | nil =>
    rw [List.map_nil, List.map_nil, Outline.Tree.outlines, List.append_nil]
    exact ⟨_, w₁, rfl, rfl, h⟩
  | cons child rest ih =>
    rw [List.forall_mem_cons] at hadd
    obtain ⟨next, w₂, hrun, hnext, hstacked⟩ := hadd.1 w₁ ⟨position.before + contents.length, l⟩ h.inner
      h.wellFormed' rfl (h.checkLocation_next hl hl' hmax)
    obtain ⟨next', w₃, hrest, hnext', hall⟩ := ih (h.append hl hstacked) hadd.2
    rw [List.map_cons, List.map_cons, Outline.Tree.outlines, ← List.append_assoc]
    refine ⟨next', w₃, ?_, hnext', hall⟩
    simp only [WaveData.addScopesAsGroups, Except.bind_eq_ok]
    refine ⟨(next, w₂), hrun, ?_⟩
    rw [List.length_append, ← Nat.add_assoc] at hrest
    rwa [hnext]

end Stacked

/-! ## Scopes -/

/-- The group of a scope, and its variables behind it. -/
theorem addScopeVariables_stacked (hwf : w.itemsTree.WellFormed)
    (hcheck : checkLocation w.itemsTree.items position = .ok ()) (hlevel : position.level < maxLevel)
    (scope : ScopeRef) : ∃ w', addScopeVariables env scope position w
        = .ok (⟨position.before + ((w.sortedVariables env scope).length + 1), position.level + 1⟩, w') ∧
      Stacked w position ((position.level, .group scope.name)
        :: (w.sortedVariables env scope).map fun r => (position.level + 1, variableItem r)) w' := by
  have hwrap : wrappingAdd position.level 1 = position.level + 1 := Nat.mod_eq_of_lt (Nat.succ_lt_succ hlevel)
  have hmeta : ∀ r ∈ w.sortedVariables env scope, ∃ v, w.inner.variableMeta r = .ok (some v) :=
    fun r hr => exists_variableMeta hr
  obtain ⟨w₁, hgroup, hstacked⟩ := stacked_insertItem hwf hcheck (.group scope.name) true
  obtain ⟨itemRefs, w₂, hvars, hlen, hall⟩ := hstacked.addVariablesLoop (Nat.le_succ _) le_rfl hlevel hmeta
  refine ⟨w₂, ?_, hall⟩
  have hload : w₁.inner.loadVariables (w.sortedVariables env scope) = .ok () := by
    rw [hstacked.inner]
    exact loadVariables_eq_ok hmeta
  simp only [addScopeVariables, addGroup, Except.bind_eq_ok, hwrap]
  refine ⟨_, hgroup, (itemRefs, w₂), ?_, ?_⟩
  · rw [addVariables, hload]
    exact hvars
  · rw [hlen, Nat.add_assoc, Nat.add_comm 1]
    rfl

/-- A scope and all scopes inside it become their tree of groups. -/
theorem addScopeAsGroup_stacked {w₀ : WaveData} {scopes : Outline.Tree ScopeRef}
    (hscopes : scopes.Unfolds w₀.inner.childScopes) {depth : ℕ} (hinner : w.inner = w₀.inner)
    (hdepth : scopes.height ≤ depth) (hlevel : position.level + scopes.height < maxLevel)
    (hwf : w.itemsTree.WellFormed) (hcheck : checkLocation w.itemsTree.items position = .ok ()) :
    ∃ next w', addScopeAsGroup env depth true scopes.value position w = .ok (next, w') ∧
      next.before = position.before + ((scopeGroups env w₀ scopes).outline position.level).length ∧
      Stacked w position ((scopeGroups env w₀ scopes).outline position.level) w' := by
  induction hscopes generalizing depth w position with
  | node scope children hchildren hbelow ih =>
    rw [Outline.Tree.height_node] at hdepth hlevel
    have hvariables := sortedVariables_congr env hinner scope
    obtain ⟨w₁, hvars, hstacked⟩ := @addScopeVariables_stacked _ _ env hwf hcheck
      ((Nat.le_add_right _ _).trans_lt hlevel) scope
    rw [hvariables] at hvars hstacked
    rw [outline_scopeGroups]
    cases depth with
    | zero =>
      -- there are no scopes inside
      cases children with
      | cons child rest =>
        have hpos := Outline.Tree.height_lt_of_mem (List.mem_cons_self : child ∈ child :: rest)
        omega
      | nil =>
        rw [List.map_nil, Outline.Tree.outlines, List.append_nil]
        exact ⟨_, w₁, hvars, by simp, hstacked⟩
    | succ depth =>
      have hadd : ∀ child ∈ children, ∀ (w₂ : WaveData) (pos : TargetPosition), w₂.inner = w.inner →
          w₂.itemsTree.WellFormed → pos.level = position.level + 1 →
          checkLocation w₂.itemsTree.items pos = .ok () →
          ∃ next w', addScopeAsGroup env depth true child.value pos w₂ = .ok (next, w') ∧
            next.before = pos.before + ((scopeGroups env w₀ child).outline (position.level + 1)).length ∧
            Stacked w₂ pos ((scopeGroups env w₀ child).outline (position.level + 1)) w' := by
        intro child hchild w₂ pos hw₂ hwf₂ hpos hcheck₂
        have hlt := Outline.Tree.height_lt_of_mem hchild
        rw [← hpos]
        exact ih child hchild (hw₂.trans hinner) (by omega) (by omega) hwf₂ hcheck₂
      have hall := hstacked.addScopesAsGroups (Nat.le_succ _) le_rfl ((Nat.le_add_right _ _).trans_lt hlevel) hadd
      obtain ⟨next, w₂, hrun, hnext, hstacked₂⟩ := hall
      refine ⟨next, w₂, ?_, hnext, hstacked₂⟩
      simp only [addScopeAsGroup, Except.bind_eq_ok, if_true]
      refine ⟨_, hvars, ?_⟩
      show WaveData.addScopesAsGroups _ _ (w.inner.childScopes scope) _ _ = _
      rw [hinner, hchildren]
      rw [List.length_cons, List.length_map] at hrun
      exact hrun

/-- The group of a scope is inserted first. -/
theorem checkLocation_of_addScopeAsGroup {depth : ℕ} {recursive : Bool} {scope : ScopeRef}
    {r : TargetPosition × WaveData} (h : addScopeAsGroup env depth recursive scope position w = .ok r) :
    checkLocation w.itemsTree.items position = .ok () := by
  have hfirst : ∃ r, addScopeVariables env scope position w = .ok r := by
    cases depth with
    | zero => exact ⟨r, h⟩
    | succ depth =>
      simp only [addScopeAsGroup, Except.bind_eq_ok] at h
      obtain ⟨r', hfirst, -⟩ := h
      exact ⟨r', hfirst⟩
  obtain ⟨r', hfirst⟩ := hfirst
  simp only [addScopeVariables, addGroup, Except.bind_eq_ok] at hfirst
  obtain ⟨r'', hgroup, -⟩ := hfirst
  exact @checkLocation_of_insertItem _ (some position) _ _ _ hgroup

/-- A scope is mirrored with all scopes inside it exactly when the place at the focus is accepted. -/
theorem mirrorsScope_iff (env : Env) (hwf : w.itemsTree.WellFormed) (hrefs : w.contents.RefsSound)
    {scopes : Outline.Tree ScopeRef} (hscopes : scopes.Unfolds w.inner.childScopes) {depth : ℕ}
    (hdepth : scopes.height ≤ depth)
    (hlevel : ((w.insertPosition w.focusedItem).getD w.endInsertPosition).level + scopes.height < maxLevel) :
    w.MirrorsScope env depth scopes ↔ w.Accepts none := by
  have hplace : w.targetOrFocus none = (w.insertPosition w.focusedItem).getD w.endInsertPosition := by
    rw [targetOrFocus, Option.none_or]
  rw [accepts_iff hwf hrefs, hplace]
  constructor
  · rintro ⟨next, w', n, level, block, contents, hrun, -⟩
    exact checkLocation_of_addScopeAsGroup hrun
  · intro hcheck
    have hstacked : ∃ next w', addScopeAsGroup env depth true scopes.value _ w = .ok (next, w') ∧ _ ∧
        Stacked w _ ((scopeGroups env w scopes).outline _) w' :=
      addScopeAsGroup_stacked hscopes rfl hdepth hlevel hwf hcheck
    obtain ⟨next, w', hrun, -, hstacked⟩ := hstacked
    obtain ⟨block, hadds⟩ := hstacked.adds
    refine ⟨next, w', _, _, block, _, hrun, hadds, Outline.Tree.read_outline _ _,
      hadds.keepsParents hwf hcheck fun x hx => ?_⟩
    have hmem := hadds.levels_eq ▸ List.mem_map_of_mem (f := Prod.fst) hx
    obtain ⟨c, hc, heq⟩ := List.mem_map.1 hmem
    exact heq ▸ hstacked.deep c hc

/-- A clock in a scope, and a counter in a scope inside it. -/
def clockedHierarchy : Hierarchy where
  var id := [⟨["top"], "clk", none, false, 0⟩, ⟨["top", "cpu"], "pc", none, false, 1⟩][id]?
  vars := []
  lookupScope path := if path = ["top"] then some 0 else if path = ["top", "cpu"] then some 1 else none
  scopePath s := if s = 0 then ["top"] else ["top", "cpu"]
  scopeVars s := [s]
  scopeScopes s := if s = 0 then [("cpu", 1)] else []
  depth := 1
  lookupVar _ _ := none
  lookupVarWithIndex _ _ _ := none

/-- A display of nothing, for a file with two scopes. -/
def clocked : WaveData := .loaded { hierarchy := clockedHierarchy, signals _ := none }

/-- The two scopes become two groups. -/
theorem mirrorsScope_clocked : clocked.MirrorsScope defaultEnv 1
    (.node ⟨["top"], none⟩ [.node ⟨["top", "cpu"], some 1⟩ []]) := by
  refine (mirrorsScope_iff defaultEnv (w := clocked) ⟨by decide, by decide⟩ (Session.refsSound_empty rfl rfl)
    (.node _ _ (by decide) fun t ht => ?_) (by decide) (by decide)).2 ⟨?_, ?_⟩
  · obtain rfl := List.mem_singleton.1 ht
    exact .node _ _ (by decide) (by simp)
  · rintro ⟨v, -, -, -, hv, -⟩
    cases hv
  · rintro ⟨v, -, -, -, hv, -⟩
    cases hv

/-- A group below a divider that has the focus. -/
def groupBelowDivider : WaveData :=
  { clocked with
    itemsTree := { items := [⟨1, 0, true, false⟩, ⟨3, 1, true, false⟩] }
    displayedItems := (FiniteMap.empty.insert 1 (.divider (some "a"))).insert 3 (.group "Group")
    displayItemRefCounter := 3
    focusedItem := some 0 }

/-- A scope cannot be added behind the divider. -/
theorem not_mirrorsScope_groupBelowDivider :
    ¬ ∀ (env : Env) (w : WaveData) (scopes : Outline.Tree ScopeRef) (depth : ℕ), w.itemsTree.WellFormed →
      w.contents.RefsSound → scopes.Unfolds w.inner.childScopes → scopes.height ≤ depth →
      ((w.insertPosition w.focusedItem).getD w.endInsertPosition).level + scopes.height < maxLevel →
      w.MirrorsScope env depth scopes := by
  intro h
  have hrefs : groupBelowDivider.contents.RefsSound := by
    have hfirst := (Session.refsSound_empty (c := clocked.contents) rfl rfl).add (.divider (some "a")) (.refl _)
    exact (hfirst.mono 2 (by decide)).add (.group "Group") (List.Perm.swap _ _ _)
  obtain ⟨next, w', n, level, block, contents, hrun, -⟩ := h defaultEnv groupBelowDivider
    (.node ⟨["top", "cpu"], some 1⟩ []) 0 ⟨by decide, by decide⟩ hrefs (.node _ _ (by decide) (by simp))
    (by decide) (by decide)
  have hcheck := checkLocation_of_addScopeAsGroup hrun
  exact absurd hcheck (by decide)

end WaveData

end Wave
