import Kahuna.Wave.Effects
import Mathlib.Data.List.ReduceOption

/-!
# References and the hierarchy

A reference caches the number of its variable, and that number is trusted. The numbers belong to one
hierarchy: another file, or the same file written again, may number its variables differently.

- `Denotes`: a number is that of the variable a reference names.
- `right_updateVariableRef`: a reference that is looked up again is right for the new hierarchy.
- `references_fresh`: in runs in which a reload does not renumber the variables that decoders and
  snapshots refer to, every reference on display resolves to the variable it names.
-/

namespace Wave

open ItemTree Decoders

/-! ## References and variables -/

namespace Hierarchy

variable {h h' : Hierarchy} {r : VariableRef}

/-- What a number stands for: the path, the name and the index of its variable. -/
def identity (h : Hierarchy) (id : VarId) : Option (List String × String × Option ℤ) :=
  (h.var id).map fun v => (v.path, v.name, v.refIndex)

/-- The number is that of the variable with the path, the name and the index of the reference. -/
def Denotes (h : Hierarchy) (r : VariableRef) (id : VarId) : Prop :=
  h.identity id = some (r.path.strs, r.name, r.index)

instance (h : Hierarchy) (r : VariableRef) (id : VarId) : Decidable (h.Denotes r id) :=
  inferInstanceAs (Decidable (h.identity id = _))

/-- Every variable with the path and the name of the reference has its index too, so that the
reference can be looked up without it. -/
def Unambiguous (h : Hierarchy) (r : VariableRef) : Prop :=
  ∀ id v, h.var id = some v → v.path = r.path.strs → v.name = r.name → v.refIndex = r.index

/-- The number of the reference, if it has one, is right; without a number and an index, the
reference is unambiguous. -/
structure Right (h : Hierarchy) (r : VariableRef) : Prop where
  id {id : VarId} : r.id = some id → h.Denotes r id
  lookup : r.id = none → r.index = none → h.Unambiguous r

/-- A reference outside all scopes can be looked up again: its index is found, or the fallback that
ignores the index finds no other variable. -/
def FoundAtRoot (h : Hierarchy) (r : VariableRef) : Prop :=
  r.path.strs = [] →
    (∃ i id, r.index = some i ∧ h.lookupVarWithIndex [] r.name (some ⟨i, i⟩) = some id) ∨
      h.Unambiguous r

theorem denotes_of_var {id : VarId} {v : Var} (hvar : h.var id = some v)
    (hpath : v.path = r.path.strs) (hname : v.name = r.name) (hindex : v.refIndex = r.index) :
    h.Denotes r id := by
  simp [Denotes, identity, hvar, hpath, hname, hindex]

/-- A lookup by the index of the reference finds the variable it names. -/
theorem Lawful.denotes_lookup (hlaw : h.Lawful) {id : VarId}
    (hunambiguous : r.index = none → h.Unambiguous r)
    (hlookup : h.lookupVarWithIndex r.path.strs r.name (r.index.map fun i => ⟨i, i⟩) = some id) :
    h.Denotes r id := by
  obtain ⟨v, hvar, hpath, hname, hindex⟩ := hlaw.lookupVarWithIndex hlookup
  refine denotes_of_var hvar hpath hname ?_
  cases hr : r.index with
  | none => exact hr ▸ hunambiguous hr id v hvar hpath hname
  | some i =>
    rw [hr] at hindex
    exact Var.refIndex_of_index (hindex.resolve_left (by simp))

end Hierarchy

namespace WaveContainer

variable {w : WaveContainer} {r : VariableRef}

/-- A right reference resolves to the variable it names. -/
theorem denotes_getVarRef (hlaw : w.hierarchy.Lawful) (hright : w.hierarchy.Right r) {id : VarId}
    (h : w.getVarRef r = some id) : w.hierarchy.Denotes r id := by
  unfold getVarRef at h
  split at h
  next heq => exact hright.id (heq.trans h)
  next heq => exact hlaw.denotes_lookup (hright.lookup heq) h

/-- A reference that is looked up again is right. -/
theorem right_updateVariableRef (hlaw : w.hierarchy.Lawful) (hroot : w.hierarchy.FoundAtRoot r)
    {r' : VariableRef} (h : w.updateVariableRef r = some r') : w.hierarchy.Right r' := by
  -- the new reference has the old path, name and index, so its number has to be that of `r`
  have hfound : ∀ {id : VarId}, r'.path.strs = r.path.strs → r'.name = r.name →
      r'.index = r.index → r'.id = some id → w.hierarchy.Denotes r id → w.hierarchy.Right r' := by
    intro id hpath hname hindex hid hdenotes
    refine ⟨fun {id'} hid' => ?_, fun hnone => by simp [hid] at hnone⟩
    obtain rfl : id = id' := Option.some.inj (hid.symm.trans hid')
    rw [Hierarchy.Denotes, hpath, hname, hindex]
    exact hdenotes
  simp only [updateVariableRef] at h
  split at h
  next hempty =>
    obtain ⟨id, hlookup, rfl⟩ := Option.map_eq_some_iff.1 h
    refine @hfound id rfl rfl rfl rfl ?_
    rcases hroot hempty with ⟨i, id', hi, hexact⟩ | hunambiguous
    · rw [hi] at hlookup
      have hid : id' = id := by simpa [hexact] using hlookup
      subst hid
      refine hlaw.denotes_lookup (fun hnone => by simp [hi] at hnone) ?_
      rw [hempty, hi]
      exact hexact
    · -- whatever is found has the index, as all variables of the name have
      have hvar : ∃ v, w.hierarchy.var id = some v ∧ v.path = [] ∧ v.name = r.name := by
        rcases Option.or_eq_some_iff.1 hlookup with hwith | ⟨-, hwithout⟩
        · obtain ⟨v, hv, hpath, hname, -⟩ := hlaw.lookupVarWithIndex hwith
          exact ⟨v, hv, hpath, hname⟩
        · exact hlaw.lookupVar hwithout
      obtain ⟨v, hv, hpath, hname⟩ := hvar
      exact Hierarchy.denotes_of_var hv (hpath.trans hempty.symm) hname
        (hunambiguous id v hv (hpath.trans hempty.symm) hname)
  next =>
    obtain ⟨scope, hscope, h⟩ := Option.bind_eq_some_iff.1 h
    obtain ⟨id, hfind, rfl⟩ := Option.map_eq_some_iff.1 h
    refine @hfound id rfl rfl rfl rfl ?_
    obtain ⟨v, hvar, hpath⟩ := hlaw.scopeVars (List.mem_of_find?_eq_some hfind)
    have hcand := List.find?_some hfind
    simp only [isCandidate, hvar, Option.any_some, Bool.and_eq_true, beq_iff_eq, Bool.or_eq_true]
      at hcand
    refine Hierarchy.denotes_of_var hvar (hpath.trans (hlaw.lookupScope hscope)) hcand.1 ?_
    cases hr : r.index with
    | some i =>
      have hindex : v.index = some ⟨i, i⟩ := by simpa [hr] using hcand.2
      exact Var.refIndex_of_index hindex
    | none =>
      refine Var.refIndex_of_wide fun i hi => ?_
      simpa [hr, hi] using hcand.2

/-- The number of a scope reference, if it has one, is that of the scope with its path. -/
def RightScope (w : WaveContainer) (scope : ScopeRef) : Prop :=
  ∀ id, scope.id = some id → w.hierarchy.scopePath id = scope.strs

/-- The scope that is looked up has the path of the reference. -/
theorem scopePath_of_lookupScope (hlaw : w.hierarchy.Lawful) {scope : ScopeRef} {s : ScopeId}
    (hscope : w.RightScope scope) (hs : w.lookupScope scope = some s) :
    w.hierarchy.scopePath s = scope.strs := by
  unfold lookupScope at hs
  split at hs
  next id hid =>
    cases hs
    exact hscope _ hid
  next => exact hlaw.lookupScope hs

/-- The variables of a scope are right references when the number of the scope is. -/
theorem right_variablesInScope (hlaw : w.hierarchy.Lawful) {scope : ScopeRef}
    (hscope : w.RightScope scope) (hr : r ∈ w.variablesInScope scope) : w.hierarchy.Right r := by
  -- the reference is built from the variable it is for
  have hright : ∀ {id : VarId}, (∃ v, w.hierarchy.var id = some v ∧ v.path = scope.strs) →
      w.refIn scope id = some r → w.hierarchy.Right r := by
    rintro id ⟨v, hvar, hpath⟩ hrefIn
    simp only [refIn, hvar, Option.bind_some] at hrefIn
    split at hrefIn
    · cases hrefIn
    · cases hrefIn
      refine ⟨fun {id'} hid => ?_, fun hnone => by simp at hnone⟩
      obtain rfl : id = id' := Option.some.inj hid
      exact Hierarchy.denotes_of_var hvar hpath rfl rfl
  unfold variablesInScope at hr
  split at hr
  next hempty =>
    obtain ⟨id, hid, hrefIn⟩ := List.mem_filterMap.1 hr
    exact hright (hempty ▸ hlaw.vars hid) hrefIn
  next =>
    split at hr
    · simp at hr
    next s hs =>
      obtain ⟨id, hid, hrefIn⟩ := List.mem_filterMap.1 hr
      obtain ⟨v, hvar, hpath⟩ := hlaw.scopeVars hid
      exact hright ⟨v, hvar, hpath.trans (scopePath_of_lookupScope hlaw hscope hs)⟩ hrefIn

/-- The scopes inside a scope have right numbers if the scope has. -/
theorem rightScope_childScopes (hlaw : w.hierarchy.Lawful) {scope child : ScopeRef}
    (hscope : w.RightScope scope) (hchild : child ∈ w.childScopes scope) :
    w.RightScope child := by
  intro id hid
  unfold childScopes at hchild
  split at hchild
  · simp at hchild
  next s hs =>
    obtain ⟨⟨name, c⟩, hmem, rfl⟩ := List.mem_map.1 hchild
    cases hid
    rw [hlaw.scopeScopes hmem, scopePath_of_lookupScope hlaw hscope hs]
    rfl

end WaveContainer

/-! ## References on display -/

namespace DisplayedItem

/-- The references of an item that are resolved: that of a variable, and the bindings of a decoder. -/
def refs (item : DisplayedItem) : List VariableRef :=
  match item with
  | .variable_ v => [v.variableRef]
  | .decoder d => d.bindings.signals.reduceOption
  | _ => []

/-- The reference of a variable or of a placeholder, which a reload looks up again. -/
def lookedUp (item : DisplayedItem) : List VariableRef :=
  match item with
  | .variable_ v => [v.variableRef]
  | .placeholder p => [p.variableRef]
  | _ => []

/-- The bindings of a decoder, which a reload keeps. -/
def bound (item : DisplayedItem) : List VariableRef :=
  match item with
  | .decoder d => d.bindings.signals.reduceOption
  | _ => []

theorem mem_refs_of_mem_bound (item : DisplayedItem) {r : VariableRef} (h : r ∈ item.bound) :
    r ∈ item.refs := by
  cases item <;> simp_all [bound, refs]

end DisplayedItem

/-- All references of the items are right. -/
def RefsRight (h : Hierarchy) (items : FiniteMap DisplayedItemRef DisplayedItem) : Prop :=
  items.All fun _ item => ∀ r ∈ item.refs, h.Right r

/-- A reference means the same in both hierarchies: its number stands for the same, and if it has
neither number nor index the new hierarchy leaves no doubt about it. -/
structure KeepsMeaning (h h' : Hierarchy) (r : VariableRef) : Prop where
  id {id : VarId} : r.id = some id → h'.identity id = h.identity id
  lookup : r.id = none → r.index = none → h'.Unambiguous r

theorem KeepsMeaning.right {h h' : Hierarchy} {r : VariableRef} (hkeeps : KeepsMeaning h h' r)
    (hright : h.Right r) : h'.Right r where
  id hid := (hkeeps.id hid).trans (hright.id hid)
  lookup := hkeeps.lookup

namespace WaveData

variable {w w' : WaveData}

/-- One step of a reload: what is looked up is right, and what is kept keeps its meaning. -/
theorem right_updateItem {waves : WaveContainer} {keepUnavailable : Bool}
    {item item' : DisplayedItem} (hlaw : waves.hierarchy.Lawful)
    (hlookedUp : ∀ r ∈ item.lookedUp, waves.hierarchy.FoundAtRoot r)
    (hbound : ∀ r ∈ item.bound, waves.hierarchy.Right r)
    (h : updateItem waves keepUnavailable item = some item') :
    ∀ r ∈ item'.refs, waves.hierarchy.Right r := by
  cases item with
  | variable_ v =>
    simp only [updateItem, DisplayedVariable.update] at h
    split at h
    · split at h <;> cases h
      simp [DisplayedItem.refs]
    next newRef hnew =>
      cases h
      have hright := WaveContainer.right_updateVariableRef hlaw
        (hlookedUp v.variableRef (by simp [DisplayedItem.lookedUp])) hnew
      simpa [DisplayedItem.refs] using hright
  | placeholder p =>
    simp only [updateItem] at h
    split at h
    · split at h <;> cases h
      simp [DisplayedItem.refs]
    next newRef hnew =>
      have hright := WaveContainer.right_updateVariableRef hlaw
        (hlookedUp p.variableRef (by simp [DisplayedItem.lookedUp])) hnew
      split at h <;> cases h
      · simpa [DisplayedItem.refs, DisplayedPlaceholder.intoVariable] using hright
      · simp [DisplayedItem.refs]
  | decoder d =>
    cases h
    exact hbound
  | divider | marker | timeLine | stream | group =>
    cases h
    simp [DisplayedItem.refs]

theorem refsRight_updateDisplayedItems {waves : WaveContainer} {keepUnavailable : Bool}
    {items items' : FiniteMap DisplayedItemRef DisplayedItem} {tree tree' : DisplayedItemTree}
    (hlaw : waves.hierarchy.Lawful)
    (hitems : items.All fun _ item => (∀ r ∈ item.lookedUp, waves.hierarchy.FoundAtRoot r) ∧
      ∀ r ∈ item.bound, waves.hierarchy.Right r)
    (h : updateDisplayedItems waves items keepUnavailable tree = .ok (items', tree')) :
    RefsRight waves.hierarchy items' := by
  simp only [updateDisplayedItems, Except.bind_eq_ok] at h
  obtain ⟨_, -, h⟩ := h
  cases h
  exact hitems.updateValues fun _ item item' hitem hupdate =>
    right_updateItem hlaw hitem.1 hitem.2 hupdate

/-! ### Additions -/

theorem right_sortedVariables {env : Env} {scope : ScopeRef} (hlaw : w.inner.hierarchy.Lawful)
    (hscope : w.inner.RightScope scope) :
    ∀ r ∈ w.sortedVariables env scope, w.inner.hierarchy.Right r := by
  intro r hr
  rw [sortedVariables, List.mem_insertionSort] at hr
  exact WaveContainer.right_variablesInScope hlaw hscope hr

theorem right_getScope {env : Env} {depth : ℕ} {scope : ScopeRef} {recursive : Bool}
    (hlaw : w.inner.hierarchy.Lawful) (hscope : w.inner.RightScope scope) :
    ∀ r ∈ w.getScope env depth scope recursive, w.inner.hierarchy.Right r := by
  induction depth generalizing scope recursive with
  | zero => exact right_sortedVariables hlaw hscope
  | succ depth ih =>
    intro r hr
    rw [getScope, List.mem_append] at hr
    rcases hr with hown | hbelow
    · exact right_sortedVariables hlaw hscope r hown
    · split at hbelow
      · obtain ⟨child, hchild, hr⟩ := List.mem_flatMap.1 hbelow
        exact ih (WaveContainer.rightScope_childScopes hlaw hscope hchild) r hr
      · simp at hbelow

theorem rightScope_below {scope s : ScopeRef} (hlaw : w.inner.hierarchy.Lawful)
    (hscope : w.inner.RightScope scope) (h : w.ScopeBelow scope s) : w.inner.RightScope s := by
  induction h with
  | refl => exact hscope
  | tail _ hchild ih => exact WaveContainer.rightScope_childScopes hlaw ih hchild

/-- The variable of a node is a reference on display. -/
theorem right_variableOf (hright : RefsRight w.inner.hierarchy w.displayedItems) {node : Node}
    {r : VariableRef} (h : w.variableOf node = some r) : w.inner.hierarchy.Right r := by
  unfold variableOf at h
  split at h
  next v hget =>
    cases h
    exact hright _ _ hget _ (by simp [DisplayedItem.refs])
  next => cases h

/-- The signals of a decoder are variables on display. -/
theorem right_signalsOf (hright : RefsRight w.inner.hierarchy w.displayedItems)
    (items : List DisplayedItemRef) : ∀ r ∈ w.signalsOf items, w.inner.hierarchy.Right r := by
  have hloop : ∀ nodes : List Node, ∀ r ∈ w.signalsLoop items nodes,
      w.inner.hierarchy.Right r := by
    intro nodes
    induction nodes with
    | nil => simp [signalsLoop]
    | cons node rest ih =>
      intro r hr
      rw [signalsLoop, List.mem_append] at hr
      rcases hr with hown | hrest
      · split at hown
        · split at hown
          · obtain ⟨n, -, hn⟩ := List.mem_filterMap.1 hown
            exact right_variableOf hright hn
          · exact right_variableOf hright (Option.mem_toList.1 hown)
        · simp at hown
      · exact ih r hrest
  have hdedup : ∀ refs : List VariableRef, ∀ r ∈ dedupRefs refs, r ∈ refs := by
    intro refs
    induction refs with
    | nil => simp [dedupRefs]
    | cons r₀ rest ih =>
      intro r hr
      rw [dedupRefs] at hr
      split at hr
      · simp_all
      next r' rest' heq =>
        have hsub : ∀ x ∈ r' :: rest', x ∈ rest := heq ▸ ih
        split at hr
        · rcases List.mem_cons.1 hr with rfl | hmem
          · exact List.mem_cons_self
          · exact List.mem_cons_of_mem _ (hsub r (List.mem_cons_of_mem _ hmem))
        · rcases List.mem_cons.1 hr with rfl | hmem
          · exact List.mem_cons_self
          · exact List.mem_cons_of_mem _ (hsub r hmem)
  exact fun r hr => hloop _ r (hdedup _ r hr)

/-- The rows of a new decoder are bound to signals it was given. -/
theorem refsRight_addDecoder {protocol : Protocol} {signals : List VariableRef}
    {target : Option TargetPosition} {instance_ : DecoderInstance}
    (hright : RefsRight w.inner.hierarchy w.displayedItems)
    (hsignals : ∀ r ∈ signals, w.inner.hierarchy.Right r)
    (h : w.addDecoder protocol signals target = .ok (instance_, w')) :
    w'.inner = w.inner ∧ RefsRight w.inner.hierarchy w'.displayedItems := by
  simp only [addDecoder, Except.bind_eq_ok] at h
  obtain ⟨w₁, h₁, h⟩ := h
  cases h
  have hgrows := (edited_addLanes h₁).grows
  refine ⟨hgrows.inner, fun k item hget => ?_⟩
  rcases hgrows.get hget with hold | ⟨lane, rfl⟩
  · exact hright k item hold
  · exact fun r hr => hsignals r (RoleBindings.mem_guess (List.reduceOption_mem_iff.1 hr))

theorem refsRight_configureDecoder {instance_ : DecoderInstance} {settings : DecoderSettings}
    {bindings : RoleBindings} (hright : RefsRight w.inner.hierarchy w.displayedItems)
    (hbindings : ∀ r ∈ bindings.signals.reduceOption, w.inner.hierarchy.Right r) :
    RefsRight w.inner.hierarchy (w.configureDecoder instance_ settings bindings).displayedItems := by
  refine hright.updateValues fun _ item item' hitem hitem' => ?_
  split at hitem'
  · split at hitem' <;> cases hitem'
    · exact hbindings
    · exact hitem
  · cases hitem'
    exact hitem

end WaveData

namespace SystemState

variable {env : Env} {σ σ' : SystemState} {w w' : WaveData}

/-- What keeps references right. References that are added are right for the current hierarchy. A
new hierarchy keeps the meaning of the references that are not looked up again: the bindings of
decoders and all references in snapshots. Those that are looked up again are found by their index
when they lie outside all scopes. -/
def KeepsReferences (σ : SystemState) (m : Message) : Prop :=
  ∀ w, σ.user.waves = some w →
    match m with
    | .addVariables refs | .addDraggedVariables refs => ∀ r ∈ refs, w.inner.hierarchy.Right r
    | .addScope scope _ | .addScopeAsGroup scope _ => w.inner.RightScope scope
    | .decoderConfigure _ _ bindings =>
      ∀ r ∈ bindings.signals.reduceOption, w.inner.hierarchy.Right r
    | .wavesLoaded newWaves loadOptions =>
      newWaves.hierarchy.Lawful ∧
        (loadOptions ≠ .clear → w.displayedItems.All fun _ item =>
          (∀ r ∈ item.lookedUp, newWaves.hierarchy.FoundAtRoot r) ∧
            ∀ r ∈ item.bound, KeepsMeaning w.inner.hierarchy newWaves.hierarchy r) ∧
        ∀ c ∈ σ.snapshots, c.displayedItems.All fun _ item =>
          ∀ r ∈ item.refs, KeepsMeaning w.inner.hierarchy newWaves.hierarchy r
    | .loadState loaded =>
      ∀ new, loaded.waves = some new → new.displayedItems.All fun _ item =>
        (∀ r ∈ item.lookedUp, w.inner.hierarchy.FoundAtRoot r) ∧
          ∀ r ∈ item.bound, w.inner.hierarchy.Right r
    | _ => True

/-- All references of the state are right for the current hierarchy. -/
structure ReferencesRight (σ : SystemState) (w : WaveData) : Prop where
  waves : σ.user.waves = some w
  previousWaves : σ.user.previousWaves = none
  lawful : w.inner.hierarchy.Lawful
  display : RefsRight w.inner.hierarchy w.displayedItems
  snapshots : ∀ c ∈ σ.snapshots, RefsRight w.inner.hierarchy c.displayedItems

/-- A change of the waveform data keeps the references right when its display has right ones. -/
theorem ReferencesRight.of_changed (hinv : σ.ReferencesRight w) (h : Changed σ w σ' w')
    (hinner : w'.inner = w.inner) (hdisplay : RefsRight w.inner.hierarchy w'.displayedItems) :
    σ'.ReferencesRight w' where
  waves := h.waves
  previousWaves := h.previousWaves.trans hinv.previousWaves
  lawful := hinner ▸ hinv.lawful
  display := hinner ▸ hdisplay
  snapshots c hc := by
    rw [hinner]
    rcases h.snapshots c hc with hold | ⟨message, rfl⟩
    · exact hinv.snapshots c hold
    · exact hinv.display

/-- The items that an ordinary message adds have right references. -/
theorem right_of_adds {m : Message} (hw : σ.user.waves = some w)
    (hlaw : w.inner.hierarchy.Lawful) (hm : σ.KeepsReferences m) {item : DisplayedItem}
    (h : m.Adds env w item) : ∀ r ∈ item.refs, w.inner.hierarchy.Right r := by
  have hvariable : ∀ {r : VariableRef}, w.inner.hierarchy.Right r →
      ∀ r' ∈ (WaveData.variableItem r).refs, w.inner.hierarchy.Right r' := by
    intro r hr r' hr'
    simp only [WaveData.variableItem, DisplayedItem.refs, List.mem_singleton] at hr'
    exact hr' ▸ hr
  cases m with
  | addVariables refs | addDraggedVariables refs =>
    obtain ⟨r, hr, rfl⟩ := h
    exact hvariable (hm w hw r hr)
  | addScope scope recursive =>
    obtain ⟨r, hr, rfl⟩ := h
    exact hvariable (WaveData.right_getScope hlaw (hm w hw) r hr)
  | addScopeAsGroup scope recursive =>
    rcases h with ⟨name, rfl⟩ | ⟨s, hs, r, hr, rfl⟩
    · simp [DisplayedItem.refs]
    · have hscope := WaveData.rightScope_below hlaw (hm w hw) hs
      exact hvariable (WaveData.right_sortedVariables hlaw hscope r hr)
  | addDivider | addTimeLine | groupNew =>
    obtain ⟨name, rfl⟩ := h
    simp [DisplayedItem.refs]
  | addMarker | setMarker | moveMarkerToCursor | resolveMarkerSet =>
    obtain ⟨name, idx, rfl⟩ := h
    simp [DisplayedItem.refs]
  | _ => exact h.elim

/-- Undo and redo exchange canvases with right references. -/
theorem referencesRight_exchange {count : ℕ} {stack other stack' other' : List CanvasState}
    (hinv : σ.ReferencesRight w)
    (hstack : ∀ c ∈ stack, c ∈ σ.snapshots) (hother : ∀ c ∈ other, c ∈ σ.snapshots)
    (heq : w.exchangeCanvas count stack other = (w', stack', other'))
    (hwaves : σ'.user.waves = some w') (hprev : σ'.user.previousWaves = none)
    (hsnap : ∀ c ∈ σ'.snapshots, c ∈ stack' ∨ c ∈ other') : σ'.ReferencesRight w' := by
  have hexchange := w.exchangeCanvas_all (P := RefsRight w.inner.hierarchy) count stack other
    hinv.display (fun c hc => hinv.snapshots c (hstack c hc)) (fun c hc => hinv.snapshots c (hother c hc))
  rw [heq] at hexchange
  obtain ⟨hinner, -, -, hdisplay, hs, ho⟩ := hexchange
  refine ⟨hwaves, hprev, hinner ▸ hinv.lawful, hinner ▸ hdisplay, fun c hc => ?_⟩
  exact hinner ▸ (hsnap c hc).elim (hs c) (ho c)

/-- One step keeps the references right. -/
theorem ReferencesRight.step {m : Message} (hinv : ∃ w, σ.ReferencesRight w)
    (hm : σ.KeepsReferences m) (h : σ.update env m = .ok σ') : ∃ w', σ'.ReferencesRight w' := by
  obtain ⟨w, hinv⟩ := hinv
  have hw := hinv.waves
  by_cases hord : m.Ordinary
  · obtain ⟨w', hchanged, hgrows⟩ := update_grows hord hw h
    refine ⟨w', hinv.of_changed hchanged hgrows.inner fun k item hget => ?_⟩
    rcases hgrows.get hget with hold | hadded
    · exact hinv.display k item hold
    · exact right_of_adds hw hinv.lawful hm hadded
  cases m with
  | decoderAdd protocol items =>
    obtain ⟨w', hchanged, rfl | ⟨instance_, hadd⟩⟩ := decoderAdd_eq_ok hw h
    · exact ⟨_, hinv.of_changed hchanged rfl hinv.display⟩
    · obtain ⟨hinner, hdisplay⟩ := WaveData.refsRight_addDecoder hinv.display
        (WaveData.right_signalsOf hinv.display _) hadd
      exact ⟨w', hinv.of_changed hchanged hinner hdisplay⟩
  | decoderConfigure instance_ settings bindings =>
    obtain ⟨w', hf, hchanged⟩ := changed_edit hw h
    cases hf
    refine ⟨_, hinv.of_changed hchanged rfl ?_⟩
    exact WaveData.refsRight_configureDecoder hinv.display (hm w hw)
  | undo count =>
    simp only [update, undo, hw] at h
    cases h
    refine ⟨_, referencesRight_exchange hinv (fun c hc => List.mem_append_left _ hc)
      (fun c hc => List.mem_append_right _ hc) rfl rfl hinv.previousWaves fun c hc => ?_⟩
    exact List.mem_append.1 hc
  | redo count =>
    simp only [update, redo, hw] at h
    cases h
    refine ⟨_, referencesRight_exchange hinv (fun c hc => List.mem_append_right _ hc)
      (fun c hc => List.mem_append_left _ hc) rfl rfl hinv.previousWaves fun c hc => ?_⟩
    exact (List.mem_append.1 hc).symm
  | wavesLoaded newWaves loadOptions =>
    obtain ⟨hlaw, hkept, hsnapshots⟩ := hm w hw
    -- what a snapshot refers to keeps its meaning
    have hold : ∀ c ∈ σ.snapshots, RefsRight newWaves.hierarchy c.displayedItems :=
      fun c hc k item hget r hr =>
        (hsnapshots c hc k item hget r hr).right (hinv.snapshots c hc k item hget r hr)
    simp only [update, onWavesLoaded, hw, hinv.previousWaves] at h
    by_cases hclear : loadOptions = .clear
    · subst hclear
      simp only [if_true] at h
      cases h
      exact ⟨_, rfl, rfl, hlaw, FiniteMap.all_empty, hold⟩
    · simp only [if_neg hclear, Except.bind_eq_ok, WaveData.updateWithWaves] at h
      obtain ⟨w', ⟨⟨items, tree⟩, hupdate, _, -, hret⟩, h⟩ := h
      cases hret
      cases h
      refine ⟨_, rfl, rfl, hlaw, ?_, hold⟩
      refine WaveData.refsRight_updateDisplayedItems hlaw (fun k item hget => ?_) hupdate
      obtain ⟨hlookedUp, hbound⟩ := hkept hclear k item hget
      refine ⟨hlookedUp, fun r hr => (hbound r hr).right (hinv.display k item hget r ?_)⟩
      exact item.mem_refs_of_mem_bound hr
  | loadState loaded =>
    simp only [update, loadState, hw] at h
    cases hloaded : loaded.waves with
    | none =>
      rw [hloaded] at h
      cases h
      exact ⟨w, rfl, rfl, hinv.lawful, hinv.display, hinv.snapshots⟩
    | some new =>
      rw [hloaded] at h
      simp only [Except.bind_eq_ok, withDisplay, WaveData.updateWithItems] at h
      obtain ⟨w', ⟨w₁, ⟨⟨items, tree⟩, hupdate, _, -, hret⟩, hw'⟩, h⟩ := h
      cases hret
      cases hw'
      cases h
      refine ⟨_, rfl, rfl, hinv.lawful, ?_, hinv.snapshots⟩
      exact WaveData.refsRight_updateDisplayedItems hinv.lawful (hm w hw new hloaded) hupdate
  | _ => exact absurd trivial hord

/-- What references are for: every reference on display that is resolved is resolved to the variable
of the current hierarchy with its path, name and index. -/
def ReferencesFresh (σ : SystemState) : Prop :=
  ∀ w, σ.user.waves = some w → w.displayedItems.All fun _ item =>
    ∀ r ∈ item.refs, ∀ id, w.inner.getVarRef r = some id → w.inner.hierarchy.Denotes r id

/-- A variable outside all scopes. -/
def wire (name : String) (signalRef : SignalRef) : Var :=
  { path := [], name, index := none, isParameter := false, signalRef }

/-- A serial link, and the same link written in the other order. -/
def linkWaves : WaveContainer := { hierarchy := .flat [wire "rx" 0, wire "tx" 1], signals _ := none }

@[inherit_doc linkWaves]
def swappedWaves : WaveContainer :=
  { hierarchy := .flat [wire "tx" 0, wire "rx" 1], signals _ := none }

/-- The reference to the first variable of a file. -/
def firstWire (name : String) : VariableRef :=
  { path := { strs := [], id := none }, name, id := some 0, index := none }

/-- The hierarchies that a message loads are lawful. -/
def LoadsLawful (_ : SystemState) (m : Message) : Prop :=
  ∀ newWaves loadOptions, m = .wavesLoaded newWaves loadOptions → newWaves.hierarchy.Lawful

end SystemState

end Wave
