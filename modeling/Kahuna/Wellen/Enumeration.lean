import Kahuna.Wave.Names
import Kahuna.Wellen.Basic

/-!
# Listing variables and finding them again

A file lists its variables in two ways: `listVariables` from their full names, and `variablesInScope`
scope by scope. A listed reference is resolved by its names once its number has been dropped. Here
the functions of `wellen.rs` are modelled in full, with the index that a name may carry;
`Wave.WaveContainer.updateVariableRef` and `Wave.WaveContainer.refIn` leave it out, which makes no
difference to names without one (`updateVariableRef_eq`, `refIn_eq`).

* `Documented`: what the library says about its lists and lookups;
* `enumerationAgrees_iff`: when both lists are the same and every reference is found again.
-/

namespace Wellen

open Wave

/-- The name of a variable with those of the scopes around it. -/
def fullName (v : Var) : String := ".".intercalate (v.path ++ [v.name])

/-- The name under which `WellenContainer::new` lists a variable. -/
def listedName (v : Var) : String :=
  match v.index with
  | some i =>
    if i.width = 1 then fullName v ++ "[" ++ String.ofList (Numerals.printInt i.lsb) ++ "]"
    else fullName v
  | none => fullName v

/-- `WellenContainer::variables`: all variables that are no parameters. -/
def listVariables (h : Hierarchy) (allVars : List VarId) : List VariableRef :=
  allVars.filterMap fun id => (h.var id).bind fun v =>
    if v.isParameter then none
    else some (VariableRef.fromHierarchyStringWithId (listedName v) (some id))

/-- The reference to a variable of a scope. -/
def refIn (h : Hierarchy) (scope : ScopeRef) (id : VarId) : Option VariableRef :=
  (h.var id).bind fun v =>
    if v.isParameter then none
    else some (VariableRef.newWithIdAndIndex scope v.name (some id) v.refIndex)

/-- `variables_in_scope`. -/
def variablesInScope (h : Hierarchy) (scope : ScopeRef) : List VariableRef :=
  if scope.strs = [] then h.vars.filterMap (refIn h scope)
  else
    match scope.id.or (h.lookupScope scope.strs) with
    | none => []
    | some id => (h.scopeVars id).filterMap (refIn h scope)

/-- `update_variable_ref`. -/
def updateVariableRef (h : Hierarchy) (r : VariableRef) : Option VariableRef :=
  let index := r.index.map fun i => (⟨i, i⟩ : VarIndex)
  if r.path.strs = [] then
    ((h.lookupVarWithIndex [] r.name index).or (h.lookupVar [] r.name)).map fun id =>
      VariableRef.newWithIdAndIndex r.path r.name (some id) r.index
  else
    (h.lookupScope r.path.strs).bind fun scope =>
      ((h.scopeVars scope).find? fun id => (h.var id).any fun v =>
          v.name == r.name && (v.index == index || index.isNone && v.index.any (2 ≤ ·.width))).map
        fun id =>
          VariableRef.newWithIdAndIndex { r.path with id := some scope } r.name (some id) r.index

/-- `get_var_ref`. -/
def getVarRef (h : Hierarchy) (r : VariableRef) : Option VarId :=
  match r.id with
  | some id => some id
  | none => h.lookupVarWithIndex r.path.strs r.name (r.index.map fun i => ⟨i, i⟩)

theorem newWithIdAndIndex_eq {path : ScopeRef} {name : String} {id : Option VarId}
    (hname : ¬ EndsInIndex name) (index : Option ℤ) :
    VariableRef.newWithIdAndIndex path name id index = { path, name, id, index } := by
  cases index with
  | none => simp [VariableRef.newWithIdAndIndex, extractIndex_of_not_endsInIndex hname]
  | some i => simp [VariableRef.newWithIdAndIndex]

/-- Where no name ends in an index, references are made as in `Wave.WaveContainer`. -/
theorem refIn_eq (w : WaveContainer) {scope : ScopeRef} {id : VarId} {v : Var}
    (hvar : w.hierarchy.var id = some v) (hname : ¬ EndsInIndex v.name) :
    refIn w.hierarchy scope id = w.refIn scope id := by
  simp [refIn, WaveContainer.refIn, hvar, newWithIdAndIndex_eq hname]

theorem updateVariableRef_eq (w : WaveContainer) {r : VariableRef} (hname : ¬ EndsInIndex r.name) :
    updateVariableRef w.hierarchy r = w.updateVariableRef r := by
  simp only [updateVariableRef, WaveContainer.updateVariableRef, newWithIdAndIndex_eq hname]
  rfl

/-- The variables at a path: those outside all scopes, or those of the scope. -/
def varsAt (h : Hierarchy) (path : List String) : List VarId :=
  if path = [] then h.vars
  else
    match h.lookupScope path with
    | none => []
    | some scope => h.scopeVars scope

/-- The variable with a number has a name. -/
def hasName (h : Hierarchy) (name : String) (id : VarId) : Bool :=
  (h.var id).any fun v => v.name == name

/-- What the library says about the lists of a hierarchy and about its lookups, which go through the
variables at a path and find the first one. -/
structure Documented (h : Hierarchy) (allVars : List VarId) (allScopes : List ScopeId) :
    Prop extends h.Lawful where
  lookupVar_eq (path : List String) (name : String) :
    h.lookupVar path name = (varsAt h path).find? (hasName h name)
  lookupVarWithIndex_eq (path : List String) (name : String) (index : Option VarIndex) :
    h.lookupVarWithIndex path name index = (varsAt h path).find? fun id =>
      (h.var id).any fun v => v.name == name && (index.isNone || v.index == index)
  /-- A scope has a name. -/
  scopePath_ne {s : ScopeId} : s ∈ allScopes → h.scopePath s ≠ []
  /-- All variables are those outside all scopes and those of all scopes. -/
  mem_allVars {id : VarId} : id ∈ allVars ↔ id ∈ h.vars ∨ ∃ s ∈ allScopes, id ∈ h.scopeVars s

/-- The references to all scopes, with the one that stands for the variables outside. -/
def allScopeRefs (h : Hierarchy) (allScopes : List ScopeId) : List ScopeRef :=
  ScopeRef.empty :: allScopes.map fun s => { strs := h.scopePath s, id := some s }

/-- What is listed scope by scope. -/
def listedInScopes (h : Hierarchy) (allScopes : List ScopeId) : List VariableRef :=
  (allScopeRefs h allScopes).flatMap (variablesInScope h)

/-- What a reference says: path, name, index and variable. -/
def key (r : VariableRef) : List String × String × Option ℤ × Option VarId :=
  (r.path.strs, r.name, r.index, r.id)

/-- Once its number has been dropped, a reference is resolved to the variable that it was made
from. -/
def Resolves (h : Hierarchy) (r : VariableRef) : Prop :=
  (updateVariableRef h r.clearId).bind VariableRef.id = r.id ∧ getVarRef h r.clearId = r.id

/-- Both lists are the same, and every listed reference is found again. -/
structure EnumerationAgrees (h : Hierarchy) (allVars : List VarId) (allScopes : List ScopeId) :
    Prop where
  keys : ∀ k, k ∈ (listVariables h allVars).map key ↔ k ∈ (listedInScopes h allScopes).map key
  resolves : ∀ r ∈ listVariables h allVars ++ listedInScopes h allScopes, Resolves h r

/-- A variable without an index of its own or at the end of its name, without a dot in its names, and
the first one of its name in its scope. -/
structure Unambiguous (h : Hierarchy) (id : VarId) (v : Var) : Prop where
  refIndex : v.refIndex = none
  name : ¬ EndsInIndex v.name
  noDot : ∀ p ∈ v.path ++ [v.name], '.' ∉ p.toList
  first : (varsAt h v.path).find? (hasName h v.name) = some id

section Documented

variable {h : Hierarchy} {allVars : List VarId} {allScopes : List ScopeId}

theorem Documented.var (doc : Documented h allVars allScopes) {id : VarId}
    (hid : id ∈ allVars) : ∃ v, h.var id = some v := by
  rcases doc.mem_allVars.1 hid with hvars | ⟨s, -, hs⟩
  · obtain ⟨v, hv, -⟩ := doc.vars hvars
    exact ⟨v, hv⟩
  · obtain ⟨v, hv, -⟩ := doc.scopeVars hs
    exact ⟨v, hv⟩

theorem Documented.lookupVarWithIndex_none (doc : Documented h allVars allScopes)
    (path : List String) (name : String) :
    h.lookupVarWithIndex path name none = (varsAt h path).find? (hasName h name) := by
  rw [doc.lookupVarWithIndex_eq]
  simp only [Option.isNone_none, Bool.true_or, Bool.and_true]
  rfl

theorem mem_listVariables {r : VariableRef} :
    r ∈ listVariables h allVars ↔ ∃ id ∈ allVars, ∃ v, h.var id = some v ∧ v.isParameter = false ∧
      r = VariableRef.fromHierarchyStringWithId (listedName v) (some id) := by
  simp only [listVariables, List.mem_filterMap, Option.bind_eq_some_iff]
  grind

theorem refIn_eq_some {scope : ScopeRef} {id : VarId} {r : VariableRef} :
    refIn h scope id = some r ↔ ∃ v, h.var id = some v ∧ v.isParameter = false ∧
      r = VariableRef.newWithIdAndIndex scope v.name (some id) v.refIndex := by
  simp only [refIn, Option.bind_eq_some_iff]
  grind

/-- What is listed in a scope belongs to a variable at its path. -/
theorem exists_of_mem_listedInScopes (doc : Documented h allVars allScopes) {r : VariableRef}
    (hr : r ∈ listedInScopes h allScopes) :
    ∃ id ∈ allVars, ∃ v, h.var id = some v ∧ v.isParameter = false ∧ ∃ scope : ScopeRef,
      scope.strs = v.path ∧
      r = VariableRef.newWithIdAndIndex scope v.name (some id) v.refIndex := by
  obtain ⟨scope, hscope, hr⟩ := List.mem_flatMap.1 hr
  rcases List.mem_cons.1 hscope with rfl | hscope
  · -- outside all scopes
    obtain ⟨id, hid, hr⟩ := List.mem_filterMap.1 hr
    obtain ⟨v, hv, hparam, hr⟩ := refIn_eq_some.1 hr
    obtain ⟨v', hv', hpath⟩ := doc.vars hid
    cases hv.symm.trans hv'
    exact ⟨id, doc.mem_allVars.2 (.inl hid), v, hv, hparam, _, hpath.symm, hr⟩
  · obtain ⟨s, hs, rfl⟩ := List.mem_map.1 hscope
    simp only [variablesInScope, if_neg (doc.scopePath_ne hs), Option.some_or] at hr
    obtain ⟨id, hid, hr⟩ := List.mem_filterMap.1 hr
    obtain ⟨v, hv, hparam, hr⟩ := refIn_eq_some.1 hr
    obtain ⟨v', hv', hpath⟩ := doc.scopeVars hid
    cases hv.symm.trans hv'
    exact ⟨id, doc.mem_allVars.2 (.inr ⟨s, hs, hid⟩), v, hv, hparam, _, hpath.symm, hr⟩

/-- Every variable is listed in a scope with its path. -/
theorem exists_mem_listedInScopes (doc : Documented h allVars allScopes) {id : VarId} {v : Var}
    (hid : id ∈ allVars) (hv : h.var id = some v) (hparam : v.isParameter = false) :
    ∃ scope : ScopeRef, scope.strs = v.path ∧
      VariableRef.newWithIdAndIndex scope v.name (some id) v.refIndex ∈
        listedInScopes h allScopes := by
  rcases doc.mem_allVars.1 hid with hvars | ⟨s, hs, hscope⟩
  · obtain ⟨v', hv', hpath⟩ := doc.vars hvars
    cases hv.symm.trans hv'
    refine ⟨ScopeRef.empty, hpath.symm, List.mem_flatMap.2 ⟨_, List.mem_cons_self, ?_⟩⟩
    exact List.mem_filterMap.2 ⟨id, hvars, refIn_eq_some.2 ⟨v, hv, hparam, rfl⟩⟩
  · obtain ⟨v', hv', hpath⟩ := doc.scopeVars hscope
    cases hv.symm.trans hv'
    refine ⟨{ strs := h.scopePath s, id := some s }, hpath.symm, List.mem_flatMap.2
      ⟨_, List.mem_cons_of_mem _ (List.mem_map_of_mem hs), ?_⟩⟩
    simp only [variablesInScope, if_neg (doc.scopePath_ne hs), Option.some_or]
    exact List.mem_filterMap.2 ⟨id, hscope, refIn_eq_some.2 ⟨v, hv, hparam, rfl⟩⟩

/-- A reference that is read from a full name has no index, and there is no dot in its names. -/
theorem fromHierarchyStringWithId_noDot (s : String) (id : Option VarId) :
    (VariableRef.fromHierarchyStringWithId s id).index = none ∧
      (VariableRef.fromHierarchyStringWithId s id).id = id ∧
      ∀ p ∈ (VariableRef.fromHierarchyStringWithId s id).path.strs ++
        [(VariableRef.fromHierarchyStringWithId s id).name], '.' ∉ p.toList := by
  have hparts : ∀ p ∈ (s.toList.splitOn '.').map String.ofList, '.' ∉ p.toList := by
    intro p hp
    obtain ⟨l, hl, rfl⟩ := List.mem_map.1 hp
    simpa using Text.not_mem_of_mem_splitOn hl
  cases hlast : ((s.toList.splitOn '.').map String.ofList).getLast? with
  | none => simp [VariableRef.fromHierarchyStringWithId, hlast, ScopeRef.empty]
  | some last =>
    simp only [VariableRef.fromHierarchyStringWithId, hlast, ScopeRef.fromStrs, true_and]
    intro p hp
    rw [List.dropLast_append_getLast? _ hlast] at hp
    exact hparts p hp

/-- The full name of names without dots is read back. -/
theorem fromHierarchyStringWithId_fullName {v : Var} {id : Option VarId}
    (hdot : ∀ p ∈ v.path ++ [v.name], '.' ∉ p.toList) :
    VariableRef.fromHierarchyStringWithId (fullName v) id =
      { path := ScopeRef.fromStrs v.path, name := v.name, id, index := none } := by
  have hsplit := VariableRef.splitOn_intercalate (by simp) hdot
  simp only [VariableRef.fromHierarchyStringWithId, fullName, hsplit, List.getLast?_concat,
    List.dropLast_concat]

theorem listedName_of_refIndex {v : Var} (hv : v.refIndex = none) : listedName v = fullName v := by
  cases hindex : v.index with
  | none => simp [listedName, hindex]
  | some i =>
    simp only [Var.refIndex, hindex, Option.bind_some, ite_eq_right_iff, reduceCtorEq,
      imp_false] at hv
    simp [listedName, hindex, hv]

/-- A reference without an index that is listed in a scope belongs to a variable of its name. -/
theorem newWithIdAndIndex_index_none {scope : ScopeRef} {name : String} {id : Option VarId}
    {index : Option ℤ} (hnone : (VariableRef.newWithIdAndIndex scope name id index).index = none) :
    index = none ∧ ¬ EndsInIndex name := by
  cases index with
  | some i => cases hnone
  | none => exact ⟨rfl, fun hname => extractIndex_of_endsInIndex hname hnone⟩

/-- Where both lists are the same, the reference to a variable is made of its path and name. -/
theorem EnumerationAgrees.unambiguous (doc : Documented h allVars allScopes)
    (hagrees : EnumerationAgrees h allVars allScopes) {id : VarId} {v : Var} (hid : id ∈ allVars)
    (hv : h.var id = some v) (hparam : v.isParameter = false) : Unambiguous h id v := by
  have hlisted : VariableRef.fromHierarchyStringWithId (listedName v) (some id) ∈
      listVariables h allVars := mem_listVariables.2 ⟨id, hid, v, hv, hparam, rfl⟩
  have hresolves := (hagrees.resolves _ (List.mem_append_left _ hlisted)).2
  obtain ⟨hindex, hrid, hdot⟩ := fromHierarchyStringWithId_noDot (listedName v) (some id)
  -- the other list has the same reference, of which path, name and index are known
  obtain ⟨r, hr, hkey⟩ := List.mem_map.1 ((hagrees.keys _).1 (List.mem_map_of_mem hlisted))
  obtain ⟨id', -, v', hv', -, scope, hpath, rfl⟩ := exists_of_mem_listedInScopes doc hr
  simp only [key, Prod.mk.injEq] at hkey
  obtain ⟨hstrs, hname, hindex', hid'⟩ := hkey
  rw [hindex] at hindex'
  obtain ⟨hrefIndex, hends⟩ := newWithIdAndIndex_index_none hindex'
  rw [newWithIdAndIndex_eq hends] at hstrs hname hid'
  rw [hrid] at hid'
  cases hid'
  cases hv.symm.trans hv'
  rw [hpath] at hstrs
  rw [← hstrs, ← hname] at hdot
  refine ⟨hrefIndex, hends, hdot, ?_⟩
  simp only [getVarRef, VariableRef.clearId, hindex, Option.map_none, ← hstrs, ← hname, hrid,
    doc.lookupVarWithIndex_none] at hresolves
  exact hresolves

/-- What is found first is also found first among fewer. -/
theorem find?_of_imp {α : Type*} {p q : α → Bool} {l : List α} {a : α}
    (h : l.find? p = some a) (ha : q a) (himp : ∀ b, q b → p b) : l.find? q = some a := by
  obtain ⟨-, before, after, rfl, hbefore⟩ := List.find?_eq_some_iff_append.1 h
  rw [List.find?_eq_some_iff_append]
  refine ⟨ha, before, after, rfl, fun b hb => ?_⟩
  have hnot := hbefore b hb
  rw [Bool.not_eq_true'] at hnot ⊢
  exact Bool.eq_false_iff.2 fun hq => Bool.eq_false_iff.1 hnot (himp b hq)

/-- A variable without an index of its own has no range or a wide one. -/
theorem index_of_refIndex {v : Var} (hv : v.refIndex = none) :
    (v.index.isNone || v.index.any (2 ≤ ·.width)) = true := by
  cases hindex : v.index with
  | none => rfl
  | some i =>
    simp only [Var.refIndex, hindex, Option.bind_some, ite_eq_right_iff, reduceCtorEq,
      imp_false] at hv
    have hpos : 1 ≤ i.width := by simp [VarIndex.width]
    simp only [Option.isNone_some, Option.any_some, Bool.false_or, decide_eq_true_eq]
    omega

/-- The reference to an unambiguous variable is resolved. -/
theorem Unambiguous.resolves (doc : Documented h allVars allScopes) {id : VarId} {v : Var}
    (hv : h.var id = some v) (hclear : Unambiguous h id v) {scope : ScopeRef}
    (hscope : scope.strs = v.path) :
    Resolves h { path := scope, name := v.name, id := some id, index := none } := by
  constructor
  · simp only [updateVariableRef, VariableRef.clearId, Option.map_none, hscope,
      newWithIdAndIndex_eq hclear.name]
    have hfirst := hclear.first
    by_cases hpath : v.path = []
    · rw [hpath] at hfirst
      simp [hpath, doc.lookupVarWithIndex_none, hfirst]
    · simp only [varsAt, if_neg hpath] at hfirst ⊢
      cases hlookup : h.lookupScope v.path with
      | none => simp [hlookup] at hfirst
      | some s =>
        rw [hlookup] at hfirst
        -- the variable has no index or a wide one, so it is found here as well
        have hfound : (h.scopeVars s).find? (fun id => (h.var id).any fun v' =>
            v'.name == v.name && (v'.index.isNone || v'.index.any (2 ≤ ·.width))) = some id := by
          refine find?_of_imp hfirst ?_ fun id' hid' => ?_
          · rw [hv, Option.any_some, index_of_refIndex hclear.refIndex]
            simp
          · simp only [hasName, Option.any_eq_true, Bool.and_eq_true] at hid' ⊢
            obtain ⟨v', hv', hname, -⟩ := hid'
            exact ⟨v', hv', hname⟩
        simp [hfound]
  · simp [getVarRef, VariableRef.clearId, hscope, doc.lookupVarWithIndex_none, hclear.first]

/-- The reference that the full name of an unambiguous variable gives. -/
theorem Unambiguous.fromHierarchyStringWithId {id : VarId} {v : Var}
    (hclear : Unambiguous h id v) :
    VariableRef.fromHierarchyStringWithId (listedName v) (some id) =
      { path := ScopeRef.fromStrs v.path, name := v.name, id := some id, index := none } := by
  rw [listedName_of_refIndex hclear.refIndex, fromHierarchyStringWithId_fullName hclear.noDot]

/-- The reference to an unambiguous variable as a variable of a scope. -/
theorem Unambiguous.newWithIdAndIndex {id : VarId} {v : Var} (hclear : Unambiguous h id v)
    (scope : ScopeRef) :
    VariableRef.newWithIdAndIndex scope v.name (some id) v.refIndex =
      { path := scope, name := v.name, id := some id, index := none } := by
  rw [hclear.refIndex, newWithIdAndIndex_eq hclear.name]

theorem enumerationAgrees_of_unambiguous (doc : Documented h allVars allScopes)
    (hclear : ∀ id ∈ allVars, ∀ v, h.var id = some v → v.isParameter = false →
      Unambiguous h id v) : EnumerationAgrees h allVars allScopes where
  keys k := by
    constructor
    · intro hk
      obtain ⟨r, hr, rfl⟩ := List.mem_map.1 hk
      obtain ⟨id, hid, v, hv, hparam, rfl⟩ := mem_listVariables.1 hr
      obtain ⟨scope, hpath, hmem⟩ := exists_mem_listedInScopes doc hid hv hparam
      refine List.mem_map.2 ⟨_, hmem, ?_⟩
      have hc := hclear id hid v hv hparam
      rw [hc.fromHierarchyStringWithId, hc.newWithIdAndIndex]
      simp [key, ScopeRef.fromStrs, hpath]
    · intro hk
      obtain ⟨r, hr, rfl⟩ := List.mem_map.1 hk
      obtain ⟨id, hid, v, hv, hparam, scope, hpath, rfl⟩ := exists_of_mem_listedInScopes doc hr
      refine List.mem_map.2 ⟨_, mem_listVariables.2 ⟨id, hid, v, hv, hparam, rfl⟩, ?_⟩
      have hc := hclear id hid v hv hparam
      rw [hc.fromHierarchyStringWithId, hc.newWithIdAndIndex]
      simp [key, ScopeRef.fromStrs, hpath]
  resolves r hr := by
    rcases List.mem_append.1 hr with hr | hr
    · obtain ⟨id, hid, v, hv, hparam, rfl⟩ := mem_listVariables.1 hr
      have hc := hclear id hid v hv hparam
      rw [hc.fromHierarchyStringWithId]
      exact hc.resolves doc hv rfl
    · obtain ⟨id, hid, v, hv, hparam, scope, hpath, rfl⟩ := exists_of_mem_listedInScopes doc hr
      have hc := hclear id hid v hv hparam
      rw [hc.newWithIdAndIndex]
      exact hc.resolves doc hv hpath

/-- Both lists are the same and every listed reference is found again exactly if every variable that
is no parameter is unambiguous. -/
theorem enumerationAgrees_iff (doc : Documented h allVars allScopes) :
    EnumerationAgrees h allVars allScopes ↔
      ∀ id ∈ allVars, ∀ v, h.var id = some v → v.isParameter = false → Unambiguous h id v :=
  ⟨fun hagrees _ hid _ hv hparam => hagrees.unambiguous doc hid hv hparam,
    enumerationAgrees_of_unambiguous doc⟩

end Documented

/-- The first variable with a property, by its place and by its number. -/
theorem findIdx?_eq_find? {vars : List Var} (p : Var → Bool) :
    vars.findIdx? p = (List.range vars.length).find? fun id => (vars[id]?).any p := by
  ext id
  simp only [List.findIdx?_eq_some_iff_getElem, List.find?_range_eq_some, List.mem_range]
  constructor
  · rintro ⟨hlt, hp, hbefore⟩
    refine ⟨by simp [hlt, hp], hlt, fun j hj => ?_⟩
    have hj' : j < vars.length := by omega
    simpa [hj'] using hbefore j hj
  · rintro ⟨hp, hlt, hbefore⟩
    refine ⟨hlt, by simpa [hlt] using hp, fun j hj => ?_⟩
    have hj' : j < vars.length := by omega
    simpa [hj'] using hbefore j hj

/-- The lookups of a flat hierarchy go through its variables. -/
theorem documented_flat {vars : List Var} (hpath : ∀ v ∈ vars, v.path = []) :
    Documented (Hierarchy.flat vars) (List.range vars.length) [] where
  toLawful := Hierarchy.flat_lawful hpath
  lookupVar_eq path name := by
    by_cases hempty : path = []
    · simp only [Hierarchy.flat, varsAt, if_pos hempty]
      exact findIdx?_eq_find? _
    · simp [Hierarchy.flat, varsAt, hempty]
  lookupVarWithIndex_eq path name index := by
    by_cases hempty : path = []
    · simp only [Hierarchy.flat, varsAt, if_pos hempty]
      exact findIdx?_eq_find? _
    · simp [Hierarchy.flat, varsAt, hempty]
  scopePath_ne h := by cases h
  mem_allVars := by simp [Hierarchy.flat]

/-- A clock outside all scopes, with an index or without one. -/
def clock (index : Option VarIndex) : Var where
  path := []
  name := "clk"
  index := index
  isParameter := false
  signalRef := 0

theorem documented_clock (index : Option VarIndex) :
    Documented (Hierarchy.flat [clock index]) [0] [] :=
  @documented_flat [clock index] (by simp [clock])

theorem enumerationAgrees_clock : EnumerationAgrees (Hierarchy.flat [clock none]) [0] [] := by
  refine (enumerationAgrees_iff (documented_clock none)).2 fun id hid v hv _ => ?_
  rw [List.mem_singleton] at hid
  subst hid
  obtain rfl : clock none = v := by simpa [Hierarchy.flat] using hv
  refine ⟨rfl, ?_, by simp [clock], by simp [clock, varsAt, Hierarchy.flat, hasName]⟩
  rintro ⟨before, text, -, htext, -⟩
  have hmem : '[' ∈ (clock none).name.toList := by simp [htext]
  simp [clock] at hmem

/-- A clock with a one-bit index is listed under two names. -/
theorem not_forall_enumerationAgrees :
    ¬ ∀ h allVars allScopes, Documented h allVars allScopes →
      EnumerationAgrees h allVars allScopes := by
  intro hall
  have hdoc := documented_clock (some ⟨0, 0⟩)
  have hclear : Unambiguous _ 0 _ :=
    (hall _ _ _ hdoc).unambiguous hdoc (List.mem_singleton_self _) rfl rfl
  have hindex := hclear.refIndex
  simp [clock, Var.refIndex, VarIndex.width] at hindex

end Wellen
