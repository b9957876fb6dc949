import Kahuna.ItemTree.Basic
import Kahuna.Decoders.Basic

/-!
# The wave container and its hierarchy

The model of `variable_ref.rs`, of `wave_container.rs` and of the lookups of `wellen.rs`. A waveform
file has a hierarchy of scopes and variables, which the library that reads the file numbers. A
`VariableRef` names a variable by its path, and caches its number as a performance hint.

The hierarchy itself belongs to that library. Here it is a parameter, and `Hierarchy.Lawful` says
what its lookups are documented to return.
-/

namespace Wave

open Decoders (Bit BitLane)

/-- `wellen::VarRef`, the number of a variable. -/
abbrev VarId := ℕ

/-- `wellen::ScopeRef`, the number of a scope. -/
abbrev ScopeId := ℕ

/-- `wellen::SignalRef`, the number of the signal behind one or more variables. -/
abbrev SignalRef := ℕ

/-- A path in the hierarchy of scopes. The number is a performance hint. -/
structure ScopeRef where
  strs : List String
  id : Option ScopeId
  deriving DecidableEq, Repr

namespace ScopeRef

/-- The implementation of `PartialEq`: the number is not compared. -/
def eq (a b : ScopeRef) : Bool := a.strs == b.strs

/-- The scope with a name below this one. -/
def withSubscope (s : ScopeRef) (subscope : String) (id : Option ScopeId) : ScopeRef :=
  { strs := s.strs ++ [subscope], id }

/-- The last part of the path. -/
def name (s : ScopeRef) : String := s.strs.getLast?.getD ""

end ScopeRef

/-- A variable, by its path and name. -/
structure VariableRef where
  /-- Path to where the variable resides. -/
  path : ScopeRef
  name : String
  /-- Number of the variable, a performance hint. -/
  id : Option VarId
  /-- Points out a variable in an array of variables. -/
  index : Option ℤ
  deriving DecidableEq, Repr

namespace VariableRef

/-- The implementation of `PartialEq`: path and name are compared, number and index are not. -/
def eq (a b : VariableRef) : Bool := a.path.eq b.path && a.name == b.name

/-- The reference without its number. -/
def clearId (r : VariableRef) : VariableRef := { r with id := none }

end VariableRef

/-- `wellen::VarIndex`, the declared range of a variable. -/
structure VarIndex where
  msb : ℤ
  lsb : ℤ
  deriving DecidableEq, Repr

/-- The number of bits of a range. -/
def VarIndex.width (i : VarIndex) : ℕ := (i.msb - i.lsb).natAbs + 1

/-- `wellen::Var`, what the file says about a variable. -/
structure Var where
  /-- The names of the scopes around it. -/
  path : List String
  name : String
  index : Option VarIndex
  isParameter : Bool
  signalRef : SignalRef
  deriving DecidableEq, Repr

/-- The index of the references to a variable: a one-bit range points out a variable in an array, a
wider range does not. -/
def Var.refIndex (v : Var) : Option ℤ :=
  v.index.bind fun i => if i.width = 1 then some i.lsb else none

theorem Var.refIndex_of_index {v : Var} {i : ℤ} (hv : v.index = some ⟨i, i⟩) :
    v.refIndex = some i := by
  simp [Var.refIndex, hv, VarIndex.width]

theorem Var.refIndex_of_wide {v : Var} (hv : ∀ i, v.index = some i → 2 ≤ i.width) :
    v.refIndex = none := by
  cases hindex : v.index with
  | none => simp [Var.refIndex, hindex]
  | some i =>
    have hwide := hv i hindex
    have hne : i.width ≠ 1 := by omega
    simp [Var.refIndex, hindex, hne]

/-- `wellen::Hierarchy`, as far as it is used. -/
structure Hierarchy where
  /-- The variable with a number. -/
  var : VarId → Option Var
  /-- The variables outside all scopes. -/
  vars : List VarId
  /-- The scope at a path. -/
  lookupScope : List String → Option ScopeId
  /-- The names of a scope and of the scopes around it. -/
  scopePath : ScopeId → List String
  /-- The variables of a scope. -/
  scopeVars : ScopeId → List VarId
  /-- The scopes inside a scope, with their names. -/
  scopeScopes : ScopeId → List (String × ScopeId)
  /-- The nesting depth of the scopes. -/
  depth : ℕ
  /-- A variable at a path by its name. -/
  lookupVar : List String → String → Option VarId
  /-- A variable at a path by its name and, when there is one, its index. -/
  lookupVarWithIndex : List String → String → Option VarIndex → Option VarId

/-- What the lookups of a hierarchy are documented to return. -/
structure Hierarchy.Lawful (h : Hierarchy) : Prop where
  /-- The variables outside all scopes have the empty path. -/
  vars {id : VarId} : id ∈ h.vars → ∃ v, h.var id = some v ∧ v.path = []
  /-- The scope at a path has that path. -/
  lookupScope {path : List String} {s : ScopeId} : h.lookupScope path = some s →
    h.scopePath s = path
  /-- The variables of a scope have its path. -/
  scopeVars {s : ScopeId} {id : VarId} : id ∈ h.scopeVars s →
    ∃ v, h.var id = some v ∧ v.path = h.scopePath s
  /-- A scope inside a scope has its path, extended by its name. -/
  scopeScopes {s : ScopeId} {name : String} {child : ScopeId} : (name, child) ∈ h.scopeScopes s →
    h.scopePath child = h.scopePath s ++ [name]
  /-- A lookup by name finds a variable of the path and the name. -/
  lookupVar {path : List String} {name : String} {id : VarId} :
    h.lookupVar path name = some id →
    ∃ v, h.var id = some v ∧ v.path = path ∧ v.name = name
  /-- So does a lookup with an index, which it matches when it is given. -/
  lookupVarWithIndex {path : List String} {name : String} {index : Option VarIndex} {id : VarId} :
    h.lookupVarWithIndex path name index = some id →
    ∃ v, h.var id = some v ∧ v.path = path ∧ v.name = name ∧ (index = none ∨ v.index = index)

/-- The hierarchy of a file whose variables lie outside all scopes. -/
def Hierarchy.flat (vars : List Var) : Hierarchy where
  var id := vars[id]?
  vars := List.range vars.length
  lookupScope _ := none
  scopePath _ := []
  scopeVars _ := []
  scopeScopes _ := []
  depth := 0
  lookupVar path name := if path = [] then vars.findIdx? fun v => v.name == name else none
  lookupVarWithIndex path name index :=
    if path = [] then vars.findIdx? fun v => v.name == name && (index.isNone || v.index == index)
    else none

/-- The lookups of a flat hierarchy return what they should. -/
theorem Hierarchy.flat_lawful {vars : List Var} (h : ∀ v ∈ vars, v.path = []) :
    (Hierarchy.flat vars).Lawful where
  vars {id} hid := by
    have hlt : id < vars.length := List.mem_range.1 hid
    exact ⟨vars[id], List.getElem?_eq_getElem hlt, h _ (List.getElem_mem hlt)⟩
  lookupScope h := by cases h
  scopeVars h := by cases h
  scopeScopes h := by cases h
  lookupVar {path name id} hid := by
    simp only [flat] at hid
    split at hid
    next hpath =>
      obtain ⟨hlt, hname, -⟩ := List.findIdx?_eq_some_iff_getElem.1 hid
      refine ⟨vars[id], List.getElem?_eq_getElem hlt, ?_, by simpa using hname⟩
      rw [hpath, h _ (List.getElem_mem hlt)]
    next => cases hid
  lookupVarWithIndex {path name index id} hid := by
    simp only [flat] at hid
    split at hid
    next hpath =>
      obtain ⟨hlt, hname, -⟩ := List.findIdx?_eq_some_iff_getElem.1 hid
      simp only [Bool.and_eq_true, Bool.or_eq_true, beq_iff_eq, Option.isNone_iff_eq_none] at hname
      refine ⟨vars[id], List.getElem?_eq_getElem hlt, ?_, hname.1, hname.2⟩
      rw [hpath, h _ (List.getElem_mem hlt)]
    next => cases hid

/-- A value of a signal. -/
inductive VariableValue where
  | bigUint (value : ℕ)
  | string (text : String)
  deriving DecidableEq, Repr

/-- `WellenContainer`: a hierarchy, and the changes of the signals that are loaded. -/
structure WaveContainer where
  hierarchy : Hierarchy
  signals : SignalRef → Option (List (UInt64 × VariableValue))

namespace WaveContainer

/-- `get_var_ref`: a number that is present is trusted. -/
def getVarRef (w : WaveContainer) (r : VariableRef) : Option VarId :=
  match r.id with
  | some id => some id
  | none =>
    w.hierarchy.lookupVarWithIndex r.path.strs r.name (r.index.map fun i => ⟨i, i⟩)

/-- `get_var`, which indexes the hierarchy with the number. -/
def getVar (w : WaveContainer) (r : VariableRef) : Run (Option Var) :=
  match w.getVarRef r with
  | none => .ok none
  | some id =>
    match w.hierarchy.var id with
    | none => .error .outOfBounds
    | some v => .ok (some v)

/-- `variable_meta`, of which only the variable itself is kept. -/
def variableMeta (w : WaveContainer) (r : VariableRef) : Run (Option Var) := w.getVar r

/-- `load_variables`: the signals are requested, and arrive later. -/
def loadVariables (w : WaveContainer) : List VariableRef → Run Unit
  | [] => .ok ()
  | r :: rest =>
    match w.getVar r with
    | .error p => .error p
    | .ok _ => w.loadVariables rest

/-- Whether the variable with a number is found for a name and an index: the index is exact or, when
none is provided, the range has at least two bits. -/
def isCandidate (w : WaveContainer) (name : String) (index : Option VarIndex) (id : VarId) : Bool :=
  (w.hierarchy.var id).any fun v =>
    v.name == name && (v.index == index || index.isNone && v.index.any (2 ≤ ·.width))

/-- `update_variable_ref`: the reference to the variable of the same name in this container. -/
def updateVariableRef (w : WaveContainer) (r : VariableRef) : Option VariableRef :=
  let h := w.hierarchy
  let index := r.index.map fun i => (⟨i, i⟩ : VarIndex)
  if r.path.strs = [] then
    -- the fallback looks the variable up without its index
    ((h.lookupVarWithIndex [] r.name index).or (h.lookupVar [] r.name)).map fun id =>
      { r with id := some id }
  else
    (h.lookupScope r.path.strs).bind fun scope =>
      ((h.scopeVars scope).find? (w.isCandidate r.name index)).map fun id =>
        { r with path := { r.path with id := some scope }, id := some id }

/-- `lookup_scope`: a number that is present is trusted. -/
def lookupScope (w : WaveContainer) (s : ScopeRef) : Option ScopeId :=
  match s.id with
  | some id => some id
  | none => w.hierarchy.lookupScope s.strs

/-- The reference to the variable with a number, as a variable of `scope`. -/
def refIn (w : WaveContainer) (scope : ScopeRef) (id : VarId) : Option VariableRef :=
  (w.hierarchy.var id).bind fun v =>
    if v.isParameter then none
    else some { path := scope, name := v.name, id := some id, index := v.refIndex }

/-- `variables_in_scope`: the variables of a scope that are no parameters. -/
def variablesInScope (w : WaveContainer) (scope : ScopeRef) : List VariableRef :=
  if scope.strs = [] then w.hierarchy.vars.filterMap (w.refIn scope)
  else
    match w.lookupScope scope with
    | none => []
    | some id => (w.hierarchy.scopeVars id).filterMap (w.refIn scope)

/-- `child_scopes`, with no scopes where it fails. -/
def childScopes (w : WaveContainer) (scope : ScopeRef) : List ScopeRef :=
  match w.lookupScope scope with
  | none => []
  | some id =>
    (w.hierarchy.scopeScopes id).map fun child => scope.withSubscope child.1 (some child.2)

/-- The signal behind a variable. -/
def signalRef (w : WaveContainer) (r : VariableRef) : Run (Option SignalRef) :=
  match w.getVar r with
  | .error p => .error p
  | .ok v => .ok (v.map Var.signalRef)

/-- Whether the data of a signal is available. -/
def isSignalLoaded (w : WaveContainer) (s : SignalRef) : Bool := (w.signals s).isSome

end WaveContainer

end Wave
