import Kahuna.Cxxrtl.Basic
import Kahuna.Paths.Basic
import Kahuna.Text.Separators

/-!
# The scopes of a design

A server lists its scopes by their names, in which the parts of a path are separated by blanks. The name of the
root is empty. The client cuts the names at the blanks, and walks from the root to the scopes below it.

* `ScopeNames`: what a server may list;
* `splitSpaces_scopeRepr`: all names but that of the root are cut into the parts of the path;
* `isTree_iff`: the scopes form a tree exactly when the root is not listed.
-/

namespace Cxxrtl

open Wave Paths

/-- A part of a path. -/
def IsPart (part : String) : Prop := part ≠ "" ∧ ' ' ∉ part.toList

instance (part : String) : Decidable (IsPart part) := inferInstanceAs (Decidable (_ ∧ _))

/-- The paths of the scopes that are listed. The root has the empty path. -/
structure ScopeNames where
  paths : List ScopeKey
  nodup : paths.Nodup
  parts : ∀ path ∈ paths, ∀ part ∈ path, IsPart part

/-- The names as the server lists them. -/
def ScopeNames.names (s : ScopeNames) : List String := s.paths.map scopeRepr

/-- The container after the answer that lists the scopes. -/
def CxxrtlContainer.withScopes (c : CxxrtlContainer) (names : List String) : CxxrtlContainer :=
  { c with data := Callback.call (.listScopes names) c.data .listScopes }

/-! ## Names -/

variable {path : ScopeKey} {name : String}

/-- A path with parts is found in its name. -/
theorem splitSpaces_scopeRepr (hne : path ≠ []) (h : ∀ part ∈ path, IsPart part) :
    splitSpaces (scopeRepr path) = path :=
  Text.map_splitOn_intercalate rfl hne fun part hpart => (h part hpart).2

/-- The root is not. -/
theorem splitSpaces_scopeRepr_nil : splitSpaces (scopeRepr []) = [""] := by decide

/-- The name of a variable is cut into the path of its scope and its own name. -/
theorem splitSpaces_keyRepr (h : ∀ part ∈ path, IsPart part) (hname : IsPart name) :
    splitSpaces (keyRepr (path, name)) = path ++ [name] :=
  Text.map_splitOn_intercalate rfl (by simp) fun part hpart => by
    rcases List.mem_append.1 hpart with hpart | hpart
    · exact (h part hpart).2
    · exact (List.mem_singleton.1 hpart) ▸ hname.2

theorem scopeRepr_ne (hne : path ≠ []) (h : ∀ part ∈ path, IsPart part) : scopeRepr path ≠ scopeRepr [] := by
  intro heq
  have hcut := splitSpaces_scopeRepr hne h
  rw [heq, splitSpaces_scopeRepr_nil] at hcut
  exact (h "" (hcut ▸ List.mem_singleton_self "")).1 rfl

/-- Different scopes have different names. -/
theorem scopeRepr_injective {path' : ScopeKey} (h : ∀ part ∈ path, IsPart part) (h' : ∀ part ∈ path', IsPart part)
    (heq : scopeRepr path = scopeRepr path') : path = path' := by
  by_cases hne : path = []
  · subst hne
    by_contra hne'
    exact scopeRepr_ne (Ne.symm hne') h' heq.symm
  · by_cases hne' : path' = []
    · subst hne'
      exact absurd heq (scopeRepr_ne hne h)
    · rw [← splitSpaces_scopeRepr hne h, heq, splitSpaces_scopeRepr hne' h']

theorem ScopeNames.mem_names_iff (s : ScopeNames) : "" ∈ s.names ↔ [] ∈ s.paths := by
  rw [names, List.mem_map]
  constructor
  · rintro ⟨path, hpath, hname⟩
    have hroot : path = [] := scopeRepr_injective (s.parts path hpath) (List.forall_mem_nil _) hname
    exact hroot ▸ hpath
  · exact fun hroot => ⟨[], hroot, rfl⟩

/-- Without the root, the names are cut into the paths. -/
theorem ScopeNames.map_splitSpaces (s : ScopeNames) (h : [] ∉ s.paths) : s.names.map splitSpaces = s.paths := by
  have hcut : ∀ path ∈ s.paths, (splitSpaces ∘ scopeRepr) path = id path :=
    fun path hpath => splitSpaces_scopeRepr (fun hroot => h (hroot ▸ hpath)) (s.parts path hpath)
  rw [names, List.map_map, List.map_congr_left hcut, List.map_id]

/-! ## The walk -/

namespace CxxrtlContainer

variable (c : CxxrtlContainer) (names : List String)

theorem getScopes_withScopes :
    (c.withScopes names).getScopes = (names.map splitSpaces, c.withScopes names) := rfl

theorem childScopes_withScopes (parent : ScopeRef) : (c.withScopes names).childScopes parent =
    ((children (names.map splitSpaces) parent.strs).map fun strs => { strs, id := none }, c.withScopes names) := rfl

/-- The scopes that a walk from the root reaches in a round. -/
def walk (c : CxxrtlContainer) : ℕ → List ScopeRef
  | 0 => c.rootModules.1
  | n + 1 => (c.walk n).flatMap fun scope => (c.childScopes scope).1

theorem walk_withScopes (n : ℕ) : (c.withScopes names).walk n =
    (level (names.map splitSpaces) n).map fun strs => { strs, id := none } := by
  induction n with
  | zero => rfl
  | succ n ih =>
    rw [walk, ih, level, List.map_flatMap, List.flatMap_map]
    rfl

end CxxrtlContainer

/-- The scopes that were listed are those of the variables, none is listed below itself, and each of which no
scope around it is missing is reached once from the root. -/
structure IsTree (c : CxxrtlContainer) (s : ScopeNames) : Prop where
  built : List.Forall₂ (fun path strs => scopeRepr strs = scopeRepr path ∧ strs = path ∧
    ∀ name, IsPart name → (splitSpaces (keyRepr (path, name))).dropLast = strs) s.paths c.getScopes.1
  child_ne : ∀ parent, ∀ child ∈ (c.childScopes parent).1, scopeRepr child.strs ≠ scopeRepr parent.strs
  once : ∀ path ∈ s.paths, (∀ k, 0 < k → k < path.length → path.take k ∈ s.paths) →
    ∃ n, ∀ m, (c.walk m).count { strs := path, id := none } = if m = n then 1 else 0

/-- The root is listed as a scope below itself. -/
theorem not_isTree {c : CxxrtlContainer} {s : ScopeNames} (h : [] ∈ s.paths) : ¬ IsTree (c.withScopes s.names) s := by
  intro htree
  refine htree.child_ne { strs := [], id := none } { strs := [""], id := none } ?_ rfl
  rw [CxxrtlContainer.childScopes_withScopes]
  refine List.mem_map.2 ⟨[""], mem_children_iff.2 ⟨?_, rfl, rfl⟩, rfl⟩
  exact List.mem_map.2 ⟨"", s.mem_names_iff.2 h, rfl⟩

/-- The scopes form a tree exactly when the root is not listed. -/
theorem isTree_iff (c : CxxrtlContainer) (s : ScopeNames) : IsTree (c.withScopes s.names) s ↔ "" ∉ s.names := by
  rw [s.mem_names_iff]
  refine ⟨fun htree hroot => not_isTree hroot htree, fun hroot => ?_⟩
  have hpaths := s.map_splitSpaces hroot
  constructor
  · rw [CxxrtlContainer.getScopes_withScopes, hpaths, List.forall₂_same]
    refine fun path hpath => ⟨rfl, rfl, fun name hname => ?_⟩
    rw [splitSpaces_keyRepr (s.parts path hpath) hname, List.dropLast_concat]
  · intro parent child hchild heq
    rw [CxxrtlContainer.childScopes_withScopes, hpaths] at hchild
    obtain ⟨strs, hstrs, rfl⟩ := List.mem_map.1 hchild
    obtain ⟨hmem, hlen, htake⟩ := mem_children_iff.1 hstrs
    -- the path of the parent is the beginning of the other one
    have hparts : ∀ part ∈ parent.strs, IsPart part := by
      rw [← htake]
      exact fun part hpart => s.parts strs hmem part (List.mem_of_mem_take hpart)
    have hsame := scopeRepr_injective (s.parts strs hmem) hparts heq
    rw [hsame] at hlen
    omega
  · intro path hpath hbegins
    refine ⟨path.length, fun m => ?_⟩
    have hinj : Function.Injective fun strs : ScopeKey => ({ strs, id := none } : ScopeRef) := by
      intro a b hab
      exact congrArg ScopeRef.strs hab
    rw [CxxrtlContainer.walk_withScopes, hpaths]
    refine (List.count_map_of_injective _ _ hinj path).trans (count_level s.nodup (fun k hk hle => ?_) m)
    rcases hle.lt_or_eq with hlt | rfl
    · exact hbegins k hk hlt
    · rwa [List.take_length]

/-- A design with the root and a scope in it. -/
def rootAndTop : ScopeNames where
  paths := [[], ["top"]]
  nodup := by decide
  parts := by decide

theorem rootAndTop_not_isTree : ¬ ∀ (c : CxxrtlContainer) (s : ScopeNames), IsTree (c.withScopes s.names) s :=
  fun h => not_isTree (List.mem_cons_self) (h .new rootAndTop)

end Cxxrtl
