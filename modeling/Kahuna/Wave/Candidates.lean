import Kahuna.Outline.Repeats
import Kahuna.Wave.Data

/-!
# The candidates of a decoder

`signals_of` walks the tree and lets each selected item contribute its variables, then drops neighbours
with one path and one name. What is below a selected group is contributed again when it is selected too,
and a variable may be shown in rows that are apart. So the candidates are the marked variables, each
once, exactly when the rows of one path and one name stand together.
-/

namespace Wave

open ItemTree Outline Timeline

/-- What tells variables apart. -/
structure VariableKey where
  path : List String
  name : String
  index : Option ℤ
  deriving DecidableEq, Repr

/-- Path and name, which is what references are compared by. -/
def VariableKey.label (k : VariableKey) : List String × String := (k.path, k.name)

namespace VariableRef

/-- The reference without the numbers, which are hints. -/
def key (r : VariableRef) : VariableKey := { path := r.path.strs, name := r.name, index := r.index }

theorem eq_iff (a b : VariableRef) : a.eq b = true ↔ a.key.label = b.key.label := by
  simp [eq, ScopeRef.eq, VariableKey.label, key]

end VariableRef

namespace WaveData

variable (w : WaveData) (items : List DisplayedItemRef)

/-- The variables of the rows that are selected or lie under a selected group, in tree order. -/
def markedRefs : List VariableRef :=
  (withPaths Node.level w.itemsTree.items).filterMap fun row =>
    if items.contains row.1.itemRef || row.2.any (fun g => items.contains g.itemRef && w.isGroup g) then
      w.variableOf row.1
    else none

/-- Each variable once, in the order of the rows that show it first. -/
def EachOnce (candidates rows : List VariableRef) : Prop :=
  candidates.map VariableRef.key = (rows.map VariableRef.key).eraseDups

instance (candidates rows : List VariableRef) : Decidable (EachOnce candidates rows) :=
  inferInstanceAs (Decidable (_ = _))

/-- A row has the path and the name of the row before it exactly when an earlier row shows its
variable. -/
def Together (rows : List VariableRef) : Prop :=
  ∀ pre r post, rows = pre ++ r :: post →
    ((∃ l ∈ pre.getLast?, l.eq r) ↔ ∃ a ∈ pre, a.key = r.key)

/-- The variables that the selected item in front of `rest` stands for. -/
def standsFor (node : Node) (rest : List Node) : List VariableRef :=
  if w.isGroup node then (under Node.level node rest).filterMap w.variableOf
  else (w.variableOf node).toList

/-- What is selected under a selected group stands for variables with the path and the name of the last
variable under the group. -/
def NestedTogether : Prop :=
  ∀ g rest, (g :: rest) <:+ w.itemsTree.items → items.contains g.itemRef → w.isGroup g →
    ∀ s rest', (s :: rest') <:+ under Node.level g rest → items.contains s.itemRef →
      ∀ r ∈ w.standsFor s rest', ∀ l ∈ ((under Node.level g rest).filterMap w.variableOf).getLast?,
        l.eq r

variable {w items}

/-- The loop collects what the selected items stand for. -/
theorem signalsLoop_eq (nodes : List Node) : w.signalsLoop items nodes =
    collect Node.level (fun n => items.contains n.itemRef) w.isGroup w.variableOf nodes := by
  induction nodes with
  | nil => rfl
  | cons node rest ih =>
    rw [signalsLoop, collect, ih]
    rfl

/-- What is left after neighbours are dropped are the turns of path and name. -/
theorem dedupRefs_cons (r : VariableRef) (rest : List VariableRef) :
    dedupRefs (r :: rest) =
      r :: turns (fun r => r.key.label) (some r.key.label) rest := by
  induction rest generalizing r with
  | nil => rfl
  | cons r' rest ih =>
    rw [dedupRefs, ih r', turns]
    by_cases heq : r.eq r' = true
    · have hlabel := (VariableRef.eq_iff r r').mp heq
      simp only [if_pos heq, hlabel, if_true]
    · have hlabel : ¬ some (r.key.label) = some (r'.key.label) :=
        fun h => heq ((VariableRef.eq_iff r r').mpr (Option.some.inj h))
      simp only [if_neg heq, if_neg hlabel]

theorem dedupRefs_eq (refs : List VariableRef) :
    dedupRefs refs = turns (fun r => r.key.label) none refs := by
  cases refs with
  | nil => rfl
  | cons r rest => rw [dedupRefs_cons, turns_none_cons]

/-- A group shows no variable. -/
theorem variableOf_of_isGroup {node : Node} (h : w.isGroup node = true) : w.variableOf node = none := by
  rw [isGroup, Option.any_eq_true] at h
  obtain ⟨item, hget, hgroup⟩ := h
  rw [variableOf, hget]
  cases item <;> first | rfl | simp [DisplayedItem.isGroup] at hgroup

theorem together_iff (rows : List VariableRef) :
    Agrees VariableKey.label none [] (rows.map VariableRef.key) ↔ Together rows := by
  rw [agrees_iff]
  constructor
  · rintro h pre r post rfl
    have hkeys := h (pre.map VariableRef.key) r.key (post.map VariableRef.key) (by simp)
    simpa [List.getLast?_map, VariableRef.eq_iff] using hkeys
  · intro h pre k post heq
    obtain ⟨as, bs, rfl, rfl, hbs⟩ := List.map_eq_append_iff.mp heq
    obtain ⟨r, cs, rfl, rfl, rfl⟩ := List.map_eq_cons_iff.mp hbs
    have hrows := h as r cs rfl
    simpa [List.getLast?_map, VariableRef.eq_iff] using hrows

theorem nestedTogether_iff : w.NestedTogether items ↔
    RepeatsApart Node.level (fun n => items.contains n.itemRef) w.isGroup w.variableOf
      (fun r => r.key.label) w.itemsTree.items := by
  simp only [NestedTogether, RepeatsApart, VariableRef.eq_iff]
  rfl

/-- The candidates are the marked variables, each once, exactly when the rows of a path and a name stand
together. -/
theorem signalsOf_eachOnce_iff (w : WaveData) (items : List DisplayedItemRef) :
    EachOnce (w.signalsOf items) (w.markedRefs items) ↔
      Together (w.markedRefs items) ∧ w.NestedTogether items := by
  have hval : ∀ node, w.isGroup node → (w.variableOf node).map VariableRef.key = none :=
    fun node hnode => by rw [variableOf_of_isGroup hnode]; rfl
  have hmarked : markedFrom Node.level (fun n => items.contains n.itemRef) w.isGroup
      (fun n => (w.variableOf n).map VariableRef.key) [] w.itemsTree.items =
        (w.markedRefs items).map VariableRef.key := by
    rw [markedFrom_map]
    rfl
  have hcollect : collect Node.level (fun n => items.contains n.itemRef) w.isGroup
      (fun n => (w.variableOf n).map VariableRef.key) w.itemsTree.items =
        (w.signalsLoop items w.itemsTree.items).map VariableRef.key := by
    rw [collect_map, signalsLoop_eq]
  -- the rows that are walked first are the marked ones
  have hfirsts : ((w.signalsLoop items w.itemsTree.items).map VariableRef.key).eraseDups =
      ((w.markedRefs items).map VariableRef.key).eraseDups := by
    have hall := @eraseDups_collect Node _ Node.level (fun n => items.contains n.itemRef) w.isGroup _
      w.itemsTree.items _ hval [] (by simp) fun _ => true
    rwa [List.filter_true, List.filter_true, hcollect, hmarked] at hall
  have hagrees := @agrees_collect Node _ _ Node.level (fun n => items.contains n.itemRef) w.isGroup _
    VariableKey.label w.itemsTree.items hval [] (by simp) none []
  rw [hcollect, hmarked, repeatsApart_map, ← nestedTogether_iff,
    together_iff (w.markedRefs items)] at hagrees
  rw [EachOnce, signalsOf, dedupRefs_eq, map_turns, ← hfirsts, turns_eq_eraseDups_iff, hagrees]

/-- A group with two variables, shown below it. -/
def twoInGroup : WaveData :=
  let row (name : String) : DisplayedItem :=
    .variable_ { variableRef := ⟨⟨["top"], none⟩, name, none, none⟩, manualName := none, format := none }
  { WaveData.loaded { hierarchy := .flat [], signals _ := none } with
    itemsTree := { items := [⟨1, 0, true, false⟩, ⟨2, 1, true, false⟩, ⟨3, 1, true, false⟩] }
    displayedItems := ((FiniteMap.empty.insert 1 (.group "bus")).insert 2 (row "clk")).insert 3 (row "data")
    displayItemRefCounter := 3 }

/-- When the group is selected and its first variable too, that variable is a candidate twice. -/
theorem not_eachOnce_twoInGroup :
    ¬ EachOnce (twoInGroup.signalsOf [1, 2]) (twoInGroup.markedRefs [1, 2]) := by
  decide

end WaveData

end Wave
