import Kahuna.Sorting.Basic
import Kahuna.Wave.Names

/-!
# The list of variables and its button

The model of `add_filtered_variables` and the filters of `variable_filter.rs`, and of the lists that
`draw_variables` and `draw_all_variables` of `hierarchy.rs` show. The button above a list adds variables, which
should be the ones of the list.

* `added_eq_shown_iff`: they are exactly if the name filter does not depend on the path, the priorities of the
  translators do not change the order, and the list shows nothing that the button leaves out.
-/

namespace Wave

/-- `VariableDirection`, in the order that variables are sorted by. -/
inductive VariableDirection where
  | input
  | output
  | inOut
  | buffer
  | linkage
  | implicit
  | unknown
  deriving DecidableEq, Repr

/-- The place of a direction in the order. -/
def VariableDirection.rank : VariableDirection → ℕ
  | input => 0
  | output => 1
  | inOut => 2
  | buffer => 3
  | linkage => 4
  | implicit => 5
  | unknown => 6

theorem VariableDirection.rank_injective : Function.Injective rank := by
  intro a b h
  cases a <;> cases b <;> first | rfl | cases h

/-- `VariableMeta`, by what is asked of it here. -/
structure VariableMeta where
  direction : Option VariableDirection

/-- `VariableNameInfo`, by what is asked of it here. -/
structure VariableNameInfo where
  priority : Option ℤ

/-- `VariableFilter`. The name filter is what `name_filter_fn` returns. -/
structure VariableFilter where
  nameFilter : String → Bool
  includeInputs : Bool
  includeOutputs : Bool
  includeInouts : Bool
  includeOthers : Bool
  groupByDirection : Bool

/-- `ParameterDisplayLocation`. -/
inductive ParameterDisplayLocation where
  | variableList
  | scopes
  | tooltips
  | none
  deriving DecidableEq

/-- `ScopeType`. Streams are none of a waveform. -/
inductive ScopeType where
  | waveScope (scope : ScopeRef)
  | streamScope
  deriving DecidableEq

/-- What the list and its button read of the state, with the lookups of the waveform that is loaded. -/
structure VariableList where
  /-- `variables`. -/
  allVariables : List VariableRef
  variablesInScope : ScopeRef → List VariableRef
  parametersInScope : ScopeRef → List VariableRef
  variableMeta : VariableRef → Option VariableMeta
  /-- `get_variable_name_info`, which the translators give. -/
  variableNameInfo : VariableRef → Option VariableNameInfo
  activeScope : Option ScopeType
  variableFilter : VariableFilter
  parameterDisplayLocation : ParameterDisplayLocation
  /-- Whether the section of the parameters is expanded. -/
  parametersOpen : Bool

/-- The message of the button. -/
inductive VariableListMessage where
  | addVariables (vars : List VariableRef)

namespace VariableList

variable (numericCmp : String → String → Ordering) (s : VariableList)

/-- `get_variable_direction`. -/
def getVariableDirection (v : VariableRef) : VariableDirection :=
  match s.variableMeta v with
  | some info => info.direction.getD .unknown
  | none => .unknown

/-- `kind_filter`. -/
def kindFilter (v : VariableRef) : Bool :=
  match s.getVariableDirection v with
  | .input => s.variableFilter.includeInputs
  | .output => s.variableFilter.includeOutputs
  | .inOut => s.variableFilter.includeInouts
  | _ => s.variableFilter.includeOthers

/-- `matching_variables`. -/
def matchingVariables (vars : List VariableRef) (fullPath : Bool) : List VariableRef :=
  if fullPath then
    (vars.filter s.kindFilter).filter fun v => s.variableFilter.nameFilter v.fullPathString
  else
    (vars.filter s.kindFilter).filter fun v => s.variableFilter.nameFilter v.name

/-- `variable_cmp`. Names are compared by `numeric_sort`. -/
def variableCmp (a b : VariableRef) : Ordering :=
  if !s.variableFilter.groupByDirection then numericCmp a.name b.name
  else if s.getVariableDirection a = s.getVariableDirection b then numericCmp a.name b.name
  else if (s.getVariableDirection a).rank < (s.getVariableDirection b).rank then .lt
  else .gt

/-- `filtered_variables`. -/
def filteredVariables (vars : List VariableRef) (fullPath : Bool) : List VariableRef :=
  (s.matchingVariables vars fullPath).insertionSort (Sorting.le (s.variableCmp numericCmp))

/-- `filtered_variables_unsorted`. -/
def filteredVariablesUnsorted (vars : List VariableRef) (fullPath : Bool) : List VariableRef :=
  s.matchingVariables vars fullPath

/-- The priority of a variable. -/
def priority (v : VariableRef) : ℤ := ((s.variableNameInfo v).bind VariableNameInfo.priority).getD 0

/-- How rows are compared: the higher priority comes first. -/
def rowCmp (a b : VariableRef) : Ordering :=
  (compare (s.priority b) (s.priority a)).then (s.variableCmp numericCmp a b)

/-- `build_variable_rows`, by the variables of the rows. -/
def buildVariableRows (vars : List VariableRef) : List VariableRef :=
  vars.insertionSort (Sorting.le (s.rowCmp numericCmp))

/-- `add_filtered_variables`. -/
def addFilteredVariables (fullPath : Bool) : List VariableListMessage :=
  if fullPath then [.addVariables (s.filteredVariables numericCmp s.allVariables false)]
  else
    match s.activeScope with
    | some (.waveScope activeScope) =>
      [.addVariables (s.filteredVariables numericCmp (s.variablesInScope activeScope) false)]
    | some .streamScope => []
    | none => []

/-- The variables that `filter_and_draw_variable_list` shows. -/
def filterAndDrawVariableList (vars : List VariableRef) : List VariableRef :=
  s.buildVariableRows numericCmp (s.filteredVariablesUnsorted vars false)

/-- The variables that `draw_variables` shows. -/
def drawVariables : List VariableRef :=
  match s.activeScope.getD (.waveScope ScopeRef.empty) with
  | .waveScope scope =>
    let vars := s.filteredVariablesUnsorted (s.variablesInScope scope) false
    let variableRows := s.buildVariableRows numericCmp vars
    let parameters := s.parametersInScope scope
    if s.parameterDisplayLocation = .variableList ∧ parameters ≠ [] then
      (if s.parametersOpen then s.filterAndDrawVariableList numericCmp parameters else []) ++ variableRows
    else variableRows
  | .streamScope => []

/-- The variables that `draw_all_variables` shows. -/
def drawAllVariables : List VariableRef :=
  s.buildVariableRows numericCmp (s.filteredVariablesUnsorted s.allVariables true)

/-! ## What is added and what is shown -/

/-- The variables that the button adds. -/
def added (fullPath : Bool) : List VariableRef :=
  (s.addFilteredVariables numericCmp fullPath).flatMap fun
    | .addVariables vars => vars

/-- The variables of the list that the button belongs to. -/
def shown (fullPath : Bool) : List VariableRef :=
  if fullPath then s.drawAllVariables numericCmp else s.drawVariables numericCmp

/-- The priorities do not change the order by direction and name: what is in front in the hierarchy and has the
lower priority comes behind anyway, and with the higher priority it does not. -/
def PrioritiesAgree (listed : List VariableRef) : Prop :=
  listed.Pairwise fun a b =>
    (s.priority a < s.priority b → s.variableCmp numericCmp a b = .gt) ∧
      (s.priority b < s.priority a → s.variableCmp numericCmp a b ≠ .gt)

/-- No parameter of a scope is shown above its variables. -/
def NoParameters (scope : ScopeRef) : Prop :=
  s.parameterDisplayLocation = .variableList → s.parametersOpen → s.matchingVariables (s.parametersInScope scope) false = []

/-- When the button adds what is listed. -/
def Agrees (fullPath : Bool) : Prop :=
  if fullPath then
    (∀ v ∈ s.allVariables, s.kindFilter v →
      (s.variableFilter.nameFilter v.fullPathString ↔ s.variableFilter.nameFilter v.name)) ∧
    s.PrioritiesAgree numericCmp (s.matchingVariables s.allVariables true)
  else
    match s.activeScope with
    | some (.waveScope scope) =>
      s.NoParameters scope ∧ s.PrioritiesAgree numericCmp (s.matchingVariables (s.variablesInScope scope) false)
    | some .streamScope => True
    | none => s.NoParameters ScopeRef.empty ∧ s.matchingVariables (s.variablesInScope ScopeRef.empty) false = []

variable {numericCmp} {s} {a b : VariableRef} {vars : List VariableRef} {fullPath : Bool}

/-! ## Filters -/

theorem mem_matchingVariables {v : VariableRef} :
    v ∈ s.matchingVariables vars fullPath ↔ v ∈ vars ∧ s.kindFilter v ∧
      s.variableFilter.nameFilter (if fullPath then v.fullPathString else v.name) := by
  cases fullPath <;> simp [matchingVariables, and_comm]

/-- A filter that does not depend on the path. -/
theorem matchingVariables_congr (h : ∀ v ∈ vars, s.kindFilter v →
    (s.variableFilter.nameFilter v.fullPathString ↔ s.variableFilter.nameFilter v.name)) :
    s.matchingVariables vars false = s.matchingVariables vars true := by
  simp only [matchingVariables, if_true, Bool.false_eq_true, if_false]
  refine List.filter_congr fun v hv => ?_
  obtain ⟨hmem, hkind⟩ := List.mem_filter.1 hv
  exact (Bool.eq_iff_iff.2 (h v hmem hkind)).symm

/-- The variables of a scope are shown behind its parameters. -/
theorem shown_of_scope (numericCmp : String → String → Ordering) {scope : ScopeRef}
    (hscope : s.activeScope.getD (.waveScope .empty) = .waveScope scope) :
    ∃ parameters, s.shown numericCmp false =
        parameters ++ s.buildVariableRows numericCmp (s.matchingVariables (s.variablesInScope scope) false) ∧
      (parameters = [] ↔ s.NoParameters scope) := by
  have hlist : s.shown numericCmp false = s.drawVariables numericCmp := rfl
  rw [hlist, drawVariables, hscope]
  dsimp only
  by_cases hshow : s.parameterDisplayLocation = .variableList ∧ s.parametersInScope scope ≠ []
  · rw [if_pos hshow]
    refine ⟨_, rfl, ?_⟩
    -- sorting shows nothing exactly if the filter leaves nothing
    have hrows : s.filterAndDrawVariableList numericCmp (s.parametersInScope scope) = [] ↔
        s.matchingVariables (s.parametersInScope scope) false = [] := by
      rw [filterAndDrawVariableList, buildVariableRows, filteredVariablesUnsorted, ← List.length_eq_zero_iff,
        List.length_insertionSort, List.length_eq_zero_iff]
    rw [NoParameters]
    by_cases hopen : s.parametersOpen
    · simp [hopen, hrows, hshow.1]
    · simp [hopen]
  · rw [if_neg hshow]
    refine ⟨[], rfl, iff_of_true rfl fun hlocation _ => ?_⟩
    have hnone : s.parametersInScope scope = [] := by
      by_contra hne
      exact hshow ⟨hlocation, hne⟩
    rw [hnone]
    simp [matchingVariables]

/-! ## The orders -/

theorem variableCmp_eq (numericCmp : String → String → Ordering) (s : VariableList) :
    s.variableCmp numericCmp = compareLex
      (fun a b => if s.variableFilter.groupByDirection then
        compare (s.getVariableDirection a).rank (s.getVariableDirection b).rank else .eq)
      (fun a b => numericCmp a.name b.name) := by
  funext a b
  rw [variableCmp, compareLex]
  cases s.variableFilter.groupByDirection with
  | false => rfl
  | true =>
    by_cases heq : s.getVariableDirection a = s.getVariableDirection b
    · simp [heq]
    · have hrank := mt (@VariableDirection.rank_injective _ _) heq
      rcases Nat.lt_or_gt_of_ne hrank with hlt | hgt
      · simp [heq, hlt, Nat.compare_eq_lt.2 hlt]
      · simp [heq, Nat.not_lt.2 hgt.le, Nat.compare_eq_gt.2 hgt]

/-- Where the rows and the variables are compared alike. -/
theorem le_rowCmp_iff :
    (Sorting.le (s.rowCmp numericCmp) a b ↔ Sorting.le (s.variableCmp numericCmp) a b) ↔
      (s.priority a < s.priority b → s.variableCmp numericCmp a b = .gt) ∧
        (s.priority b < s.priority a → s.variableCmp numericCmp a b ≠ .gt) := by
  simp only [Sorting.le, rowCmp, Ordering.isLE_iff_ne_gt]
  rcases lt_trichotomy (s.priority a) (s.priority b) with hlt | heq | hgt
  · have hcmp : compare (s.priority b) (s.priority a) = .gt := compare_gt_iff_gt.2 hlt
    simp [hcmp, hlt, hlt.not_gt]
  · simp [heq]
  · have hcmp : compare (s.priority b) (s.priority a) = .lt := compare_lt_iff_lt.2 hgt
    simp [hcmp, hgt, hgt.not_gt]

variable [Std.TransCmp numericCmp]

instance transCmp_variableCmp : Std.TransCmp (s.variableCmp numericCmp) := by
  rw [variableCmp_eq]
  have hdirection : Std.TransCmp fun a b => if s.variableFilter.groupByDirection then
      compare (s.getVariableDirection a).rank (s.getVariableDirection b).rank else .eq := by
    cases s.variableFilter.groupByDirection with
    | false => exact Sorting.transCmp_const
    | true => exact Sorting.transCmp_comap compare fun v => (s.getVariableDirection v).rank
  have hname := Sorting.transCmp_comap numericCmp VariableRef.name
  infer_instance

instance transCmp_rowCmp : Std.TransCmp (s.rowCmp numericCmp) := by
  have hpriority : Std.TransCmp fun a b => compare (s.priority b) (s.priority a) :=
    Sorting.transCmp_comap (fun a b => compare b a) s.priority
  exact inferInstanceAs (Std.TransCmp (compareLex (fun a b => compare (s.priority b) (s.priority a))
    (s.variableCmp numericCmp)))

/-- The rows are in the order of the variables exactly if the priorities agree with it. -/
theorem buildVariableRows_eq_iff :
    vars.insertionSort (Sorting.le (s.variableCmp numericCmp)) = s.buildVariableRows numericCmp vars ↔
      s.PrioritiesAgree numericCmp vars := by
  rw [buildVariableRows, PrioritiesAgree, eq_comm, Sorting.insertionSort_eq_iff]
  simp only [le_rowCmp_iff]

/-! ## The two lists -/

/-- All variables with their full paths. -/
theorem added_full_eq_shown_iff :
    s.added numericCmp true = s.shown numericCmp true ↔ s.Agrees numericCmp true := by
  have hadded : s.added numericCmp true = s.filteredVariables numericCmp s.allVariables false := by
    simp [added, addFilteredVariables]
  have hshown : s.shown numericCmp true =
      s.buildVariableRows numericCmp (s.matchingVariables s.allVariables true) := rfl
  rw [hadded, hshown, filteredVariables, Agrees, if_pos rfl]
  constructor
  · intro heq
    -- the same variables come through both filters
    have hfilter : ∀ v ∈ s.allVariables, s.kindFilter v →
        (s.variableFilter.nameFilter v.fullPathString ↔ s.variableFilter.nameFilter v.name) := by
      intro v hv hkind
      have hmem : v ∈ s.matchingVariables s.allVariables false ↔ v ∈ s.matchingVariables s.allVariables true := by
        rw [← List.mem_insertionSort (Sorting.le (s.variableCmp numericCmp)), heq, buildVariableRows,
          List.mem_insertionSort]
      rw [mem_matchingVariables, mem_matchingVariables] at hmem
      simpa [hv, hkind] using hmem.symm
    refine ⟨hfilter, ?_⟩
    rw [matchingVariables_congr hfilter] at heq
    exact buildVariableRows_eq_iff.1 heq
  · rintro ⟨hfilter, hpriorities⟩
    rw [matchingVariables_congr hfilter]
    exact buildVariableRows_eq_iff.2 hpriorities

/-- The variables of the active scope. -/
theorem added_scope_eq_shown_iff :
    s.added numericCmp false = s.shown numericCmp false ↔ s.Agrees numericCmp false := by
  rw [Agrees, if_neg Bool.false_ne_true]
  cases hactive : s.activeScope with
  | none =>
    have hscope : s.activeScope.getD (.waveScope .empty) = .waveScope .empty := by rw [hactive, Option.getD_none]
    obtain ⟨parameters, hshown, hparameters⟩ := shown_of_scope numericCmp hscope
    have hadded : s.added numericCmp false = [] := by simp [added, addFilteredVariables, hactive]
    rw [hadded, hshown, eq_comm, List.append_eq_nil_iff, hparameters, buildVariableRows, ← List.length_eq_zero_iff,
      List.length_insertionSort, List.length_eq_zero_iff]
  | some scopeType =>
    cases scopeType with
    | streamScope =>
      refine iff_of_true ?_ trivial
      have hadded : s.added numericCmp false = [] := by simp [added, addFilteredVariables, hactive]
      have hshown : s.shown numericCmp false = s.drawVariables numericCmp := rfl
      rw [hadded, hshown, drawVariables, hactive]
      rfl
    | waveScope scope =>
      have hscope : s.activeScope.getD (.waveScope .empty) = .waveScope scope := by rw [hactive, Option.getD_some]
      obtain ⟨parameters, hshown, hparameters⟩ := shown_of_scope numericCmp hscope
      dsimp only
      have hadded : s.added numericCmp false =
          (s.matchingVariables (s.variablesInScope scope) false).insertionSort
            (Sorting.le (s.variableCmp numericCmp)) := by
        simp [added, addFilteredVariables, hactive, filteredVariables]
      rw [hadded, hshown, ← hparameters, ← buildVariableRows_eq_iff]
      constructor
      · intro heq
        -- as many variables are added as come behind the parameters
        have hlength := congrArg List.length heq
        rw [List.length_append, buildVariableRows, List.length_insertionSort, List.length_insertionSort] at hlength
        have hnil : parameters = [] := List.length_eq_zero_iff.1 (by omega)
        rw [hnil, List.nil_append] at heq
        exact ⟨hnil, heq⟩
      · rintro ⟨hnil, heq⟩
        rw [hnil, List.nil_append, heq]

/-- The button adds exactly what is listed, in the order of the list, when the list and the button filter alike,
the priorities agree with the order of the variables, and nothing is listed that the button leaves out. -/
theorem added_eq_shown_iff (numericCmp : String → String → Ordering) [Std.TransCmp numericCmp] (s : VariableList)
    (fullPath : Bool) : s.added numericCmp fullPath = s.shown numericCmp fullPath ↔ s.Agrees numericCmp fullPath := by
  cases fullPath with
  | true => exact added_full_eq_shown_iff
  | false => exact added_scope_eq_shown_iff

/-- One variable, which a filter finds by its path. -/
def onlyByPath : VariableList where
  allVariables := [{ path := .fromStrs ["top"], name := "clk", id := none, index := none }]
  variablesInScope _ := []
  parametersInScope _ := []
  variableMeta _ := none
  variableNameInfo _ := none
  activeScope := none
  variableFilter :=
    { nameFilter := fun text => text == "top.clk"
      includeInputs := true
      includeOutputs := true
      includeInouts := true
      includeOthers := true
      groupByDirection := false }
  parameterDisplayLocation := .none
  parametersOpen := false

theorem added_eq_shown_iff_onlyByPath :
    onlyByPath.added compare false = onlyByPath.shown compare false ↔ onlyByPath.Agrees compare false :=
  added_eq_shown_iff compare onlyByPath false

/-- The variable is listed and not added. -/
theorem not_forall_added_eq_shown :
    ¬ ∀ (s : VariableList) (fullPath : Bool), s.added compare fullPath = s.shown compare fullPath := by
  intro h
  have heq := h onlyByPath true
  have hpath : VariableRef.fullPathString { path := .fromStrs ["top"], name := "clk", id := none, index := none } =
      "top.clk" := by
    simp [VariableRef.fullPathString, VariableRef.fullPathStringNoIndex, ScopeRef.fullName, ScopeRef.fromStrs]
  simp [added, addFilteredVariables, shown, drawAllVariables, filteredVariables, filteredVariablesUnsorted,
    buildVariableRows, matchingVariables, kindFilter, getVariableDirection, onlyByPath, hpath] at heq

end VariableList

end Wave
