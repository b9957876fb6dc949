import Kahuna.FiniteMap.Basic
import Kahuna.Wave.Hierarchy
import Mathlib.Data.Nat.Digits.Defs

/-!
# The values of a CXXRTL simulation

The model of `cxxrtl/timestamp.rs` and `cxxrtl/query_container.rs`. A reply of the server holds one sample
for each time, and a sample packs the values of the variables that were asked for, one after the other in
words of 32 bits. A task in the background unpacks the samples into a map from times to the values there,
which all tasks share.

The decoder of base64 is a parameter.
-/

namespace Cxxrtl

open Wave (ScopeRef VariableRef VariableValue)

/-- `CxxrtlTimestamp`. -/
structure CxxrtlTimestamp where
  seconds : ℕ
  femtoseconds : ℕ
  deriving DecidableEq, Repr

namespace CxxrtlTimestamp

/-- The start of the simulation. -/
def zero : CxxrtlTimestamp := { seconds := 0, femtoseconds := 0 }

/-- The time after a number of femtoseconds. -/
def fromFemtoseconds (femto : ℕ) : CxxrtlTimestamp where
  seconds := femto / 1000000000000000
  femtoseconds := femto % 1000000000000000

/-- The number of femtoseconds up to a time. -/
def asFemtoseconds (t : CxxrtlTimestamp) : ℕ := t.seconds * 1000000000000000 + t.femtoseconds

end CxxrtlTimestamp

/-- `CxxrtlItem`. -/
structure CxxrtlItem where
  width : UInt32
  deriving DecidableEq, Repr

/-- What two references to one scope have in common, see `ScopeRef.eq`. -/
abbrev ScopeKey := List String

/-- What two references to one variable have in common, see `VariableRef.eq`. -/
abbrev VariableKey := ScopeKey × String

/-- The key of a reference in a map. -/
def variableKey (r : VariableRef) : VariableKey := (r.path.strs, r.name)

theorem variableKey_eq_iff {r s : VariableRef} : variableKey r = variableKey s ↔ r.eq s = true := by
  simp [variableKey, VariableRef.eq, ScopeRef.eq]

/-- The items of the design, by the variables they are. -/
abbrev ItemMap := FiniteMap VariableKey CxxrtlItem

/-- The values of the variables at one time. -/
abbrev ValueMap := FiniteMap VariableKey VariableValue

/-- `CxxrtlSample`: the values at a time, in base64. -/
structure CxxrtlSample where
  time : CxxrtlTimestamp
  itemValues : String
  deriving DecidableEq, Repr

/-- `QueryResult`. -/
structure QueryResult where
  current : Option (ℕ × VariableValue)
  next : Option ℕ
  deriving DecidableEq, Repr

/-- `QueryResult::default`. -/
def QueryResult.default : QueryResult := { current := none, next := none }

/-! ## Unpacking -/

/-- The number of words of an item, with the wrapping arithmetic of a release build. -/
def CxxrtlItem.sizeU32 (item : CxxrtlItem) : UInt32 := 1 + ((item.width - 1) / 32)

/-- The bytes at which the value of each variable starts and ends. -/
def ranges (itemInfo : ItemMap) : UInt32 → List VariableRef → Run (List (ℕ × ℕ))
  | _, [] => .ok []
  | offset, v :: vars =>
    match itemInfo.get (variableKey v) with
    | none => .error (.expect "no entry found for key")
    | some item => do
      let rest ← ranges itemInfo (offset + item.sizeU32) vars
      return ((offset * 4).toNat, ((offset + item.sizeU32) * 4).toNat) :: rest

/-- `BigUint::from_bytes_le`. -/
def fromBytesLe (bytes : List UInt8) : ℕ := Nat.ofDigits 256 (bytes.map UInt8.toNat)

/-- The value of a variable, from the bytes of a range. -/
def variableValue (u8s : List UInt8) (entry : (ℕ × ℕ) × VariableRef) :
    Run (VariableKey × VariableValue) := do
  let bytes ← Run.slice u8s entry.1.1 entry.1.2
  return (variableKey entry.2, .bigUint (fromBytesLe bytes))

section

variable (decode : String → Option (List UInt8))

/-- The values that a sample holds. -/
def sampleValues (ranges : List (ℕ × ℕ)) (vars : List VariableRef) (sample : CxxrtlSample) :
    Run ValueMap := do
  match decode sample.itemValues with
  | none => .error .unwrap
  | some u8s => do
    let values ← (ranges.zip vars).mapM (variableValue u8s)
    return values.foldl (fun m value => m.insert value.1 value.2) FiniteMap.empty

/-- A task that `populate` has spawned, with the samples that its workers have not taken yet. -/
structure FillTask where
  vars : List VariableRef
  itemInfo : ItemMap
  data : List CxxrtlSample
  /-- A worker has panicked, so that the others may stop as well. -/
  panicked : Bool

/-- `fill_variable_values`, for one sample: the time, and the values to be inserted there. -/
def FillTask.fillVariableValues (task : FillTask) (sample : CxxrtlSample) : Run (ℤ × ValueMap) := do
  let offsets ← ranges task.itemInfo 0 task.vars
  let values ← sampleValues decode offsets task.vars sample
  return (sample.time.asFemtoseconds, values)

/-- No worker of the task will write any more. -/
def FillTask.Ended (task : FillTask) : Prop := task.data = [] ∨ task.panicked = true

end

/-! ## The container -/

/-- `QueryContainer`, with the tasks that write to it. -/
structure QueryContainer where
  variableValues : FiniteMap ℤ ValueMap
  tasks : List FillTask

namespace QueryContainer

/-- The container without values. -/
def empty : QueryContainer := { variableValues := FiniteMap.empty, tasks := [] }

/-- `populate`: a task is spawned. -/
def populate (q : QueryContainer) (vars : List VariableRef) (itemInfo : ItemMap)
    (data : List CxxrtlSample) : QueryContainer :=
  { q with tasks := q.tasks ++ [{ vars, itemInfo, data, panicked := false }] }

/-- A task inserts the values of a time. -/
def insert (q : QueryContainer) (time : ℤ) (values : ValueMap) : QueryContainer :=
  { q with variableValues := q.variableValues.insert time values }

/-- `BigInt::to_biguint`. -/
def toBigUint (time : ℤ) : Option ℕ := if 0 ≤ time then some time.toNat else none

/-- `range(..time).next_back()`: the last time before. -/
def lastBefore (q : QueryContainer) (time : ℤ) : Option ℤ :=
  (q.variableValues.keys.filter (· < time)).max?

/-- `range(time..).next()`: the first time from there on. -/
def firstFrom (q : QueryContainer) (time : ℤ) : Option ℤ :=
  (q.variableValues.keys.filter (time ≤ ·)).min?

/-- `query`: the value of a variable before a time. -/
def query (q : QueryContainer) (var : VariableRef) (queryTime : ℤ) : QueryResult :=
  match q.lastBefore queryTime with
  | none => .default
  | some time =>
    match toBigUint time, (q.variableValues.get time).bind fun m => m.get (variableKey var) with
    | some t, some value => { current := some (t, value), next := (q.firstFrom queryTime).bind toBigUint }
    | _, _ => .default

/-- A worker of a task takes one of the samples that are left. -/
def work (decode : String → Option (List UInt8)) (q : QueryContainer) (i j : ℕ) : QueryContainer :=
  match q.tasks[i]? with
  | none => q
  | some task =>
    match task.data[j]? with
    | none => q
    | some sample =>
      let left := { task with data := task.data.eraseIdx j }
      match task.fillVariableValues decode sample with
      | .error _ => { q with tasks := q.tasks.set i { left with panicked := true } }
      | .ok (time, values) => { q.insert time values with tasks := q.tasks.set i left }

end QueryContainer

/-- A signal of the top scope. -/
def topSignal (name : String) : VariableRef :=
  { path := { strs := ["top"], id := none }, name, id := none, index := none }

end Cxxrtl
