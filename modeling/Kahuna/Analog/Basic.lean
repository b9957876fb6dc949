import Kahuna.Decoders.Basic
import Kahuna.Panic
import Kahuna.RangeQuery.Basic

/-!
# The cache of analog signals

The model of `analog_signal_cache.rs`. The samples of a signal are cut into blocks, and a sparse table
holds the minimum and maximum over each power of two of neighbouring blocks. A query of a time range
combines two table entries with the samples of the blocks that the range covers in part.

A value is a finite number, of which only the order matters here, or it is not finite.
-/

namespace Analog

open RangeQuery

/-- The value of a sample. -/
inductive Value (α : Type) where
  | finite (v : α)
  | nonFinite
  deriving DecidableEq, Repr

/-- The smallest and the largest of the finite values of some samples, infinite when there is none, and
whether there is a value that is not finite. -/
@[ext]
structure MinMax (α : Type) where
  min : WithTop α
  max : WithBot α
  hasNonFinite : Bool
  deriving DecidableEq

variable {α : Type} [LinearOrder α]

namespace MinMax

/-- `MinMax::new`. -/
def new (value : Value α) : MinMax α :=
  match value with
  | .finite v => { min := ↑v, max := ↑v, hasNonFinite := false }
  -- the identities of `min` and `max`
  | .nonFinite => { min := ⊤, max := ⊥, hasNonFinite := true }

/-- `MinMax::combine`. -/
def combine (a b : MinMax α) : MinMax α where
  min := a.min ⊓ b.min
  max := a.max ⊔ b.max
  hasNonFinite := a.hasNonFinite || b.hasNonFinite

/-- `MinMax::from_slice`. The first value is taken twice. -/
def fromSlice (values : List (Value α)) : Run (MinMax α) := do
  let first ← Run.index values 0
  return values.foldl (fun acc v => acc.combine (new v)) (new first)

end MinMax

/-- `SignalRMQ`. `sparseTable[level][block]` is the summary of up to `2 ^ level` blocks from `block` on. -/
structure SignalRMQ (α : Type) where
  timestamps : List UInt64
  values : List (Value α)
  blockSize : ℕ
  sparseTable : List (List (MinMax α))

/-- `CacheQueryResult`. -/
structure CacheQueryResult (α : Type) where
  current : Option (UInt64 × Value α)
  next : Option UInt64
  deriving DecidableEq

/-- `<[u64]>::binary_search` of times that increase: where the time is, or where it would be inserted. -/
def binarySearch (times : List UInt64) (time : UInt64) : Except ℕ ℕ :=
  let idx := times.findIdx fun t => time ≤ t
  if times[idx]? = some time then .ok idx else .error idx

/-- The index of the first time that is not before `tStart`. -/
def firstIndex (times : List UInt64) (tStart : UInt64) : ℕ :=
  match binarySearch times tStart with
  | .ok idx => idx
  | .error idx => idx

/-- The index of the last time that is not after `tEnd`, if there is one. -/
def lastIndex (times : List UInt64) (tEnd : UInt64) : Option ℕ :=
  match binarySearch times tEnd with
  | .ok idx => some idx
  | .error 0 => none
  | .error (idx + 1) => some idx

namespace SignalRMQ

/-- One more level of the table: each entry is combined with the one `span` blocks on, if there is one. -/
def nextLevel (span : ℕ) (prev : List (MinMax α)) : List (MinMax α) :=
  prev.mapIdx fun i left => (prev[i + span]?).elim left left.combine

/-- The loop of `build_sparse_table`, which has `levels` passes to go at a level. -/
def buildLevels : ℕ → ℕ → List (MinMax α) → List (List (MinMax α))
  | 0, _, row => [row]
  | levels + 1, level, row => row :: buildLevels levels (level + 1) (nextLevel (2 ^ level) row)

/-- `build_sparse_table`. -/
def buildSparseTable (blockSummaries : List (MinMax α)) : Run (List (List (MinMax α))) :=
  if blockSummaries.length = 0 then
    .error (.expect "argument of integer logarithm must be positive")
  else .ok (buildLevels blockSummaries.length.log2 0 blockSummaries)

/-- `SignalRMQ::new`. -/
def new (signal : List (UInt64 × Value α)) (blockSize : ℕ) : Run (SignalRMQ α) :=
  let timestamps := signal.map Prod.fst
  let values := signal.map Prod.snd
  if blockSize = 0 then .error (.expect "attempt to divide by zero")
  else do
    let numBlocks := (values.length + blockSize - 1) / blockSize
    let blockSummaries ← (List.range numBlocks).mapM fun blockIdx => do
      let start := blockIdx * blockSize
      let block ← Run.slice values start (min (start + blockSize) values.length)
      MinMax.fromSlice block
    let sparseTable ← buildSparseTable blockSummaries
    return { timestamps, values, blockSize, sparseTable }

/-- `query_blocks`. -/
def queryBlocks (q : SignalRMQ α) (lBlock rBlock : ℕ) : Run (MinMax α) :=
  if lBlock = rBlock then do
    let row ← Run.index q.sparseTable 0
    Run.index row lBlock
  else do
    let level := (rBlock - lBlock + 1).log2
    let jump := 2 ^ level
    let row ← Run.index q.sparseTable level
    let left ← Run.index row lBlock
    -- `r_block - jump + 1`, which may wrap in between
    let right ← Run.index row (rBlock + 1 - jump)
    return left.combine right

/-- `query_index_range`. -/
def queryIndexRange (q : SignalRMQ α) (l r : ℕ) : Run (MinMax α) :=
  let lBlock := l / q.blockSize
  let rBlock := r / q.blockSize
  if lBlock = rBlock then do
    let values ← Run.slice q.values l (r + 1)
    MinMax.fromSlice values
  else do
    let lBlockEnd := (lBlock + 1) * q.blockSize - 1
    let leftValues ← Run.slice q.values l (min lBlockEnd r + 1)
    let result ← MinMax.fromSlice leftValues
    let result ←
      if lBlock < rBlock then do
        let rightValues ← Run.slice q.values (rBlock * q.blockSize) (r + 1)
        let part ← MinMax.fromSlice rightValues
        pure (result.combine part)
      else pure result
    -- the blocks that are covered as a whole
    if lBlock + 1 ≤ rBlock - 1 then do
      let middle ← q.queryBlocks (lBlock + 1) (rBlock - 1)
      return result.combine middle
    else return result

/-- `query_time_range`. -/
def queryTimeRange (q : SignalRMQ α) (tStart tEnd : UInt64) : Run (Option (MinMax α)) :=
  if tEnd < tStart then .ok none
  else
    let l := firstIndex q.timestamps tStart
    match lastIndex q.timestamps tEnd with
    | none => .ok none
    | some r =>
      if r < l ∨ q.values.length ≤ l then .ok none
      else some <$> q.queryIndexRange l r

/-- The sample at an index. -/
def sampleAt (q : SignalRMQ α) (idx : ℕ) : Run (UInt64 × Value α) := do
  let time ← Run.index q.timestamps idx
  let value ← Run.index q.values idx
  return (time, value)

/-- `query_at_time`. -/
def queryAtTime (q : SignalRMQ α) (time : UInt64) : Run (CacheQueryResult α) :=
  match binarySearch q.timestamps time with
  | .ok idx => do
    let current ← q.sampleAt idx
    return { current := some current, next := q.timestamps[idx + 1]? }
  -- before the first sample
  | .error 0 => .ok { current := none, next := q.timestamps.head? }
  | .error (idx + 1) => do
    let current ← q.sampleAt idx
    return { current := some current, next := q.timestamps[idx + 1]? }

end SignalRMQ

end Analog
