import Kahuna.Lanes.Basic
import Kahuna.Transactions.Basic
import Kahuna.Transition.Basic
import Mathlib.Algebra.Order.Ring.Nat
import Mathlib.Data.List.Induction

/-!
# Rows of transactions

The model of `calculate_rows_of_stream`. A transaction goes into the first row whose last transaction has ended,
and a row is added if there is none.

* `findRow_eq_ok`: the loop ends, at a row that is free;
* `calculateRows_disjoint`: no two transactions of a row overlap, in whatever order they come.
-/

namespace Transactions

/-- The start and the end of the last transaction of a row. -/
abbrev LastTimes := ℕ × ℕ

/-- A row is added if there is none of a number. -/
def ensureRow (lastTimesOnRow : List LastTimes) (row : ℕ) : List LastTimes :=
  if lastTimesOnRow.length ≤ row then lastTimesOnRow ++ [(0, 0)] else lastTimesOnRow

/-- A row that was added has no transaction that has not ended. -/
theorem countP_drop_ensureRow {startTime : ℕ} (rows : List LastTimes) (row n : ℕ) :
    ((ensureRow rows row).drop n).countP (fun times : LastTimes => startTime < times.2) =
      (rows.drop n).countP fun times => startTime < times.2 := by
  unfold ensureRow
  split
  · rw [List.drop_append, List.countP_append, Nat.add_eq_left, List.countP_eq_zero]
    intro times htimes
    obtain rfl := List.mem_singleton.1 (List.mem_of_mem_drop htimes)
    simp
  · rfl

/-- The loop that looks for a free row, from a row on. -/
def findRow (startTime : ℕ) (lastTimesOnRow : List LastTimes) (currRow : ℕ) : Run (List LastTimes × ℕ) :=
  if h : currRow < lastTimesOnRow.length then
    if startTime < lastTimesOnRow[currRow].2 then
      findRow startTime (ensureRow lastTimesOnRow (currRow + 1)) (currRow + 1)
    else .ok (lastTimesOnRow, currRow)
  else .error .outOfBounds
termination_by (lastTimesOnRow.drop currRow).countP fun times => startTime < times.2
decreasing_by
  -- one row less that has not ended
  rename_i hbusy
  rw [countP_drop_ensureRow, List.drop_eq_getElem_cons h, List.countP_cons_of_pos (by simpa using hbusy)]
  exact Nat.lt_succ_self _

/-- One pass of the loop over the transactions. The row is returned as well. -/
def placeTransaction (lastTimesOnRow : List LastTimes) (transaction : Transaction) :
    Run (List LastTimes × ℕ) := do
  let (lastTimesOnRow, currRow) ← findRow transaction.startTime lastTimesOnRow 0
  return (lastTimesOnRow.set currRow (transaction.startTime, transaction.endTime), currRow)

/-- `calculate_rows_of_stream`. -/
def calculateRowsOfStream (transactions : List Transaction) (lastTimesOnRow : List LastTimes) :
    Run (List LastTimes) :=
  transactions.foldlM (fun rows transaction => Prod.fst <$> placeTransaction rows transaction) lastTimesOnRow

/-- The same pass, with a list of the transactions so far and their rows next to what the code keeps. -/
def placeStep (state : List LastTimes × List (Transaction × ℕ)) (transaction : Transaction) :
    Run (List LastTimes × List (Transaction × ℕ)) := do
  let (rows, row) ← placeTransaction state.1 transaction
  return (rows, state.2 ++ [(transaction, row)])

/-! ## One transaction -/

/-- The end of the last transaction of a row, which is zero if there is none. -/
def lastEnd (rows : List LastTimes) (row : ℕ) : ℕ := (rows[row]?.map Prod.snd).getD 0

theorem lastEnd_ensureRow (rows : List LastTimes) (n : ℕ) : lastEnd (ensureRow rows n) = lastEnd rows := by
  unfold ensureRow
  split
  next =>
    funext row
    rw [lastEnd, lastEnd, List.getElem?_append]
    split
    next => rfl
    next hge =>
      -- a row that was added ends at zero, like a row that is missing
      rw [List.getElem?_eq_none (Nat.le_of_not_lt hge)]
      cases row - rows.length with
      | zero => rfl
      | succ n => rfl
  next => rfl

theorem length_ensureRow (rows : List LastTimes) (n : ℕ) :
    rows.length ≤ (ensureRow rows n).length ∧ (n ≤ rows.length → n < (ensureRow rows n).length) := by
  unfold ensureRow
  split
  · rw [List.length_append, List.length_singleton]
    omega
  · omega

theorem lastEnd_set {rows : List LastTimes} {row : ℕ} (hrow : row < rows.length) (times : LastTimes) :
    lastEnd (rows.set row times) = Function.update (lastEnd rows) row times.2 := by
  funext other
  by_cases heq : other = row
  · subst heq
    rw [lastEnd, List.getElem?_set_self hrow, Function.update_self]
    rfl
  · rw [lastEnd, List.getElem?_set_ne (Ne.symm heq), Function.update_of_ne heq, lastEnd]

/-- The loop ends at a row whose last transaction has ended. -/
theorem findRow_eq_ok {startTime : ℕ} {rows : List LastTimes} {currRow : ℕ} (h : currRow < rows.length) :
    ∃ rows' row, findRow startTime rows currRow = .ok (rows', row) ∧ row < rows'.length ∧
      rows.length ≤ rows'.length ∧ lastEnd rows' = lastEnd rows ∧ lastEnd rows row ≤ startTime := by
  induction rows, currRow using findRow.induct startTime with
  | case1 rows currRow hlt hbusy ih =>
    obtain ⟨hmore, hnext⟩ := length_ensureRow rows (currRow + 1)
    obtain ⟨rows', row, hfound, hrow, hle, hkept, hfree⟩ := ih (hnext hlt)
    rw [lastEnd_ensureRow] at hkept hfree
    refine ⟨rows', row, ?_, hrow, hmore.trans hle, hkept, hfree⟩
    rw [findRow, dif_pos hlt, if_pos hbusy, hfound]
  | case2 rows currRow hlt hfree =>
    refine ⟨rows, currRow, ?_, hlt, le_rfl, rfl, ?_⟩
    · rw [findRow, dif_pos hlt, if_neg hfree]
    · rw [lastEnd, List.getElem?_eq_getElem hlt]
      exact Nat.not_lt.1 hfree
  | case3 rows currRow hge => exact absurd h hge

/-- A transaction goes into a row that has ended. -/
theorem placeTransaction_eq_ok {rows : List LastTimes} (hrows : rows ≠ []) (t : Transaction) :
    ∃ rows' row, placeTransaction rows t = .ok (rows', row) ∧ row < rows'.length ∧
      rows.length ≤ rows'.length ∧ lastEnd rows' = Function.update (lastEnd rows) row t.endTime ∧
      lastEnd rows row ≤ t.startTime := by
  obtain ⟨found, row, hfound, hrow, hmore, hends, hfree⟩ :=
    findRow_eq_ok (List.length_pos_iff.2 hrows)
  refine ⟨found.set row (t.startTime, t.endTime), row, ?_, ?_, ?_, ?_, hfree⟩
  · rw [placeTransaction, hfound]
    rfl
  · rwa [List.length_set]
  · rwa [List.length_set]
  · rw [lastEnd_set hrow, hends]

/-! ## All transactions -/

/-- Two transactions share some time. -/
def Transaction.Overlap (t u : Transaction) : Prop :=
  Lanes.Overlap Transaction.startTime Transaction.endTime t u

/-- The rows with the transactions in them. -/
structure RowsOf (state : List LastTimes × List (Transaction × ℕ)) : Prop where
  ne : state.1 ≠ []
  row_lt : ∀ p ∈ state.2, p.2 < state.1.length
  packed : Lanes.Packed Transaction.startTime Transaction.endTime (lastEnd state.1) state.2

/-- One more transaction is put into a row. -/
theorem RowsOf.placeStep {state : List LastTimes × List (Transaction × ℕ)} (h : RowsOf state)
    {t : Transaction} (ht : t.startTime ≤ t.endTime) :
    ∃ rows row, Transactions.placeStep state t = .ok (rows, state.2 ++ [(t, row)]) ∧
      Prod.fst <$> placeTransaction state.1 t = .ok rows ∧ RowsOf (rows, state.2 ++ [(t, row)]) := by
  obtain ⟨rows, row, hplace, hrow, hmore, hends, hfree⟩ := placeTransaction_eq_ok h.ne t
  refine ⟨rows, row, ?_, ?_, ?_, ?_, ?_⟩
  · rw [Transactions.placeStep, hplace]
    rfl
  · rw [hplace]
    rfl
  · exact List.length_pos_iff.1 (Nat.zero_lt_of_lt hrow)
  · rw [List.forall_mem_append, List.forall_mem_singleton]
    exact ⟨fun p hp => (h.row_lt p hp).trans_le hmore, hrow⟩
  · rw [hends]
    exact h.packed.concat hfree ht

/-- A call for a list of transactions puts each of them into a row. -/
theorem RowsOf.calculateRowsOfStream {state : List LastTimes × List (Transaction × ℕ)} (h : RowsOf state)
    {ts : List Transaction} (hts : ∀ t ∈ ts, t.startTime ≤ t.endTime) :
    ∃ rows placed, ts.foldlM Transactions.placeStep state = .ok (rows, placed) ∧
      Transactions.calculateRowsOfStream ts state.1 = .ok rows ∧
      placed.map Prod.fst = state.2.map Prod.fst ++ ts ∧ RowsOf (rows, placed) := by
  -- the rows of the code are those of the placement, step by step
  induction ts generalizing state with
  | nil => exact ⟨state.1, state.2, rfl, rfl, (List.append_nil _).symm, h⟩
  | cons t ts ih =>
    rw [List.forall_mem_cons] at hts
    obtain ⟨rows, row, hstep, hcode, hrows⟩ := h.placeStep hts.1
    obtain ⟨rows', placed, hsteps, hcodes, hplaced, hrows'⟩ := ih hrows hts.2
    refine ⟨rows', placed, ?_, ?_, ?_, hrows'⟩
    · rw [List.foldlM_cons, hstep]
      exact hsteps
    · rw [Transactions.calculateRowsOfStream, List.foldlM_cons, hcode]
      exact hcodes
    · rw [hplaced, List.map_append, List.append_assoc]
      rfl

/-- The calls for the generators of a stream, which start with one empty row. -/
def calculateRows (generators : List (List Transaction)) : Run (List LastTimes) :=
  generators.foldlM (fun rows transactions => calculateRowsOfStream transactions rows) [(0, 0)]

/-- The transactions with their rows. -/
def placeAll (generators : List (List Transaction)) : Run (List LastTimes × List (Transaction × ℕ)) :=
  generators.foldlM (fun state transactions => transactions.foldlM placeStep state) ([(0, 0)], [])

/-- **Rows of transactions.** The calls end, without a panic, and put each transaction into one of the rows. No
two transactions of a row overlap, whatever the generators and the order of the transactions. -/
theorem calculateRows_disjoint (generators : List (List Transaction))
    (h : ∀ ts ∈ generators, ∀ t ∈ ts, t.startTime ≤ t.endTime) :
    ∃ rows placed, placeAll generators = .ok (rows, placed) ∧ calculateRows generators = .ok rows ∧
      placed.map Prod.fst = generators.flatten ∧ (∀ p ∈ placed, p.2 < rows.length) ∧
      ∀ (j k : ℕ) (p q : Transaction × ℕ), j ≠ k → placed[j]? = some p → placed[k]? = some q → p.2 = q.2 →
        ¬ p.1.Overlap q.1 := by
  have hrun : ∃ rows placed, placeAll generators = .ok (rows, placed) ∧
      calculateRows generators = .ok rows ∧ placed.map Prod.fst = generators.flatten ∧
        RowsOf (rows, placed) := by
    -- from the last generator, since each call goes on with the rows of the one before
    induction generators using List.reverseRecOn with
    | nil => exact ⟨[(0, 0)], [], rfl, rfl, rfl, by simp, by simp, Lanes.Packed.nil _⟩
    | append_singleton generators ts ih =>
      rw [List.forall_mem_append, List.forall_mem_singleton] at h
      obtain ⟨rows, placed, hplaced, hcode, hall, hrows⟩ := ih h.1
      obtain ⟨rows', placed', hplaced', hcode', hall', hrows'⟩ := hrows.calculateRowsOfStream h.2
      refine ⟨rows', placed', ?_, ?_, ?_, hrows'⟩
      · exact Except.foldlM_concat_eq_ok.2 ⟨_, hplaced, hplaced'⟩
      · exact Except.foldlM_concat_eq_ok.2 ⟨_, hcode, hcode'⟩
      · rw [hall', hall, List.flatten_append, List.flatten_singleton]
  obtain ⟨rows, placed, hplaced, hcode, hall, hrows⟩ := hrun
  exact ⟨rows, placed, hplaced, hcode, hall, hrows.row_lt,
    fun j k p q hjk hp hq heq => hrows.packed.not_overlap hjk hp hq heq⟩

/-- Two generators, whose transactions come out of order. -/
theorem calculateRows_disjoint_two :
    ∃ rows, calculateRows [[⟨1, 10, 20⟩, ⟨2, 0, 5⟩], [⟨3, 6, 30⟩]] = .ok rows := by
  obtain ⟨rows, -, -, hrows, -⟩ :=
    calculateRows_disjoint [[⟨1, 10, 20⟩, ⟨2, 0, 5⟩], [⟨3, 6, 30⟩]] (by decide)
  exact ⟨rows, hrows⟩

end Transactions
