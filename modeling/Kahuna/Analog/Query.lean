import Kahuna.Analog.Basic
import Kahuna.Transition.Basic
import Mathlib.Data.Nat.Log

/-!
# Queries of the analog cache

A query answers what a walk over all samples would.

- `MinMax` is a join semilattice, and the table holds joins of ranges (`SignalRMQ.Sound`).
- `queryIndexRange_eq`: a range of indices, for every alignment with the blocks.
- `queryTimeRange_eq`: a range of times against the samples that lie in it.
- `new_queries`: both queries of the cache that is built from some samples.
-/

namespace Analog

open RangeQuery

variable {α : Type} [LinearOrder α]

namespace MinMax

instance : Max (MinMax α) := ⟨combine⟩

@[simp]
theorem sup_def (a b : MinMax α) : a ⊔ b = a.combine b := rfl

theorem combine_comm (a b : MinMax α) : a.combine b = b.combine a := by
  ext1
  · exact inf_comm _ _
  · exact sup_comm _ _
  · exact Bool.or_comm _ _

theorem combine_assoc (a b c : MinMax α) : (a.combine b).combine c = a.combine (b.combine c) := by
  ext1
  · exact inf_assoc _ _ _
  · exact sup_assoc _ _ _
  · exact Bool.or_assoc _ _ _

theorem combine_self (a : MinMax α) : a.combine a = a := by
  ext1
  · exact inf_idem _
  · exact sup_idem _
  · exact Bool.or_self _

/-- Summaries are joined by combining them. -/
instance : SemilatticeSup (MinMax α) :=
  SemilatticeSup.mk' combine_comm combine_assoc combine_self

/-- The summary of some values is their join. -/
theorem fromSlice_eq {values : List (Value α)} (h : values ≠ []) :
    ∃ m, fromSlice values = .ok m ∧ joinAll (values.map new) = ↑m := by
  obtain ⟨first, rest, rfl⟩ := List.exists_cons_of_ne_nil h
  refine ⟨_, rfl, ?_⟩
  rw [List.foldl_cons, combine_self, List.map_cons, joinAll_foldl, List.foldl_map]
  rfl

end MinMax

/-! ## The table -/

namespace SignalRMQ

/-- The summaries of the single samples. -/
def summaries (q : SignalRMQ α) : List (MinMax α) := q.values.map MinMax.new

/-- The blocks hold the summaries of their samples, and the table those of ranges of blocks. -/
structure TableOf (q : SignalRMQ α) (blocks : List (MinMax α)) : Prop where
  block (k : ℕ) (b : MinMax α) : blocks[k]? = some b →
    rangeJoin q.summaries (k * q.blockSize) q.blockSize = ↑b
  length_le : q.values.length ≤ blocks.length * q.blockSize
  row {level : ℕ} : level ≤ blocks.length.log2 →
    ∃ row, q.sparseTable[level]? = some row ∧ Spans blocks (2 ^ level) row

/-- What is built from samples. -/
structure Sound (q : SignalRMQ α) : Prop where
  blockSize_pos : 0 < q.blockSize
  length_eq : q.timestamps.length = q.values.length
  table : ∃ blocks, q.TableOf blocks

variable {q : SignalRMQ α} {blocks row : List (MinMax α)} {level levels : ℕ}

/-- Each level of the table spans twice as many blocks as the one below. -/
theorem buildLevels_spans (h : Spans blocks (2 ^ level) row) {k : ℕ} (hk : k ≤ levels) :
    ∃ row', (buildLevels levels level row)[k]? = some row' ∧ Spans blocks (2 ^ (level + k)) row' := by
  induction levels generalizing level row k with
  | zero =>
    obtain rfl := Nat.le_zero.1 hk
    exact ⟨row, rfl, h⟩
  | succ levels ih =>
    cases k with
    | zero => exact ⟨row, rfl, h⟩
    | succ k =>
      have hnext : Spans blocks (2 ^ (level + 1)) (nextLevel (2 ^ level) row) := by
        rw [pow_succ, mul_two]
        exact h.double
      obtain ⟨row', hrow', hspans⟩ := ih hnext (Nat.le_of_succ_le_succ hk)
      refine ⟨row', hrow', ?_⟩
      rwa [Nat.add_assoc, Nat.add_comm 1 k] at hspans

/-- The summary of the samples of a slice. -/
theorem fromSlice_slice {values : List (Value α)} {start stop : ℕ} (h : start < stop)
    (hstop : stop ≤ values.length) :
    ∃ part m, Run.slice values start stop = .ok part ∧ MinMax.fromSlice part = .ok m ∧
      rangeJoin (values.map MinMax.new) start (stop - start) = ↑m := by
  have hne : (values.drop start).take (stop - start) ≠ [] := by
    rw [← List.length_pos_iff, List.length_take, List.length_drop]
    omega
  obtain ⟨m, hm, hjoin⟩ := MinMax.fromSlice_eq hne
  refine ⟨_, m, Run.slice_eq_ok h.le hstop, hm, ?_⟩
  rw [← hjoin, rangeJoin, List.map_take, List.map_drop]

/-- A cache can be built from samples, and its table is sound. -/
theorem new_eq_ok {signal : List (UInt64 × Value α)} {blockSize : ℕ} (hsignal : signal ≠ [])
    (hsize : 0 < blockSize) :
    ∃ q, new signal blockSize = .ok q ∧ q.timestamps = signal.map Prod.fst ∧
      q.values = signal.map Prod.snd ∧ q.Sound := by
  let values := signal.map Prod.snd
  let numBlocks := (values.length + blockSize - 1) / blockSize
  have hlength : 0 < values.length := by
    rw [List.length_map]
    exact List.length_pos_iff.2 hsignal
  have hceil : values.length ≤ numBlocks * blockSize := by
    have hdiv := Nat.div_add_mod (values.length + blockSize - 1) blockSize
    have hmod := Nat.mod_lt (values.length + blockSize - 1) hsize
    rw [Nat.mul_comm] at hdiv
    show values.length ≤ (values.length + blockSize - 1) / blockSize * blockSize
    omega
  have hstart : ∀ k ∈ List.range numBlocks, k * blockSize < values.length := by
    intro k hk
    have hle : (k + 1) * blockSize ≤ numBlocks * blockSize :=
      Nat.mul_le_mul_right _ (List.mem_range.1 hk)
    have hfloor := Nat.div_mul_le_self (values.length + blockSize - 1) blockSize
    have hnum : numBlocks * blockSize ≤ values.length + blockSize - 1 := hfloor
    rw [Nat.succ_mul] at hle
    omega
  -- the summary of each block
  have hblock : ∀ k ∈ List.range numBlocks, ∃ m,
      (Run.slice values (k * blockSize) (min (k * blockSize + blockSize) values.length)
        >>= MinMax.fromSlice) = .ok m ∧
      rangeJoin (values.map MinMax.new) (k * blockSize) blockSize = ↑m := by
    intro k hk
    have hlt : k * blockSize < min (k * blockSize + blockSize) values.length :=
      lt_min (by omega) (hstart k hk)
    obtain ⟨part, m, hpart, hm, hjoin⟩ := fromSlice_slice hlt (min_le_right _ _)
    refine ⟨m, Except.bind_eq_ok.2 ⟨part, hpart, hm⟩, ?_⟩
    rw [← hjoin, ← rangeJoin_min (n := blockSize), List.length_map]
  obtain ⟨blocks, hblocks, hall⟩ := Run.mapM_eq_ok hblock
  have hlen : blocks.length = numBlocks := by rw [← hall.length_eq, List.length_range]
  have hpos : blocks.length ≠ 0 := by
    rintro hzero
    rw [← hlen, hzero, Nat.zero_mul] at hceil
    omega
  let q : SignalRMQ α :=
    { timestamps := signal.map Prod.fst
      values := values
      blockSize := blockSize
      sparseTable := buildLevels blocks.length.log2 0 blocks }
  refine ⟨q, ?_, rfl, rfl, ?_⟩
  · rw [new, if_neg hsize.ne']
    show (List.mapM _ (List.range numBlocks) >>= _) = _
    rw [hblocks]
    show (buildSparseTable blocks >>= _) = _
    rw [buildSparseTable, if_neg hpos]
    rfl
  · refine ⟨hsize, by rw [List.length_map, List.length_map], blocks, ?_, hlen ▸ hceil, fun hlevel => ?_⟩
    · intro k b hk
      obtain ⟨hlt, hget⟩ := List.getElem?_eq_some_iff.1 hk
      have hrange : k < (List.range numBlocks).length := by rwa [List.length_range, ← hlen]
      have hk' := hall.get hrange hlt
      rw [List.get_eq_getElem, List.get_eq_getElem, List.getElem_range, hget] at hk'
      exact hk'
    · have hone : Spans blocks (2 ^ 0) blocks := Spans.one blocks
      simpa using buildLevels_spans hone hlevel

/-! ## Queries of index ranges -/

/-- A range of blocks is covered by two entries of the table. -/
theorem queryBlocks_eq (htable : q.TableOf blocks) {lBlock rBlock : ℕ} (hle : lBlock ≤ rBlock)
    (hlt : rBlock < blocks.length) :
    ∃ m, q.queryBlocks lBlock rBlock = .ok m ∧ rangeJoin blocks lBlock (rBlock - lBlock + 1) = ↑m := by
  have hentry : ∀ {row : List (MinMax α)} {k : ℕ}, row.length = blocks.length → k < blocks.length →
      ∃ m, row[k]? = some m := fun hrow hk => ⟨_, List.getElem?_eq_getElem (hrow ▸ hk)⟩
  by_cases heq : lBlock = rBlock
  · subst heq
    obtain ⟨row, hrow, hspans⟩ := htable.row (Nat.zero_le _)
    obtain ⟨m, hm⟩ := hentry hspans.length_eq hlt
    refine ⟨m, ?_, ?_⟩
    · rw [queryBlocks, if_pos rfl, Run.index_eq_ok hrow]
      exact Run.index_eq_ok hm
    · rw [Nat.sub_self]
      exact hspans.join hm
  · -- the largest power of two that fits, from the left and from the right
    obtain ⟨n, hn⟩ : ∃ n, n = rBlock - lBlock + 1 := ⟨_, rfl⟩
    have hlog : 2 ^ n.log2 ≤ n := Nat.log2_self_le (by omega)
    have hlog' : n < 2 ^ n.log2 * 2 := by
      rw [← pow_succ]
      exact Nat.lt_log2_self
    have hlevel : n.log2 ≤ blocks.length.log2 := by
      rw [Nat.log2_eq_log_two, Nat.log2_eq_log_two]
      exact Nat.log_mono_right (by omega)
    obtain ⟨row, hrow, hspans⟩ := htable.row hlevel
    obtain ⟨left, hleft⟩ := hentry (k := lBlock) hspans.length_eq (by omega)
    obtain ⟨right, hright⟩ := hentry (k := rBlock + 1 - 2 ^ n.log2) hspans.length_eq (by omega)
    refine ⟨left.combine right, ?_, ?_⟩
    · rw [queryBlocks, if_neg heq, ← hn]
      refine Except.bind_eq_ok.2 ⟨row, Run.index_eq_ok hrow, ?_⟩
      refine Except.bind_eq_ok.2 ⟨left, Run.index_eq_ok hleft, ?_⟩
      exact Except.bind_eq_ok.2 ⟨right, Run.index_eq_ok hright, rfl⟩
    · have hcount : rBlock - lBlock + 1 = rBlock + 1 - 2 ^ n.log2 - lBlock + 2 ^ n.log2 := by omega
      rw [hcount]
      exact hspans.cover hleft hright (by omega) (by omega)

/-- The query of a range of indices joins the samples of the range. -/
theorem queryIndexRange_eq (h : q.Sound) {l r : ℕ} (hlr : l ≤ r) (hr : r < q.values.length) :
    ∃ m, q.queryIndexRange l r = .ok m ∧ rangeJoin q.summaries l (r - l + 1) = ↑m := by
  obtain ⟨blocks, htable⟩ := h.table
  have hlength : q.summaries.length = q.values.length := List.length_map _
  obtain ⟨L, hL⟩ : ∃ L, l / q.blockSize = L := ⟨_, rfl⟩
  obtain ⟨R, hR⟩ : ∃ R, r / q.blockSize = R := ⟨_, rfl⟩
  by_cases heq : L = R
  · -- all in one block
    obtain ⟨part, m, hpart, hm, hjoin⟩ := fromSlice_slice (Nat.lt_succ_of_le hlr) hr
    refine ⟨m, ?_, ?_⟩
    · simp only [queryIndexRange, hL, hR, if_pos heq]
      exact Except.bind_eq_ok.2 ⟨part, hpart, hm⟩
    · rw [← hjoin, Nat.succ_sub hlr]
      rfl
  have hlt : L < R := lt_of_le_of_ne (hL ▸ hR ▸ Nat.div_le_div_right hlr) heq
  have hl : l < (L + 1) * q.blockSize := by
    rw [Nat.mul_comm, ← hL]
    exact Nat.lt_mul_div_succ l h.blockSize_pos
  have hmid : (L + 1) * q.blockSize ≤ R * q.blockSize :=
    Nat.mul_le_mul_right _ hlt
  have hr' : R * q.blockSize ≤ r := hR ▸ Nat.div_mul_le_self r q.blockSize
  have hend : min ((L + 1) * q.blockSize - 1) r + 1 = (L + 1) * q.blockSize := by
    omega
  obtain ⟨leftPart, left, hleftPart, hleft, hjoinLeft⟩ := fromSlice_slice hl (hmid.trans (hr'.trans hr.le))
  obtain ⟨rightPart, right, hrightPart, hright, hjoinRight⟩ := fromSlice_slice (Nat.lt_succ_of_le hr') hr
  -- the samples of the blocks in between are all that is missing
  have hall : ∀ middle, middle = rangeJoin q.summaries ((L + 1) * q.blockSize)
        (R * q.blockSize - (L + 1) * q.blockSize) →
      rangeJoin q.summaries l (r - l + 1) = (↑left ⊔ ↑right) ⊔ middle := by
    rintro middle rfl
    rw [← hjoinLeft, ← hjoinRight, sup_right_comm]
    change _ = (rangeJoin q.summaries _ _ ⊔ rangeJoin q.summaries _ _) ⊔ rangeJoin q.summaries _ _
    rw [rangeJoin_cover hl.le (by omega) (by omega), rangeJoin_cover (by omega) (by omega) (by omega)]
    congr 1
    omega
  by_cases hmiddle : L + 1 ≤ R - 1
  · have hblocks : R - 1 < blocks.length := by
      have hcovered := htable.length_le
      have hlen : R < blocks.length := by
        by_contra hge
        have hle := Nat.mul_le_mul_right q.blockSize (Nat.le_of_not_lt hge)
        omega
      omega
    obtain ⟨middle, hmiddle', hjoin⟩ := queryBlocks_eq htable hmiddle hblocks
    refine ⟨(left.combine right).combine middle, ?_, ?_⟩
    · simp only [queryIndexRange, hL, hR, if_neg heq, hend, if_pos hlt, if_pos hmiddle]
      refine Except.bind_eq_ok.2 ⟨leftPart, hleftPart, ?_⟩
      refine Except.bind_eq_ok.2 ⟨left, hleft, ?_⟩
      refine Except.bind_eq_ok.2 ⟨rightPart, hrightPart, ?_⟩
      refine Except.bind_eq_ok.2 ⟨right, hright, ?_⟩
      refine Except.bind_eq_ok.2 ⟨left.combine right, rfl, ?_⟩
      exact Except.bind_eq_ok.2 ⟨middle, hmiddle', rfl⟩
    · rw [hall ↑middle]
      · rfl
      · rw [← hjoin, rangeJoin_blocks htable.block (by rw [hlength]; exact htable.length_le), ← Nat.sub_mul]
        congr 2
        omega
  · refine ⟨left.combine right, ?_, ?_⟩
    · simp only [queryIndexRange, hL, hR, if_neg heq, hend, if_pos hlt, if_neg hmiddle]
      refine Except.bind_eq_ok.2 ⟨leftPart, hleftPart, ?_⟩
      refine Except.bind_eq_ok.2 ⟨left, hleft, ?_⟩
      refine Except.bind_eq_ok.2 ⟨rightPart, hrightPart, ?_⟩
      exact Except.bind_eq_ok.2 ⟨right, hright, rfl⟩
    · -- the two blocks are neighbours
      have hnext : L + 1 = R := by omega
      rw [hall ⊥]
      · rfl
      · rw [hnext, Nat.sub_self]
        rfl

end SignalRMQ

/-! ## Searching for times -/

section Search

variable {times : List UInt64} {time t : UInt64} {idx k r : ℕ}

/-- The times before the place of a time are the earlier ones. -/
theorem lt_findIdx_iff (hinc : times.Pairwise (· < ·)) (hk : times[k]? = some t) :
    k < times.findIdx (time ≤ ·) ↔ t < time := by
  obtain ⟨hlt, rfl⟩ := List.getElem?_eq_some_iff.1 hk
  constructor
  · intro h
    simpa using List.not_of_lt_findIdx h
  · intro h
    rw [List.lt_findIdx_iff]
    refine ⟨hlt, fun j hj => ?_⟩
    have hle : times[j] ≤ times[k] := by
      rcases hj.eq_or_lt with rfl | hjk
      · exact le_rfl
      · exact (List.pairwise_iff_getElem.1 hinc j k _ hlt hjk).le
    simpa using hle.trans_lt h

theorem binarySearch_eq_ok (h : binarySearch times time = .ok idx) : times[idx]? = some time := by
  rw [binarySearch] at h
  split at h
  next hfound =>
    cases h
    exact hfound
  next => cases h

/-- A time that is not found would be inserted behind the earlier ones. -/
theorem binarySearch_eq_error (hinc : times.Pairwise (· < ·)) (h : binarySearch times time = .error idx)
    (hk : times[k]? = some t) : k < idx ↔ t ≤ time := by
  rw [binarySearch] at h
  split at h
  next => cases h
  next hfound =>
    cases h
    rw [lt_findIdx_iff hinc hk, le_iff_lt_or_eq, iff_self_or]
    rintro rfl
    -- it would be found at its own place
    obtain ⟨hlt, hget⟩ := List.getElem?_eq_some_iff.1 hk
    have hplace : times.findIdx (t ≤ ·) = k := by
      rw [List.findIdx_eq hlt]
      refine ⟨by simp [hget], fun j hj => ?_⟩
      have hearlier := List.pairwise_iff_getElem.1 hinc j k (hj.trans hlt) hlt hj
      simpa [hget] using hearlier
    exact absurd (hplace ▸ hk) hfound

theorem firstIndex_le_iff (hinc : times.Pairwise (· < ·)) (hk : times[k]? = some t) :
    firstIndex times time ≤ k ↔ time ≤ t := by
  have hfirst : firstIndex times time = times.findIdx (time ≤ ·) := by
    rw [firstIndex, binarySearch]
    by_cases hfound : times[times.findIdx (time ≤ ·)]? = some time
    · rw [if_pos hfound]
    · rw [if_neg hfound]
  rw [hfirst, ← not_lt, lt_findIdx_iff hinc hk, not_lt]

theorem lastIndex_eq_none (hinc : times.Pairwise (· < ·)) (h : lastIndex times time = none)
    (hk : times[k]? = some t) : time < t := by
  rw [lastIndex] at h
  split at h
  next => cases h
  next herror =>
    rw [← not_le, ← binarySearch_eq_error hinc herror hk]
    exact Nat.not_lt_zero k
  next => cases h

theorem le_lastIndex_iff (hinc : times.Pairwise (· < ·)) (h : lastIndex times time = some r)
    (hk : times[k]? = some t) : k ≤ r ↔ t ≤ time := by
  rw [lastIndex] at h
  split at h
  next idx hok =>
    cases h
    obtain ⟨hlt, rfl⟩ := List.getElem?_eq_some_iff.1 hk
    obtain ⟨hlt', rfl⟩ := List.getElem?_eq_some_iff.1 (binarySearch_eq_ok hok)
    exact (hinc.sortedLT.strictMono_get.le_iff_le (a := ⟨k, hlt⟩) (b := ⟨r, hlt'⟩)).symm
  next => cases h
  next idx herror =>
    cases h
    rw [← binarySearch_eq_error hinc herror hk, Nat.lt_succ_iff]

/-- The last index is that of a time. -/
theorem lastIndex_lt (h : lastIndex times time = some r) : r < times.length := by
  rw [lastIndex] at h
  split at h
  next idx hok =>
    cases h
    exact (List.getElem?_eq_some_iff.1 (binarySearch_eq_ok hok)).1
  next => cases h
  next idx herror =>
    cases h
    rw [binarySearch] at herror
    split at herror
    next => cases herror
    next =>
      have hplace : times.findIdx (time ≤ ·) = r + 1 := Except.error.inj herror
      exact Nat.lt_of_succ_le (hplace.symm.trans_le List.findIdx_le_length)

end Search

/-! ## Walking over samples -/

/-- The samples whose time lies in a range. -/
def inRange (samples : List (UInt64 × Value α)) (tStart tEnd : UInt64) : List (UInt64 × Value α) :=
  samples.filter fun s => tStart ≤ s.1 ∧ s.1 ≤ tEnd

/-- The summary of some samples, taken one after the other. -/
def walk (samples : List (UInt64 × Value α)) : Option (MinMax α) :=
  samples.foldl (fun acc s => some (acc.elim (MinMax.new s.2) (·.combine (MinMax.new s.2)))) none

/-- The smallest and the largest finite value of some samples, and whether a value is not finite. -/
structure Summarizes (m : MinMax α) (samples : List (UInt64 × Value α)) : Prop where
  min_le {t : UInt64} {v : α} : (t, .finite v) ∈ samples → m.min ≤ ↑v
  min_mem {v : α} : m.min = ↑v → ∃ t, (t, .finite v) ∈ samples
  le_max {t : UInt64} {v : α} : (t, .finite v) ∈ samples → ↑v ≤ m.max
  max_mem {v : α} : m.max = ↑v → ∃ t, (t, .finite v) ∈ samples
  hasNonFinite : m.hasNonFinite = true ↔ ∃ t, (t, .nonFinite) ∈ samples

/-- A walk is the join of the single summaries. -/
theorem walk_eq (samples : List (UInt64 × Value α)) :
    walk samples = joinAll (samples.map fun s => MinMax.new s.2) := by
  cases samples with
  | nil => rfl
  | cons first rest =>
    rw [List.map_cons, joinAll_foldl, List.foldl_map, walk, List.foldl_cons]
    show rest.foldl _ (some (MinMax.new first.2)) = some _
    generalize MinMax.new first.2 = m
    induction rest generalizing m with
    | nil => rfl
    | cons s rest ih => exact ih _

namespace Summarizes

theorem new (s : UInt64 × Value α) : Summarizes (MinMax.new s.2) [s] := by
  obtain ⟨t, value⟩ := s
  cases value with
  | finite v => constructor <;> simp [MinMax.new, eq_comm]
  | nonFinite => constructor <;> simp [MinMax.new]

theorem combine {m m' : MinMax α} {samples samples' : List (UInt64 × Value α)}
    (h : Summarizes m samples) (h' : Summarizes m' samples') :
    Summarizes (m.combine m') (samples ++ samples') where
  min_le hmem := by
    rcases List.mem_append.1 hmem with hmem | hmem
    · exact inf_le_left.trans (h.min_le hmem)
    · exact inf_le_right.trans (h'.min_le hmem)
  min_mem hmin := by
    rcases min_choice m.min m'.min with hleft | hright
    · obtain ⟨t, ht⟩ := h.min_mem (hleft.symm.trans hmin)
      exact ⟨t, List.mem_append_left _ ht⟩
    · obtain ⟨t, ht⟩ := h'.min_mem (hright.symm.trans hmin)
      exact ⟨t, List.mem_append_right _ ht⟩
  le_max hmem := by
    rcases List.mem_append.1 hmem with hmem | hmem
    · exact (h.le_max hmem).trans le_sup_left
    · exact (h'.le_max hmem).trans le_sup_right
  max_mem hmax := by
    rcases max_choice m.max m'.max with hleft | hright
    · obtain ⟨t, ht⟩ := h.max_mem (hleft.symm.trans hmax)
      exact ⟨t, List.mem_append_left _ ht⟩
    · obtain ⟨t, ht⟩ := h'.max_mem (hright.symm.trans hmax)
      exact ⟨t, List.mem_append_right _ ht⟩
  hasNonFinite := by
    rw [MinMax.combine, Bool.or_eq_true, h.hasNonFinite, h'.hasNonFinite, ← exists_or]
    simp only [List.mem_append]

end Summarizes

/-- A walk finds what summarizes the samples. -/
theorem summarizes_walk {samples : List (UInt64 × Value α)} {m : MinMax α} (h : walk samples = some m) :
    Summarizes m samples := by
  have hfrom : ∀ (rest before : List (UInt64 × Value α)) (m₀ m : MinMax α), Summarizes m₀ before →
      rest.foldl (fun acc s => some (acc.elim (MinMax.new s.2) (·.combine (MinMax.new s.2)))) (some m₀)
        = some m → Summarizes m (before ++ rest) := by
    intro rest
    induction rest with
    | nil =>
      intro before m₀ m hm₀ h
      cases h
      rwa [List.append_nil]
    | cons s rest ih =>
      intro before m₀ m hm₀ h
      have hnext := ih (before ++ [s]) _ m (hm₀.combine (.new s)) h
      rwa [List.append_assoc] at hnext
  cases samples with
  | nil => cases h
  | cons s rest => exact hfrom rest [s] _ m (.new s) h

theorem walk_eq_none_iff {samples : List (UInt64 × Value α)} : walk samples = none ↔ samples = [] := by
  rw [walk_eq]
  cases samples with
  | nil => exact iff_of_true rfl rfl
  | cons s rest =>
    rw [List.map_cons, joinAll_foldl]
    exact iff_of_false nofun (List.cons_ne_nil s rest)

/-! ## Queries of time ranges -/

namespace SignalRMQ

variable {q : SignalRMQ α} {samples : List (UInt64 × Value α)} {tStart tEnd : UInt64}

/-- The samples in a range of times are those at a range of indices. -/
theorem walk_inRange (htimes : q.timestamps = samples.map Prod.fst) (hvalues : q.values = samples.map Prod.snd)
    {l n : ℕ} (hrange : ∀ (k : ℕ) (t : UInt64), q.timestamps[k]? = some t → (l ≤ k ∧ k < l + n ↔ tStart ≤ t ∧ t ≤ tEnd)) :
    walk (inRange samples tStart tEnd) = rangeJoin q.summaries l n := by
  rw [walk_eq]
  show (joinAll _ : WithBot (MinMax α)) = rangeJoin _ _ _
  refine eq_of_forall_ge_iff fun b => ?_
  rw [joinAll_le_iff, rangeJoin_le_iff, List.forall_mem_map]
  have hsummary : ∀ (k : ℕ) (x : MinMax α), q.summaries[k]? = some x ↔ ∃ s, samples[k]? = some s ∧ MinMax.new s.2 = x := by
    intro k x
    rw [summaries, hvalues, List.map_map, List.getElem?_map, Option.map_eq_some_iff]
    rfl
  have htime : ∀ (k : ℕ) (s : UInt64 × Value α), samples[k]? = some s → q.timestamps[k]? = some s.1 := by
    intro k s hs
    rw [htimes, List.getElem?_map, hs]
    rfl
  constructor
  · intro h k x hlk hkn hx
    obtain ⟨s, hs, rfl⟩ := (hsummary k x).1 hx
    refine h s (List.mem_filter.2 ⟨List.mem_of_getElem? hs, ?_⟩)
    simpa using (hrange k s.1 (htime k s hs)).1 ⟨hlk, hkn⟩
  · intro h s hs
    obtain ⟨hmem, hin⟩ := List.mem_filter.1 hs
    obtain ⟨k, hk⟩ := List.mem_iff_getElem?.1 hmem
    obtain ⟨hlk, hkn⟩ := (hrange k s.1 (htime k s hk)).2 (by simpa using hin)
    exact h k _ hlk hkn ((hsummary k _).2 ⟨s, hk, rfl⟩)

/-- The query of a range of times answers what a walk over its samples does. -/
theorem queryTimeRange_eq (h : q.Sound) (htimes : q.timestamps = samples.map Prod.fst)
    (hvalues : q.values = samples.map Prod.snd) (hinc : q.timestamps.Pairwise (· < ·)) :
    q.queryTimeRange tStart tEnd = .ok (walk (inRange samples tStart tEnd)) := by
  -- no index is in a range that is empty
  have hempty : (∀ (k : ℕ) (t : UInt64), q.timestamps[k]? = some t → ¬ (tStart ≤ t ∧ t ≤ tEnd)) →
      walk (inRange samples tStart tEnd) = none := by
    intro hnone
    rw [walk_inRange htimes hvalues (l := 0) (n := 0)]
    · rfl
    · intro k t hk
      exact iff_of_false (by omega) (hnone k t hk)
  rw [queryTimeRange]
  split
  next hlt =>
    rw [hempty]
    rintro k t - ⟨hstart, hend⟩
    exact absurd (hstart.trans hend) (not_le.2 hlt)
  next =>
    dsimp only
    cases hlast : lastIndex q.timestamps tEnd with
    | none =>
      dsimp only
      rw [hempty]
      rintro k t hk ⟨-, hend⟩
      exact absurd hend (not_le.2 (lastIndex_eq_none hinc hlast hk))
    | some r =>
      dsimp only
      have hr : r < q.values.length := h.length_eq ▸ lastIndex_lt hlast
      split
      next hout =>
        rw [hempty]
        rintro k t hk ⟨hstart, hend⟩
        rw [← firstIndex_le_iff hinc hk] at hstart
        rw [← le_lastIndex_iff hinc hlast hk] at hend
        omega
      next hin =>
        rw [not_or, not_lt, not_le] at hin
        obtain ⟨m, hm, hjoin⟩ := queryIndexRange_eq h hin.1 hr
        rw [hm]
        show Except.ok (some m) = _
        rw [walk_inRange htimes hvalues (l := firstIndex q.timestamps tStart)
          (n := r - firstIndex q.timestamps tStart + 1), hjoin]
        · rfl
        · intro k t hk
          rw [← firstIndex_le_iff hinc hk, ← le_lastIndex_iff hinc hlast hk]
          omega

/-! ## Queries of a time -/

/-- A list of which exactly the first `n` members pass a test. -/
theorem filter_eq_take {β : Type} {p : β → Bool} {xs : List β} {n : ℕ}
    (h : ∀ (k : ℕ) (x : β), xs[k]? = some x → (p x = true ↔ k < n)) :
    xs.filter p = xs.take n ∧ xs.find? (fun x => !p x) = xs[n]? := by
  induction xs generalizing n with
  | nil => simp
  | cons x rest ih =>
    have hx : p x = true ↔ 0 < n := h 0 x rfl
    cases n with
    | zero =>
      have hpx : p x = false := by simpa using hx
      have hrest : ∀ (k : ℕ) (y : β), rest[k]? = some y → (p y = true ↔ k < 0) := by
        intro k y hk
        rw [h (k + 1) y hk]
        omega
      rw [List.filter_cons_of_neg (by simp [hpx]), (ih hrest).1, List.find?_cons_of_pos (by simp [hpx])]
      exact ⟨rfl, rfl⟩
    | succ n =>
      have hpx : p x = true := hx.2 (Nat.succ_pos n)
      have hrest : ∀ (k : ℕ) (y : β), rest[k]? = some y → (p y = true ↔ k < n) := by
        intro k y hk
        rw [h (k + 1) y hk]
        exact Nat.succ_lt_succ_iff
      obtain ⟨hfilter, hfind⟩ := ih hrest
      rw [List.filter_cons_of_pos hpx, hfilter, List.find?_cons_of_neg (by simp [hpx]), hfind]
      exact ⟨rfl, rfl⟩

omit [LinearOrder α] in
/-- The query of a time looks at the last index that is not after it. -/
theorem queryAtTime_eq_lastIndex (q : SignalRMQ α) (time : UInt64) :
    q.queryAtTime time = match lastIndex q.timestamps time with
      | none => .ok { current := none, next := q.timestamps.head? }
      | some r => (q.sampleAt r).map fun s => { current := some s, next := q.timestamps[r + 1]? } := by
  rw [queryAtTime, lastIndex]
  rcases binarySearch q.timestamps time with (_ | idx) | idx
  · rfl
  · cases q.sampleAt idx <;> rfl
  · cases q.sampleAt idx <;> rfl

omit [LinearOrder α] in
/-- The query of a time answers the last sample up to it, and the time of the first one after it. -/
theorem queryAtTime_eq (htimes : q.timestamps = samples.map Prod.fst)
    (hvalues : q.values = samples.map Prod.snd) (hinc : q.timestamps.Pairwise (· < ·)) (time : UInt64) :
    q.queryAtTime time = .ok
      { current := (samples.filter (·.1 ≤ time)).getLast?
        next := (samples.find? (time < ·.1)).map Prod.fst } := by
  have htime : ∀ (k : ℕ) (s : UInt64 × Value α), samples[k]? = some s → q.timestamps[k]? = some s.1 := by
    intro k s hs
    rw [htimes, List.getElem?_map, hs]
    rfl
  have hnot : (fun s : UInt64 × Value α => decide (time < s.1)) = fun s => !decide (s.1 ≤ time) := by
    ext1 s
    rw [← decide_not, decide_eq_decide, not_le]
  rw [queryAtTime_eq_lastIndex, hnot]
  cases hlast : lastIndex q.timestamps time with
  | none =>
    have hprefix : ∀ (k : ℕ) (s : UInt64 × Value α), samples[k]? = some s →
        (decide (s.1 ≤ time) = true ↔ k < 0) := by
      intro k s hs
      have hlt := lastIndex_eq_none hinc hlast (htime k s hs)
      simpa using hlt
    obtain ⟨hfilter, hfind⟩ := filter_eq_take hprefix
    rw [hfilter, hfind, htimes, List.head?_map, List.head?_eq_getElem?]
    rfl
  | some r =>
    have hprefix : ∀ (k : ℕ) (s : UInt64 × Value α), samples[k]? = some s →
        (decide (s.1 ≤ time) = true ↔ k < r + 1) := by
      intro k s hs
      rw [decide_eq_true_iff, Nat.lt_succ_iff, le_lastIndex_iff hinc hlast (htime k s hs)]
    obtain ⟨hfilter, hfind⟩ := filter_eq_take hprefix
    have hr : r < samples.length := by
      have hlt := lastIndex_lt hlast
      rwa [htimes, List.length_map] at hlt
    have hget : samples[r]? = some samples[r] := List.getElem?_eq_getElem hr
    have hsample : q.sampleAt r = .ok samples[r] := by
      refine Except.bind_eq_ok.2 ⟨_, Run.index_eq_ok (htime r _ hget), ?_⟩
      refine Except.bind_eq_ok.2 ⟨samples[r].2, Run.index_eq_ok ?_, rfl⟩
      rw [hvalues, List.getElem?_map, hget]
      rfl
    have hcurrent : (samples.take (r + 1)).getLast? = some samples[r] := by
      rw [List.take_succ_eq_append_getElem hr, List.getLast?_concat]
    dsimp only
    rw [hsample, hfilter, hfind, hcurrent, htimes, List.getElem?_map]
    rfl

/-- A query of the cache of some samples answers what a walk over them does. -/
theorem new_queries {signal : List (UInt64 × Value α)} {blockSize : ℕ} (hsignal : signal ≠ [])
    (hsize : 1 ≤ blockSize) (hinc : (signal.map Prod.fst).Pairwise (· < ·)) :
    ∃ q, new signal blockSize = .ok q ∧
      (∀ tStart tEnd, tStart ≤ tEnd → ∃ result, q.queryTimeRange tStart tEnd = .ok result ∧
        result = walk (inRange signal tStart tEnd) ∧
        (result = none ↔ inRange signal tStart tEnd = []) ∧
        ∀ m, result = some m → Summarizes m (inRange signal tStart tEnd)) ∧
      ∀ time, ∃ result, q.queryAtTime time = .ok result ∧
        result.current = (signal.filter (·.1 ≤ time)).getLast? ∧
        result.next = (signal.find? (time < ·.1)).map Prod.fst := by
  obtain ⟨q, hq, htimes, hvalues, hsound⟩ := new_eq_ok hsignal hsize
  have hinc' : q.timestamps.Pairwise (· < ·) := htimes ▸ hinc
  refine ⟨q, hq, fun tStart tEnd _ => ?_, fun time => ?_⟩
  · refine ⟨_, queryTimeRange_eq hsound htimes hvalues hinc', rfl, walk_eq_none_iff, fun m hm => ?_⟩
    exact summarizes_walk hm
  · exact ⟨_, queryAtTime_eq htimes hvalues hinc' time, rfl, rfl⟩

/-- Five samples in blocks of two: a range that starts and ends inside a block, and one without samples. -/
theorem new_queries_blocksOfTwo :
    let signal : List (UInt64 × Value ℕ) :=
      [(0, .finite 3), (2, .finite 7), (5, .nonFinite), (6, .finite 1), (9, .finite 4)]
    inRange signal 1 8 = [(2, .finite 7), (5, .nonFinite), (6, .finite 1)] ∧
      ∃ q, new signal 2 = .ok q ∧
        q.queryTimeRange 1 8 = .ok (some { min := WithTop.some 1, max := WithBot.some 7, hasNonFinite := true }) ∧
        q.queryTimeRange 3 4 = .ok none := by
  intro signal
  refine ⟨by decide, ?_⟩
  have hinc : (signal.map Prod.fst).Pairwise (· < ·) := by decide
  have hsize : 1 ≤ 2 := by decide
  obtain ⟨q, hq, hrange, -⟩ := new_queries (List.cons_ne_nil _ _) hsize hinc
  obtain ⟨result, hresult, hwalk, -⟩ := hrange 1 8 (by decide)
  obtain ⟨result', hresult', hwalk', -⟩ := hrange 3 4 (by decide)
  refine ⟨q, hq, ?_, ?_⟩
  · rw [hresult, hwalk]
    rfl
  · rw [hresult', hwalk']
    rfl

end SignalRMQ

end Analog
