import Kahuna.FiniteMap.Basic
import Kahuna.ItemTree.Basic
import Kahuna.Neighbours.Basic
import Kahuna.Transactions.Basic

/-!
# Stepping through transactions

The model of `move_to_transaction` of `transactions.rs`. The transactions of the visible streams and generators are
listed by their numbers, and the focus moves along the list.

A step that is safe and in order (`WaveData.Steps`) needs more than the code checks for: see
`WaveData.moveToTransaction_steps_iff`.
-/

namespace Transactions

open ItemTree (DisplayedItemRef DisplayedItemTree)

/-! ## The model -/

/-- `DisplayedItem`, by what is asked of it here. -/
inductive DisplayedItem where
  | stream (transactionStreamRef : TransactionStreamRef)
  | other
  deriving DecidableEq

/-- The fields of `WaveData` that are read and written. -/
structure WaveData where
  /-- `inner.as_transactions()`. -/
  inner : Option TransactionContainer
  itemsTree : DisplayedItemTree
  displayedItems : FiniteMap DisplayedItemRef DisplayedItem
  /-- The number of the transaction in focus, and the transaction itself. -/
  focusedTransaction : Option ℕ × Option Transaction

/-- The transactions of an item. -/
def DisplayedItem.transactions (inner : TransactionContainer) : DisplayedItem → Run (List ℕ)
  | .stream streamRef =>
    match streamRef.genId with
    | some genId => inner.getTransactionsFromGenerator genId
    | none => inner.getTransactionsFromStream streamRef.streamId
  | .other => .ok []

/-- `len() - 1`, which may not underflow. -/
def lastIndex (len : ℕ) : Run ℕ :=
  if len = 0 then .error (.assertion "attempt to subtract with overflow") else .ok (len - 1)

/-- The index to go to from where the focus was found. What stands for a focus that was not found is computed in
any case. -/
def nextIndex (next : Bool) (len : ℕ) (found : Option ℕ) : Run ℕ := do
  let notFound ← if next then lastIndex len else .ok 0
  match found with
  | none => return notFound
  | some vecIdx =>
    if next then
      if vecIdx + 1 < len then return vecIdx + 1 else lastIndex len
    else return vecIdx - 1

namespace WaveData

/-- The numbers of the listed transactions, sorted. -/
def listTransactions (w : WaveData) (inner : TransactionContainer) : Run (List ℕ) := do
  let ids ← w.itemsTree.iterVisible.mapM fun node =>
    match w.displayedItems.get node.itemRef with
    | some item => item.transactions inner
    | none => .error .outOfBounds
  return ids.flatten.insertionSort (· ≤ ·)

/-- Another transaction is in focus. -/
def setFocus (w : WaveData) (id : Option ℕ) : WaveData :=
  { w with focusedTransaction := (id, w.focusedTransaction.2) }

/-- `move_to_transaction`: the new state, or nothing if the step is given up. -/
def moveToTransaction (w : WaveData) (next : Bool) : Run (Option WaveData) :=
  match w.inner with
  | none => .ok none
  | some inner => do
    let transactions ← w.listTransactions inner
    match w.focusedTransaction.1 with
    | some focused =>
      let nextId ← nextIndex next transactions.length (transactions.idxOf? focused)
      match transactions[nextId]? with
      | some id => return some (w.setFocus (some id))
      | none => return none
    | none => return some (w.setFocus transactions.head?)

end WaveData

/-! ## What is listed -/

namespace TransactionContainer

variable (c : TransactionContainer)

/-- The transactions of a generator, if there is one of the number. -/
def generatorTransactions (genId : ℕ) : List ℕ :=
  ((c.getGenerator genId).map fun generator => generator.transactions.map Transaction.id).getD []

/-- The transactions that a stream or generator stands for. -/
def transactionsOf (streamRef : TransactionStreamRef) : List ℕ :=
  match streamRef.genId with
  | some genId => c.generatorTransactions genId
  | none => ((c.getStream streamRef.streamId).map (·.generators.flatMap c.generatorTransactions)).getD []

/-- A stream with its generators, or a generator, is there. -/
def Resolves (streamRef : TransactionStreamRef) : Prop :=
  match streamRef.genId with
  | some genId => (c.getGenerator genId).isSome
  | none => ∃ stream, c.getStream streamRef.streamId = some stream ∧
      ∀ genId ∈ stream.generators, (c.getGenerator genId).isSome

variable {c}

theorem getTransactionsFromGenerator_eq_ok {genId : ℕ} (h : (c.getGenerator genId).isSome) :
    c.getTransactionsFromGenerator genId = .ok (c.generatorTransactions genId) := by
  obtain ⟨generator, hgen⟩ := Option.isSome_iff_exists.1 h
  rw [getTransactionsFromGenerator, unwrapGenerator, generatorTransactions, hgen]
  rfl

theorem isSome_of_getTransactionsFromGenerator {genId : ℕ} {ids : List ℕ}
    (h : c.getTransactionsFromGenerator genId = .ok ids) : (c.getGenerator genId).isSome := by
  cases hgen : c.getGenerator genId with
  | some generator => rfl
  | none =>
    rw [getTransactionsFromGenerator, unwrapGenerator, hgen] at h
    cases h

theorem getTransactionsFromStream_eq_ok {streamId : ℕ} {stream : TxStream}
    (h : c.getStream streamId = some stream) (hgens : ∀ genId ∈ stream.generators, (c.getGenerator genId).isSome) :
    c.getTransactionsFromStream streamId = .ok (stream.generators.flatMap c.generatorTransactions) := by
  have hall := Run.mapM_eq_map fun genId hmem => getTransactionsFromGenerator_eq_ok (hgens genId hmem)
  rw [getTransactionsFromStream, h]
  simp only [hall]
  rfl

theorem resolves_of_getTransactionsFromStream {streamId : ℕ} {ids : List ℕ}
    (h : c.getTransactionsFromStream streamId = .ok ids) :
    ∃ stream, c.getStream streamId = some stream ∧
      ∀ genId ∈ stream.generators, (c.getGenerator genId).isSome := by
  rw [getTransactionsFromStream] at h
  cases hstream : c.getStream streamId with
  | none => rw [hstream] at h; cases h
  | some stream =>
    refine ⟨stream, rfl, fun genId hmem => ?_⟩
    rw [hstream] at h
    cases hall : stream.generators.mapM c.getTransactionsFromGenerator with
    | error e => simp only [hall] at h; cases h
    | ok lists =>
      obtain ⟨l, hl⟩ := Run.exists_of_mapM_eq_ok hall genId hmem
      exact isSome_of_getTransactionsFromGenerator hl

end TransactionContainer

namespace DisplayedItem

/-- The transactions that an item stands for. -/
def shownTransactions (inner : TransactionContainer) : DisplayedItem → List ℕ
  | .stream streamRef => inner.transactionsOf streamRef
  | .other => []

/-- What an item stands for is there. -/
def Resolves (inner : TransactionContainer) : DisplayedItem → Prop
  | .stream streamRef => inner.Resolves streamRef
  | .other => True

variable {inner : TransactionContainer} {item : DisplayedItem}

theorem transactions_eq_ok (h : item.Resolves inner) :
    item.transactions inner = .ok (item.shownTransactions inner) := by
  cases item with
  | other => rfl
  | stream streamRef =>
    obtain ⟨streamId, genId, name⟩ := streamRef
    cases genId with
    | some genId => exact TransactionContainer.getTransactionsFromGenerator_eq_ok h
    | none =>
      obtain ⟨stream, hstream, hgens⟩ := h
      refine (TransactionContainer.getTransactionsFromStream_eq_ok hstream hgens).trans ?_
      simp only [shownTransactions, TransactionContainer.transactionsOf]
      rw [hstream]
      rfl

theorem resolves_of_transactions {ids : List ℕ} (h : item.transactions inner = .ok ids) :
    item.Resolves inner := by
  cases item with
  | other => trivial
  | stream streamRef =>
    obtain ⟨streamId, genId, name⟩ := streamRef
    cases genId with
    | some genId => exact TransactionContainer.isSome_of_getTransactionsFromGenerator h
    | none => exact TransactionContainer.resolves_of_getTransactionsFromStream h

end DisplayedItem

namespace WaveData

variable {w : WaveData} {inner : TransactionContainer}

/-- What the visible items stand for, item by item. -/
def shownTransactions (w : WaveData) : List ℕ :=
  match w.inner with
  | some inner =>
    w.itemsTree.iterVisible.flatMap fun node =>
      ((w.displayedItems.get node.itemRef).map (·.shownTransactions inner)).getD []
  | none => []

/-- Every visible item is there, and what it stands for is. -/
def ShownResolve (w : WaveData) : Prop :=
  ∀ inner, w.inner = some inner → ∀ node ∈ w.itemsTree.iterVisible,
    ∃ item, w.displayedItems.get node.itemRef = some item ∧ item.Resolves inner

theorem listTransactions_eq_ok (hinner : w.inner = some inner) (h : w.ShownResolve) :
    w.listTransactions inner = .ok (w.shownTransactions.insertionSort (· ≤ ·)) := by
  have hpass : ∀ node ∈ w.itemsTree.iterVisible,
      (match w.displayedItems.get node.itemRef with
        | some item => item.transactions inner
        | none => .error .outOfBounds) =
        .ok (((w.displayedItems.get node.itemRef).map (·.shownTransactions inner)).getD []) := by
    intro node hnode
    obtain ⟨item, hitem, hres⟩ := h inner hinner node hnode
    simp only [hitem]
    exact DisplayedItem.transactions_eq_ok hres
  rw [listTransactions, Run.mapM_eq_map hpass, shownTransactions, hinner]
  rfl

theorem shownResolve_of_listTransactions {ids : List ℕ} (hinner : w.inner = some inner)
    (h : w.listTransactions inner = .ok ids) : w.ShownResolve := by
  intro inner' hinner' node hnode
  obtain rfl : inner = inner' := Option.some.inj (hinner.symm.trans hinner')
  rw [listTransactions] at h
  cases hall : w.itemsTree.iterVisible.mapM fun node =>
      match w.displayedItems.get node.itemRef with
      | some item => item.transactions inner
      | none => .error .outOfBounds with
  | error e => rw [hall] at h; cases h
  | ok lists =>
    obtain ⟨l, hl⟩ := Run.exists_of_mapM_eq_ok hall node hnode
    cases hitem : w.displayedItems.get node.itemRef with
    | none => rw [hitem] at hl; cases hl
    | some item =>
      rw [hitem] at hl
      exact ⟨item, rfl, DisplayedItem.resolves_of_transactions hl⟩

end WaveData

/-! ## A step along the list -/

/-- `id` is the neighbour of `focus` in one direction, or is `focus` if there is none. -/
def Neighbour (next : Bool) (ids : List ℕ) (focus id : ℕ) : Prop :=
  if next then IsLeast {other | other ∈ ids ∧ focus < other} id ∨ (∀ other ∈ ids, other ≤ focus) ∧ id = focus
  else IsGreatest {other | other ∈ ids ∧ other < focus} id ∨ (∀ other ∈ ids, focus ≤ other) ∧ id = focus

theorem Neighbour.congr {next : Bool} {ids ids' : List ℕ} {focus id : ℕ} (h : ∀ other, other ∈ ids ↔ other ∈ ids') :
    Neighbour next ids focus id ↔ Neighbour next ids' focus id := by
  simp only [Neighbour, h]

/-- A transaction that is listed again is not left in the direction of greater numbers, if there are any. -/
def Leaves (next : Bool) (ids : List ℕ) (focus : ℕ) : Prop :=
  next = true → (∃ other ∈ ids, focus < other) → ids.count focus = 1

section Sorted

variable {ids : List ℕ} {focus : ℕ}

theorem idxOf?_of_mem (hmem : focus ∈ ids) : ids.idxOf? focus = some (ids.idxOf focus) := by
  obtain ⟨i, hi⟩ := Option.isSome_iff_exists.1 (List.isSome_idxOf?.2 hmem)
  rw [List.idxOf_eq_getD_idxOf?, hi]
  rfl

theorem prev_step (h : ids.Pairwise (· ≤ ·)) (hmem : focus ∈ ids) :
    ∃ i id, nextIndex false ids.length (ids.idxOf? focus) = .ok i ∧ ids[i]? = some id ∧
      Neighbour false ids focus id := by
  refine ⟨ids.idxOf focus - 1, ?_⟩
  have hlt := List.idxOf_lt_length_of_mem hmem
  rw [idxOf?_of_mem hmem]
  cases hi : ids.idxOf focus with
  | zero =>
    -- the focus is at the start, and the index stays at zero
    refine ⟨focus, rfl, ?_, ?_⟩
    · have hplace := Neighbours.getElem?_idxOf hmem
      rwa [hi] at hplace
    · exact .inr ⟨Neighbours.le_of_idxOf_eq_zero h hmem hi, rfl⟩
  | succ k =>
    have hk : ids[k]? = some ids[k] := List.getElem?_eq_getElem (by omega)
    refine ⟨ids[k], rfl, hk, ?_⟩
    exact .inl (Neighbours.isGreatest_of_idxOf_pred h hmem hi hk)

theorem next_step (h : ids.Pairwise (· ≤ ·)) (hmem : focus ∈ ids) :
    ∃ i id, nextIndex true ids.length (ids.idxOf? focus) = .ok i ∧ ids[i]? = some id ∧
      (Neighbour true ids focus id ↔ Leaves true ids focus) := by
  have hlt := List.idxOf_lt_length_of_mem hmem
  have hlast : lastIndex ids.length = .ok (ids.length - 1) := if_neg (by omega)
  have hindex : nextIndex true ids.length (ids.idxOf? focus) =
      if ids.idxOf focus + 1 < ids.length then .ok (ids.idxOf focus + 1) else .ok (ids.length - 1) := by
    rw [idxOf?_of_mem hmem, nextIndex, if_pos rfl, hlast]
    rfl
  rw [hindex]
  by_cases hmore : ids.idxOf focus + 1 < ids.length
  · rw [if_pos hmore]
    have hnext : ids[ids.idxOf focus + 1]? = some ids[ids.idxOf focus + 1] := List.getElem?_eq_getElem hmore
    refine ⟨_, _, rfl, hnext, ?_⟩
    by_cases hcount : ids.count focus = 1
    · have hleast := Neighbours.isLeast_of_idxOf_succ h hmem hcount hnext
      exact ⟨fun _ _ _ => hcount, fun _ => .inl hleast⟩
    · -- the same number comes again
      rw [Neighbours.eq_of_idxOf_succ h hmem hcount hnext]
      constructor
      · rintro (hleast | ⟨hall, -⟩) - ⟨other, hother, hgt⟩
        · exact absurd hleast.1.2 (lt_irrefl focus)
        · exact absurd (hall other hother) (not_le.2 hgt)
      · intro hleaves
        refine .inr ⟨fun other hother => ?_, rfl⟩
        by_contra hgt
        exact hcount (hleaves rfl ⟨other, hother, not_le.1 hgt⟩)
  · rw [if_neg hmore]
    have hall := Neighbours.le_of_idxOf_succ h hmem (Nat.not_lt.1 hmore)
    refine ⟨_, focus, rfl, ?_, ?_⟩
    · have hplace := Neighbours.getElem?_idxOf hmem
      rwa [show ids.idxOf focus = ids.length - 1 by omega] at hplace
    · refine ⟨fun _ _ ⟨other, hother, hgt⟩ => ?_, fun _ => .inr ⟨hall, rfl⟩⟩
      exact absurd (hall other hother) (not_le.2 hgt)

/-- From a listed transaction the index stays inside the list. -/
theorem listed_step (next : Bool) (h : ids.Pairwise (· ≤ ·)) (hmem : focus ∈ ids) :
    ∃ i id, nextIndex next ids.length (ids.idxOf? focus) = .ok i ∧ ids[i]? = some id ∧
      (Neighbour next ids focus id ↔ Leaves next ids focus) := by
  cases next with
  | true => exact next_step h hmem
  | false =>
    obtain ⟨i, id, hi, hid, hneighbour⟩ := prev_step h hmem
    have hleaves : Leaves false ids focus := fun hnext => Bool.noConfusion hnext
    exact ⟨i, id, hi, hid, iff_of_true hneighbour hleaves⟩

end Sorted

theorem nextIndex_eq_ok {next : Bool} {len : ℕ} (found : Option ℕ) (h : next = true → len ≠ 0) :
    ∃ i, nextIndex next len found = .ok i := by
  cases next with
  | false =>
    cases found with
    | none => exact ⟨0, rfl⟩
    | some vecIdx => exact ⟨vecIdx - 1, rfl⟩
  | true =>
    have hlast : lastIndex len = .ok (len - 1) := if_neg (h rfl)
    rw [nextIndex, if_pos rfl, hlast]
    cases found with
    | none => exact ⟨len - 1, rfl⟩
    | some vecIdx =>
      by_cases hmore : vecIdx + 1 < len
      · exact ⟨vecIdx + 1, if_pos hmore⟩
      · exact ⟨len - 1, if_neg hmore⟩

/-! ## The step -/

namespace WaveData

variable {w : WaveData} {inner : TransactionContainer}

/-- A step does not panic, and leads from a listed transaction to its neighbour. Nothing but the focus changes. -/
def Steps (w : WaveData) (next : Bool) : Prop :=
  ∃ result, w.moveToTransaction next = .ok result ∧
    ∀ focus, w.focusedTransaction.1 = some focus → focus ∈ w.shownTransactions →
      ∃ id, Neighbour next w.shownTransactions focus id ∧
        result = some (w.setFocus (some id))

/-- What a step relies on. -/
structure Steppable (w : WaveData) (next : Bool) : Prop where
  shownResolve : w.ShownResolve
  nonempty : next = true → w.inner.isSome → w.focusedTransaction.1.isSome → w.shownTransactions ≠ []
  leaves : ∀ focus, w.focusedTransaction.1 = some focus → focus ∈ w.shownTransactions →
    Leaves next w.shownTransactions focus

/-- The list that the focus moves along. -/
def sortedTransactions (w : WaveData) : List ℕ := w.shownTransactions.insertionSort (· ≤ ·)

theorem pairwise_sortedTransactions (w : WaveData) : w.sortedTransactions.Pairwise (· ≤ ·) :=
  List.pairwise_insertionSort _ _

theorem mem_sortedTransactions {id : ℕ} : id ∈ w.sortedTransactions ↔ id ∈ w.shownTransactions :=
  List.mem_insertionSort _

theorem leaves_sortedTransactions {next : Bool} {focus : ℕ} :
    Leaves next w.sortedTransactions focus ↔ Leaves next w.shownTransactions focus := by
  have hcount := (List.perm_insertionSort (· ≤ ·) w.shownTransactions).count_eq focus
  rw [sortedTransactions, Leaves, Leaves, hcount]
  simp only [List.mem_insertionSort]

/-- A step from a transaction in focus looks up one index. -/
theorem moveToTransaction_eq {next : Bool} {focused : ℕ} (hinner : w.inner = some inner) (h : w.ShownResolve)
    (hfocus : w.focusedTransaction.1 = some focused) :
    w.moveToTransaction next = (do
      let nextId ← nextIndex next w.sortedTransactions.length (w.sortedTransactions.idxOf? focused)
      return (w.sortedTransactions[nextId]?).map fun id => w.setFocus (some id)) := by
  have hlist : w.listTransactions inner = .ok w.sortedTransactions := listTransactions_eq_ok hinner h
  simp only [moveToTransaction, hinner, hlist, hfocus, bind, Except.bind]
  cases nextIndex next w.sortedTransactions.length (w.sortedTransactions.idxOf? focused) with
  | error e => rfl
  | ok nextId =>
    cases hid : w.sortedTransactions[nextId]? with
    | none => simp only [hid, Option.map_none]
    | some id => simp only [hid, Option.map_some]

/-- From a listed transaction the step goes to the neighbour if the transaction can be left. -/
theorem moveToTransaction_listed {next : Bool} {focused : ℕ} (hinner : w.inner = some inner) (h : w.ShownResolve)
    (hfocus : w.focusedTransaction.1 = some focused) (hmem : focused ∈ w.shownTransactions) :
    ∃ id, w.moveToTransaction next = .ok (some (w.setFocus (some id))) ∧
      (Neighbour next w.shownTransactions focused id ↔ Leaves next w.shownTransactions focused) := by
  obtain ⟨i, id, hi, hid, hiff⟩ :=
    listed_step next w.pairwise_sortedTransactions (mem_sortedTransactions.2 hmem)
  refine ⟨id, ?_, ?_⟩
  · rw [moveToTransaction_eq hinner h hfocus, hi]
    simp only [bind, Except.bind, hid, Option.map_some]
    rfl
  · rw [← leaves_sortedTransactions, ← hiff]
    exact (Neighbour.congr fun _ => mem_sortedTransactions).symm

theorem shownResolve_of_moveToTransaction {next : Bool} {result : Option WaveData} (hinner : w.inner = some inner)
    (h : w.moveToTransaction next = .ok result) : w.ShownResolve := by
  rw [moveToTransaction, hinner] at h
  cases hlist : w.listTransactions inner with
  | error e => simp only [hlist] at h; cases h
  | ok ids => exact shownResolve_of_listTransactions hinner hlist

/-- A step is safe and in order exactly if all that is shown is there, a step forward from a transaction in focus
finds any transaction at all, and the transaction in focus is listed once where a greater one is looked for. -/
theorem moveToTransaction_steps_iff (w : WaveData) (next : Bool) : w.Steps next ↔ w.Steppable next := by
  cases hinner : w.inner with
  | none =>
    have hshown : w.shownTransactions = [] := by rw [shownTransactions, hinner]
    have hmove : w.moveToTransaction next = .ok none := by rw [moveToTransaction, hinner]
    constructor
    · refine fun _ => ⟨?_, ?_, ?_⟩
      · intro inner hsome
        rw [hinner] at hsome
        cases hsome
      · intro _ hsome
        rw [hinner] at hsome
        cases hsome
      · intro focus _ hmem
        rw [hshown] at hmem
        cases hmem
    · refine fun _ => ⟨none, hmove, fun focus _ hmem => ?_⟩
      rw [hshown] at hmem
      cases hmem
  | some inner =>
    constructor
    · rintro ⟨result, hmove, hneighbour⟩
      have hres := shownResolve_of_moveToTransaction hinner hmove
      refine ⟨hres, ?_, ?_⟩
      · -- an empty list has no last index
        rintro rfl - hsome hempty
        obtain ⟨focused, hfocus⟩ := Option.isSome_iff_exists.1 hsome
        rw [moveToTransaction_eq hinner hres hfocus, sortedTransactions, hempty] at hmove
        cases hmove
      · intro focus hfocus hmem
        obtain ⟨id, heq, hiff⟩ := moveToTransaction_listed hinner hres hfocus hmem
        obtain ⟨id', hnext, rfl⟩ := hneighbour focus hfocus hmem
        obtain rfl : id' = id := by
          have hfocused : w.setFocus (some id') = w.setFocus (some id) :=
            Option.some.inj (Except.ok.inj (hmove.symm.trans heq))
          exact Option.some.inj (congrArg (fun state => state.focusedTransaction.1) hfocused)
        exact hiff.1 hnext
    · rintro ⟨hres, hnonempty, hleaves⟩
      cases hfocus : w.focusedTransaction.1 with
      | none =>
        have hlist : w.listTransactions inner = .ok w.sortedTransactions := listTransactions_eq_ok hinner hres
        refine ⟨some (w.setFocus w.sortedTransactions.head?), ?_, fun focus hsome => ?_⟩
        · simp only [moveToTransaction, hinner, hlist, hfocus]
          rfl
        · rw [hfocus] at hsome
          cases hsome
      | some focused =>
        by_cases hmem : focused ∈ w.shownTransactions
        · obtain ⟨id, heq, hiff⟩ := moveToTransaction_listed hinner hres hfocus hmem
          refine ⟨_, heq, fun focus hsome hmem' => ?_⟩
          obtain rfl : focused = focus := Option.some.inj (hfocus.symm.trans hsome)
          exact ⟨id, hiff.2 (hleaves focused hfocus hmem), rfl⟩
        · have hlen : next = true → w.sortedTransactions.length ≠ 0 := by
            intro hnext
            rw [sortedTransactions, List.length_insertionSort]
            exact mt List.length_eq_zero_iff.1 (hnonempty hnext (by rw [hinner]; rfl) (by rw [hfocus]; rfl))
          obtain ⟨i, hi⟩ := nextIndex_eq_ok (w.sortedTransactions.idxOf? focused) hlen
          refine ⟨(w.sortedTransactions[i]?).map fun id => w.setFocus (some id), ?_, fun focus hsome hmem' => ?_⟩
          · rw [moveToTransaction_eq hinner hres hfocus, hi]
            rfl
          · obtain rfl : focused = focus := Option.some.inj (hfocus.symm.trans hsome)
            exact absurd hmem' hmem

/-- A step forward from a transaction that is in focus while no transaction is shown. -/
theorem not_forall_steps : ¬ ∀ (w : WaveData) (next : Bool), w.Steps next := by
  intro h
  obtain ⟨result, hmove, -⟩ := h ⟨some ⟨fun _ => none, fun _ => none⟩, ⟨[]⟩, .empty, (some 1, none)⟩ true
  cases hmove

end WaveData

end Transactions
