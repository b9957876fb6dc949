import Kahuna.Bisection.Basic
import Kahuna.FiniteMap.Keys
import Kahuna.Transactions.Basic
import Kahuna.View.Basic
import Mathlib.Algebra.Order.Floor.Semiring
import Mathlib.Data.Rat.Floor

/-!
# Drawing transactions

The model of what `generate_transaction_draw_commands` (`drawing_canvas.rs`) draws of the generators that are
displayed. The first transaction is found by a binary search for the left edge of the view among the times at
which the transactions end, which need not be in order, and the loop stops behind the right edge. Pixels are exact.

The binary search is that of the standard library, or any other one: in a list that is not in order, the library
leaves open which place is found. The rows come from the library that reads the file.

* `mem_drawTransactions`: which transactions of those behind the first one get an entry;
* `drawsVisible_iff`: when all visible ones do.
-/

namespace Transactions

open View Bisection

/-- `TransactionRef`. -/
abbrev TransactionRef := ℕ

/-- `Pos2`. -/
structure Pos2 where
  x : ℚ
  y : ℚ
  deriving DecidableEq

/-- `TxDrawingCommands`. -/
structure TxDrawingCommands where
  min : Pos2
  max : Pos2
  genRef : TransactionStreamRef
  deriving DecidableEq

/-- What the drawing of transactions depends on: the view, the size of the canvas, and the last time. -/
structure DrawConfig where
  viewport : Viewport
  canvasWidth : ℚ
  lineHeight : ℚ
  maxTimestamp : ℤ
  /-- `Transaction::row`. -/
  row : Transaction → ℕ

namespace DrawConfig

variable (cfg : DrawConfig)

/-- The left edge of the view, as a time. -/
def left : ℚ := (cfg.viewport.currLeft.absolute cfg.maxTimestamp).inner

/-- The right edge of the view, as a time. -/
def right : ℚ := (cfg.viewport.currRight.absolute cfg.maxTimestamp).inner

/-- `first_visible_timestamp`: the left edge is cut off to a whole number, and is zero if it is negative. -/
def firstVisibleTimestamp : ℕ := ⌊cfg.left⌋₊

/-- The pixel of a time. -/
def pixel (time : ℕ) : ℚ := cfg.viewport.pixelFromTime time (cfg.canvasWidth - 1) cfg.maxTimestamp

/-- The entry of a transaction. -/
def entry (genRef : TransactionStreamRef) (tx : Transaction) : TxDrawingCommands where
  min := { x := cfg.pixel tx.startTime, y := cfg.lineHeight * cfg.row tx + 4 }
  max := { x := cfg.pixel tx.endTime, y := cfg.lineHeight * (cfg.row tx + 1) - 4 }
  genRef := genRef

/-- The loop over the transactions from the first visible one on, with the last pixel that was drawn to. -/
def drawTransactions (genRef : TransactionStreamRef) :
    Option ℚ → List Transaction → List (TransactionRef × TxDrawingCommands)
  | _, [] => []
  | lastPx, tx :: rest =>
    -- stop drawing after the last visible transaction
    if cfg.right < tx.startTime then []
    else
      let minPx := cfg.pixel tx.startTime
      let maxPx := cfg.pixel tx.endTime
      -- transactions that are rendered completely in the previous pixel are skipped
      if minPx = maxPx ∧ lastPx = some minPx then drawTransactions genRef (some maxPx) rest
      else (tx.id, cfg.entry genRef tx) :: drawTransactions genRef (some maxPx) rest

/-- The index of the first transaction that is drawn. -/
def firstVisibleTransactionIndex (search : List ℕ → ℕ → Except ℕ ℕ) (transactions : List Transaction) : ℕ :=
  place (search (transactions.map Transaction.endTime) cfg.firstVisibleTimestamp) - 1

/-- The entries of a generator. -/
def drawGenerator (search : List ℕ → ℕ → Except ℕ ℕ) (streamId : ℕ) (generator : TxGenerator) :
    List (TransactionRef × TxDrawingCommands) :=
  cfg.drawTransactions { streamId, genId := some generator.id, name := generator.name } none
    (generator.transactions.drop (cfg.firstVisibleTransactionIndex search generator.transactions))

/-- The draw commands of the generators that are displayed, each with the number of its stream. -/
def drawCommands (search : List ℕ → ℕ → Except ℕ ℕ) (generators : List (ℕ × TxGenerator)) :
    FiniteMap TransactionRef TxDrawingCommands :=
  (generators.flatMap fun g => cfg.drawGenerator search g.1 g.2).foldl
    (fun commands e => commands.insert e.1 e.2) .empty

/-- The generators of a stream that is displayed, or the one generator. -/
def displayedGenerators (c : TransactionContainer) (ref : TransactionStreamRef) : Run (List (ℕ × TxGenerator)) := do
  let generators ← match ref.genId with
    | none =>
      match c.getStream ref.streamId with
      | some stream => stream.generators.mapM c.unwrapGenerator
      | none => .error .unwrap
    | some genId => do
      let generator ← c.unwrapGenerator genId
      pure [generator]
  return generators.map fun generator => (ref.streamId, generator)

/-- `generate_transaction_draw_commands`, for the streams that are displayed. -/
def generateTransactionDrawCommands (search : List ℕ → ℕ → Except ℕ ℕ) (c : TransactionContainer)
    (displayedStreams : List TransactionStreamRef) : Run (FiniteMap TransactionRef TxDrawingCommands) := do
  let generators ← displayedStreams.mapM (displayedGenerators c)
  return cfg.drawCommands search generators.flatten

/-! ## The loop -/

variable {cfg} {genRef : TransactionStreamRef} {lastPx : Option ℚ} {txs : List Transaction} {tx : Transaction} {j : ℕ}

/-- The pixel that was last drawn to before a transaction. -/
def previousPx (cfg : DrawConfig) (lastPx : Option ℚ) (txs : List Transaction) : ℕ → Option ℚ
  | 0 => lastPx
  | j + 1 => (txs[j]?).map fun tx => cfg.pixel tx.endTime

theorem previousPx_cons_succ (j : ℕ) : previousPx cfg lastPx (tx :: txs) (j + 1) =
    previousPx cfg (some (cfg.pixel tx.endTime)) txs j := by
  cases j with
  | zero => rfl
  | succ j => rfl

/-- Up to the right edge, transactions get an entry unless they are in the pixel that was last drawn to. -/
theorem mem_drawTransactions (hsorted : txs.Pairwise fun a b => a.startTime ≤ b.startTime) (htx : txs[j]? = some tx)
    (hright : tx.startTime ≤ cfg.right)
    (hpx : ¬ (cfg.pixel tx.startTime = cfg.pixel tx.endTime ∧ previousPx cfg lastPx txs j = some (cfg.pixel tx.startTime))) :
    tx.id ∈ (cfg.drawTransactions genRef lastPx txs).map Prod.fst := by
  induction txs generalizing lastPx j with
  | nil => cases htx
  | cons first txs ih =>
    rw [List.pairwise_cons] at hsorted
    have hfirst : ¬ cfg.right < first.startTime := by
      rw [not_lt]
      cases j with
      | zero =>
        obtain rfl : first = tx := Option.some.inj htx
        exact hright
      | succ j =>
        have hle : (first.startTime : ℚ) ≤ tx.startTime := Nat.cast_le.2 (hsorted.1 tx (List.mem_of_getElem? htx))
        exact hle.trans hright
    rw [drawTransactions, if_neg hfirst]
    cases j with
    | zero =>
      obtain rfl : first = tx := Option.some.inj htx
      rw [previousPx] at hpx
      rw [if_neg hpx]
      exact List.mem_cons_self
    | succ j =>
      rw [previousPx_cons_succ] at hpx
      have hlater := ih hsorted.2 htx hpx
      dsimp only
      split
      · exact hlater
      · exact List.mem_cons_of_mem _ hlater

/-- Only transactions of the list get an entry. -/
theorem exists_of_mem_drawTransactions {id : TransactionRef}
    (h : id ∈ (cfg.drawTransactions genRef lastPx txs).map Prod.fst) : ∃ tx ∈ txs, tx.id = id := by
  induction txs generalizing lastPx with
  | nil => cases h
  | cons first txs ih =>
    rw [drawTransactions] at h
    split at h
    · cases h
    · dsimp only at h
      split at h
      · obtain ⟨tx, htx, hid⟩ := ih h
        exact ⟨tx, List.mem_cons_of_mem _ htx, hid⟩
      · rcases List.mem_cons.1 h with rfl | h
        · exact ⟨first, List.mem_cons_self, rfl⟩
        · obtain ⟨tx, htx, hid⟩ := ih h
          exact ⟨tx, List.mem_cons_of_mem _ htx, hid⟩

/-! ## What is visible -/

/-- A transaction intersects the visible range. -/
def Visible (cfg : DrawConfig) (tx : Transaction) : Prop := tx.startTime ≤ cfg.right ∧ cfg.left ≤ tx.endTime

/-- A transaction is in a single pixel, which is also the end pixel of the one before it in the list. -/
def Excepted (cfg : DrawConfig) (txs : List Transaction) (j : ℕ) (tx : Transaction) : Prop :=
  cfg.pixel tx.startTime = cfg.pixel tx.endTime ∧
    ∃ i prev, j = i + 1 ∧ txs[i]? = some prev ∧ cfg.pixel prev.endTime = cfg.pixel tx.startTime

/-- A transaction that is to be drawn. -/
structure ToBeDrawn (cfg : DrawConfig) (txs : List Transaction) (j : ℕ) (tx : Transaction) : Prop where
  get : txs[j]? = some tx
  visible : cfg.Visible tx
  not_excepted : ¬ cfg.Excepted txs j tx

/-- Behind a transaction that is to be drawn, none ends before the view begins, and none but the next one ends just
then. -/
def EndsBehind (cfg : DrawConfig) (txs : List Transaction) : Prop :=
  ∀ j tx, cfg.ToBeDrawn txs j tx → ∀ k later, txs[k]? = some later →
    (j < k → cfg.firstVisibleTimestamp ≤ later.endTime) ∧ (j + 1 < k → cfg.firstVisibleTimestamp < later.endTime)

/-- All transactions that are to be drawn get an entry. -/
def DrawsVisible (cfg : DrawConfig) (search : List ℕ → ℕ → Except ℕ ℕ) (generators : List (ℕ × TxGenerator)) : Prop :=
  ∀ g ∈ generators, ∀ j tx, cfg.ToBeDrawn g.2.transactions j tx →
    ((cfg.drawCommands search generators).get tx.id).isSome

theorem isSome_get_drawCommands {search : List ℕ → ℕ → Except ℕ ℕ} {generators : List (ℕ × TxGenerator)}
    {id : TransactionRef} : ((cfg.drawCommands search generators).get id).isSome ↔
      ∃ g ∈ generators, id ∈ (cfg.drawGenerator search g.1 g.2).map Prod.fst := by
  rw [drawCommands, FiniteMap.isSome_get_foldl_insert_of, FiniteMap.get_empty, List.map_flatMap, List.mem_flatMap]
  simp

/-- The search goes no further than the transaction behind one that is to be drawn. -/
theorem firstIndex_le {search : List ℕ → ℕ → Except ℕ ℕ} (hsearch : ∀ xs needle, Stops xs needle (search xs needle))
    (h : cfg.EndsBehind txs) (htx : cfg.ToBeDrawn txs j tx) : cfg.firstVisibleTransactionIndex search txs ≤ j := by
  have hnone : ¬ ∃ found, Stops (txs.map Transaction.endTime) cfg.firstVisibleTimestamp found ∧ j + 1 < place found := by
    rw [exists_stops_iff]
    rintro ⟨k, endTime, hk, hbehind⟩
    rw [List.getElem?_map, Option.map_eq_some_iff] at hk
    obtain ⟨later, hlater, rfl⟩ := hk
    obtain ⟨hone, htwo⟩ := h j tx htx k later hlater
    rcases hbehind with ⟨hjk, hless⟩ | ⟨hjk, hle⟩
    · exact absurd hless (not_lt.2 (hone hjk))
    · exact absurd hle (not_le.2 (htwo hjk))
  have hplace : ¬ j + 1 < place (search (txs.map Transaction.endTime) cfg.firstVisibleTimestamp) :=
    fun hlt => hnone ⟨_, hsearch _ _, hlt⟩
  rw [firstVisibleTransactionIndex]
  omega

/-- The pixel that was last drawn to before a transaction is the end of the one before it. -/
theorem previousPx_drop {i : ℕ} {px : ℚ} (h : previousPx cfg none (txs.drop i) j = some px) :
    ∃ k prev, i + j = k + 1 ∧ txs[k]? = some prev ∧ cfg.pixel prev.endTime = px := by
  cases j with
  | zero => cases h
  | succ j =>
    rw [previousPx, List.getElem?_drop, Option.map_eq_some_iff] at h
    obtain ⟨prev, hprev, hpx⟩ := h
    exact ⟨i + j, prev, rfl, hprev, hpx⟩

/-- What gets an entry stands at the first index or behind it. -/
theorem exists_of_mem_drawGenerator {search : List ℕ → ℕ → Except ℕ ℕ} {g : ℕ × TxGenerator} {id : TransactionRef}
    (h : id ∈ (cfg.drawGenerator search g.1 g.2).map Prod.fst) :
    ∃ k tx, cfg.firstVisibleTransactionIndex search g.2.transactions ≤ k ∧ g.2.transactions[k]? = some tx ∧
      tx.id = id := by
  obtain ⟨tx, htx, hid⟩ := exists_of_mem_drawTransactions h
  obtain ⟨n, hn⟩ := List.getElem?_of_mem htx
  rw [List.getElem?_drop] at hn
  exact ⟨_, tx, Nat.le_add_right _ n, hn, hid⟩

/-- If one ends too early, some search goes too far. -/
theorem exists_search (h : ¬ cfg.EndsBehind txs) : ∃ search : List ℕ → ℕ → Except ℕ ℕ,
    (∀ xs needle, Stops xs needle (search xs needle)) ∧
      ∃ j tx, cfg.ToBeDrawn txs j tx ∧ j < cfg.firstVisibleTransactionIndex search txs := by
  simp only [EndsBehind, not_forall] at h
  obtain ⟨j, tx, htx, k, later, hlater, hearly⟩ := h
  have hend : (txs.map Transaction.endTime)[k]? = some later.endTime := by
    rw [List.getElem?_map, hlater]
    rfl
  have hbehind : j < k ∧ later.endTime < cfg.firstVisibleTimestamp ∨
      j + 1 < k ∧ later.endTime ≤ cfg.firstVisibleTimestamp := by
    omega
  obtain ⟨found, hstops, hplace⟩ := (exists_stops_iff _ _ j).2 ⟨k, later.endTime, hend, hbehind⟩
  refine ⟨fun xs needle => if xs = txs.map Transaction.endTime ∧ needle = cfg.firstVisibleTimestamp then found
    else binarySearchBy xs needle, fun xs needle => ?_, j, tx, htx, ?_⟩
  · dsimp only
    split
    next heq =>
      rw [heq.1, heq.2]
      exact hstops
    next => exact binarySearchBy_stops xs needle
  · rw [firstVisibleTransactionIndex, if_pos ⟨rfl, rfl⟩]
    omega

/-- From the first one on, the transactions that are to be drawn get an entry. -/
theorem mem_drawGenerator {search : List ℕ → ℕ → Except ℕ ℕ} {g : ℕ × TxGenerator}
    (hsorted : g.2.transactions.Pairwise fun a b => a.startTime ≤ b.startTime)
    (htx : cfg.ToBeDrawn g.2.transactions j tx)
    (hle : cfg.firstVisibleTransactionIndex search g.2.transactions ≤ j) :
    tx.id ∈ (cfg.drawGenerator search g.1 g.2).map Prod.fst := by
  obtain ⟨n, rfl⟩ := Nat.exists_eq_add_of_le hle
  refine mem_drawTransactions (hsorted.drop) (by rw [List.getElem?_drop]; exact htx.get) htx.visible.1 ?_
  rintro ⟨hsingle, hprevious⟩
  obtain ⟨k, prev, hk, hprev, hpx⟩ := previousPx_drop hprevious
  exact htx.not_excepted ⟨hsingle, k, prev, hk, hprev, hpx⟩

end DrawConfig

/-- The generators that are displayed, each with the number of its stream. Their transactions are in the order of
their starts. -/
structure DisplayedGenerators where
  generators : List (ℕ × TxGenerator)
  sorted : ∀ g ∈ generators, g.2.transactions.Pairwise fun a b => a.startTime ≤ b.startTime
  start_le_end : ∀ g ∈ generators, ∀ tx ∈ g.2.transactions, tx.startTime ≤ tx.endTime

/-- The number of a transaction tells where it is. -/
def DisplayedGenerators.UniqueIds (d : DisplayedGenerators) : Prop :=
  ∀ g ∈ d.generators, ∀ g' ∈ d.generators, ∀ (j j' : ℕ) tx tx', g.2.transactions[j]? = some tx →
    g'.2.transactions[j']? = some tx' → tx.id = tx'.id → g.2.transactions = g'.2.transactions ∧ j = j'

/-- With any binary search all visible transactions are drawn, if behind none of them one ends too early. If one
does, there is a binary search with which they are not. -/
theorem drawsVisible_iff (cfg : DrawConfig) (d : DisplayedGenerators) :
    ((∀ g ∈ d.generators, cfg.EndsBehind g.2.transactions) →
      ∀ search, (∀ xs needle, Stops xs needle (search xs needle)) → cfg.DrawsVisible search d.generators) ∧
    (d.UniqueIds → (∀ search, (∀ xs needle, Stops xs needle (search xs needle)) → cfg.DrawsVisible search d.generators) →
      ∀ g ∈ d.generators, cfg.EndsBehind g.2.transactions) := by
  constructor
  · intro h search hsearch g hg j tx htx
    exact DrawConfig.isSome_get_drawCommands.2 ⟨g, hg,
      DrawConfig.mem_drawGenerator (d.sorted g hg) htx (DrawConfig.firstIndex_le hsearch (h g hg) htx)⟩
  · intro hids hdraws g hg
    by_contra hnot
    obtain ⟨search, hsearch, j, tx, htx, hlt⟩ := DrawConfig.exists_search hnot
    obtain ⟨g', hg', hmem⟩ := DrawConfig.isSome_get_drawCommands.1 (hdraws search hsearch g hg j tx htx)
    obtain ⟨k, tx', hle, htx', hid⟩ := DrawConfig.exists_of_mem_drawGenerator hmem
    obtain ⟨hsame, rfl⟩ := hids g hg g' hg' j k tx tx' htx.get htx' hid.symm
    rw [← hsame] at hle
    omega

/-- A long transaction in front of a short one. -/
def longAndShort : DisplayedGenerators where
  generators := [(0, { id := 1, streamId := 0, name := "gen", transactions := [⟨1, 0, 100⟩, ⟨2, 1, 2⟩] })]
  sorted := by simp
  start_le_end := by simp

/-- A view of the times from 50 to 60. -/
def laterView : DrawConfig where
  viewport := { Viewport.default with currLeft := ⟨1 / 2⟩, currRight := ⟨3 / 5⟩ }
  canvasWidth := 101
  lineHeight := 16
  maxTimestamp := 100
  row := fun _ => 0

/-- The search of the standard library goes past the long transaction. -/
theorem index_laterView : laterView.firstVisibleTransactionIndex binarySearchBy [⟨1, 0, 100⟩, ⟨2, 1, 2⟩] = 1 := by
  have hleft : laterView.left = (50 : ℕ) := by
    rw [DrawConfig.left, Relative.inner_absolute]
    norm_num [laterView]
  have htime : laterView.firstVisibleTimestamp = 50 := by
    rw [DrawConfig.firstVisibleTimestamp, hleft, Nat.floor_natCast]
  have hsearch : binarySearchBy [100, 2] 50 = .error 2 := by
    simp [binarySearchBy, binarySearchLoop, compare, compareOfLessAndEq]
  rw [DrawConfig.firstVisibleTransactionIndex, htime]
  exact congrArg (place · - 1) hsearch

/-- The long transaction is visible, and it is not drawn. -/
theorem laterView_not_drawsVisible : ¬ ∀ (cfg : DrawConfig) (d : DisplayedGenerators),
    cfg.DrawsVisible binarySearchBy d.generators := by
  intro h
  have hvisible : laterView.Visible ⟨1, 0, 100⟩ := by
    constructor
    · norm_num [laterView, DrawConfig.right]
    · norm_num [laterView, DrawConfig.left]
  have hdrawn := h laterView longAndShort _ (List.mem_singleton_self _) 0 ⟨1, 0, 100⟩
    ⟨rfl, hvisible, fun hexcepted => by obtain ⟨-, i, prev, hi, -⟩ := hexcepted; omega⟩
  obtain ⟨g, hg, hmem⟩ := DrawConfig.isSome_get_drawCommands.1 hdrawn
  obtain rfl := List.mem_singleton.1 hg
  obtain ⟨k, tx, hle, htx, hid⟩ := DrawConfig.exists_of_mem_drawGenerator hmem
  rw [index_laterView] at hle
  -- the other transaction has another number
  obtain ⟨k, rfl⟩ := Nat.exists_eq_add_of_le' hle
  cases k with
  | zero =>
    obtain rfl := Option.some.inj htx
    cases hid
  | succ k => cases htx

end Transactions
