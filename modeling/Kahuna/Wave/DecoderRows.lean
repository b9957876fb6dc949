import Kahuna.Wave.Placing

/-!
# The rows of a decoder

`add_decoder` inserts its rows from the last to the first, so that each ends up before those that are there. That
works when they are all inserted at the same place: at one that is given, or at that of the focus, which none of the
rows takes before the last. Without either, each row is appended behind the rows before it.

- `RowsTogether`: the rows are siblings side by side, in the order of the lanes;
- `addLanes_anchored`, `addLanes_trails`: rows that are all inserted at one place, and rows that are appended;
- `rowsTogether_iff`: when the rows are together.
-/

namespace Wave

open ItemTree Outline DisplayedItemTree Decoders

namespace WaveData

variable {w w₁ w' : WaveData} {target : Option TargetPosition} {position : TargetPosition}
  {item : DisplayedItem} {moveFocus : Bool} {k m : ℕ} {decoder : ℕ → DisplayedDecoder}

/-- The row of a lane. -/
def decoderRow (w : WaveData) (protocol : Protocol) (signals : List VariableRef) (lane : ℕ) : DisplayedDecoder :=
  { instance_ := w.nextDecoderInstance
    settings := DecoderSettings.forProtocol protocol
    bindings := RoleBindings.guess protocol signals
    lane
    displayName :=
      protocol.display ++ " " ++ (DecoderSettings.forProtocol protocol).laneNames[lane]?.getD ""
    manualName := none }

/-- The number of rows of a decoder. -/
def laneCount (protocol : Protocol) : ℕ := (DecoderSettings.forProtocol protocol).laneNames.length

/-- The rows are added side by side, as siblings of one level and in the order of the lanes, and all other items
keep their order, their levels and their parents. -/
def RowsTogether (w : WaveData) (protocol : Protocol) (signals : List VariableRef)
    (target : Option TargetPosition) : Prop :=
  ∃ w' n level, ∃ refs : List DisplayedItemRef,
    w.addDecoder protocol signals target = .ok (w.nextDecoderInstance, w') ∧
    AddsBlock w n (refs.map (level, ·))
      ((List.range (laneCount protocol)).map fun lane =>
        (level, .decoder (w.decoderRow protocol signals lane))) w' ∧
    KeepsParents w n refs.length w' ∧
    ∀ i < refs.length, ∀ j < refs.length,
      parentOf Node.level w'.itemsTree.items (n + i) = parentOf Node.level w'.itemsTree.items (n + j)

/-- A decoder is added lane by lane. -/
theorem addDecoder_eq_ok {protocol : Protocol} {signals : List VariableRef} :
    w.addDecoder protocol signals target = .ok (w.nextDecoderInstance, w') ↔
      addLanes (w.decoderRow protocol signals) target (List.range (laneCount protocol)).reverse
        { w with nextDecoderInstance := w.nextDecoderInstance + 1 } = .ok w' := by
  simp only [addDecoder, Except.bind_eq_ok]
  constructor
  · rintro ⟨w₁, hlanes, hret⟩
    cases hret
    exact hlanes
  · exact fun hlanes => ⟨w', hlanes, rfl⟩

/-! ## Rows at one place -/

/-- The next row is accepted where the last one was. -/
theorem AddsBlock.checkLocation_again {r : DisplayedItemRef}
    (h : AddsBlock w position.before [(position.level, r)] [(position.level, item)] w₁)
    (hwf : w.itemsTree.WellFormed) (hcheck : checkLocation w.itemsTree.items position = .ok ()) :
    checkLocation w₁.itemsTree.items position = .ok () := by
  obtain ⟨-, hmax, hbound, -⟩ := (checkLocation_iff hwf).1 hcheck
  refine (h.inserted.checkLocation_iff h.wellFormed (Nat.zero_le _) (l := position.level) (k := 0)).2
    ⟨hmax, ?_, ?_⟩
  · rwa [List.take_zero, List.append_nil]
  · intro x hx
    obtain rfl := Option.some.inj hx
    exact le_rfl

/-- Rows that are all inserted at one place are in order. -/
theorem addLanes_anchored (hwf : w.itemsTree.WellFormed) (hrefs : w.contents.RefsSound)
    (hplace : w.Anchored target position) (hcheck : checkLocation w.itemsTree.items position = .ok ()) (n : ℕ) :
    ∃ w', ∃ refs : List DisplayedItemRef, addLanes decoder target (List.range n).reverse w = .ok w' ∧
      AddsBlock w position.before (refs.map (position.level, ·))
        ((List.range n).map fun lane => (position.level, .decoder (decoder lane))) w' := by
  induction n generalizing w with
  | zero => exact ⟨w, [], rfl, addsBlock_nil hwf (before_le_of_checkLocation hcheck)⟩
  | succ n ih =>
    have heq := hplace.targetOrFocus_eq
    obtain ⟨w₁, hrun, hadds⟩ := addsBlock_insertItem hwf (heq.symm ▸ hcheck) (.decoder (decoder n)) (n == 0)
    rw [heq] at hadds
    rw [List.range_succ, List.reverse_append, List.reverse_singleton, List.singleton_append, addLanes]
    have hrest : ∃ w', ∃ refs : List DisplayedItemRef,
        addLanes decoder target (List.range n).reverse w₁ = .ok w' ∧
        AddsBlock w₁ position.before (refs.map (position.level, ·))
          ((List.range n).map fun lane => (position.level, .decoder (decoder lane))) w' := by
      by_cases hzero : n = 0
      · -- the first lane is the last to be inserted
        subst hzero
        have hle := hadds.inserted.length_items
        have hbefore := hadds.inserted.le
        exact ⟨w₁, [], rfl, addsBlock_nil hadds.wellFormed (by omega)⟩
      · rw [beq_false_of_ne hzero] at hrun
        have hrefs₁ : w₁.contents.RefsSound := by
          have hperm := insertItem_refs hrun
          obtain ⟨index, tree, -, -, rfl⟩ := insertItem_eq_ok hrun
          exact hrefs.add _ hperm
        have hle : ∀ r ∈ w.itemsTree.refs, r ≤ w.displayItemRefCounter :=
          fun r hr => hrefs.le_counter r ((hrefs.inStep.mem_iff r).1 hr)
        exact ih hadds.wellFormed hrefs₁ (hplace.insertItem hle hrun) (hadds.checkLocation_again hwf hcheck)
    obtain ⟨w', refs, hlanes, hadded⟩ := hrest
    refine ⟨w', refs ++ [w.displayItemRefCounter + 1], ?_, ?_⟩
    · rw [hrun]
      exact hlanes
    · have hall := hadds.prepend hadded
      simpa only [List.map_append, List.map_singleton] using hall

/-! ## Rows that are appended -/

/-- Whatever visible item the focus is on is not among the first `m`, and there are more. -/
structure Trails (m : ℕ) (w : WaveData) : Prop where
  lt : m < w.itemsTree.items.length
  focus : ∀ v idx, w.focusedItem = some v → w.itemsTree.toDisplayed v = some idx → m ≤ idx

/-- The next item is inserted behind the first one that was appended. -/
theorem Trails.lt_before (h : w.Trails m) : m < (w.targetOrFocus none).before := by
  rw [targetOrFocus, Option.none_or]
  cases hposition : w.insertPosition w.focusedItem with
  | none => exact h.lt
  | some position =>
    obtain ⟨v, idx, node, item, hv, hidx, hnode, hitem⟩ := exists_of_insertPosition hposition
    have hle := h.focus v idx hv hidx
    have hend : idx < subtreeEnd w.itemsTree.items idx := Outline.lt_subtreeEnd (lt_of_toDisplayed hidx)
    rw [hv, insertPosition_eq hidx hnode hitem] at hposition
    rw [Option.getD_some, ← Option.some.inj hposition]
    split_ifs <;> dsimp only <;> omega

theorem Trails.insertItem (h : w.Trails m) (hrun : w.insertItem item none false = .ok (k, w₁)) :
    w₁.Trails m := by
  have hbefore := h.lt_before
  obtain ⟨hinserted, -, hstays⟩ := inserted_of_insertItem hrun
  have hlen := hinserted.length_items
  have hlt := h.lt
  refine ⟨by omega, fun v idx hv hidx => ?_⟩
  rw [hstays rfl] at hv
  by_contra hless
  -- the items in front of the new one are found where they were
  have htake := @take_looks_of_insertItem _ _ _ _ _ _ hrun (idx + 1) (by omega)
  exact hless (h.focus v idx hv ((toDisplayed_congr htake).1 hidx))

/-- Rows that are appended leave the first of them where it is. -/
theorem addLanes_trails (h : w.Trails m) {n : ℕ}
    (hrun : addLanes decoder none (List.range n).reverse w = .ok w') :
    w'.itemsTree.shape.take (m + 1) = w.itemsTree.shape.take (m + 1) ∧
      ∀ r ≤ w.displayItemRefCounter, w'.displayedItems.get r = w.displayedItems.get r := by
  induction n generalizing w with
  | zero =>
    cases hrun
    exact ⟨rfl, fun _ _ => rfl⟩
  | succ n ih =>
    rw [List.range_succ, List.reverse_append, List.reverse_singleton, List.singleton_append, addLanes] at hrun
    simp only [Except.bind_eq_ok] at hrun
    obtain ⟨⟨r, w₁⟩, h₁, hrest⟩ := hrun
    have hbefore := h.lt_before
    obtain ⟨hinserted, hitems, -⟩ := inserted_of_insertItem h₁
    have hcounter : w₁.displayItemRefCounter = w.displayItemRefCounter + 1 := by
      obtain ⟨index, tree, -, -, rfl⟩ := insertItem_eq_ok h₁
      rfl
    have htake : w₁.itemsTree.shape.take (m + 1) = w.itemsTree.shape.take (m + 1) := by
      have hlen := hinserted.length_take
      rw [hinserted.shape, List.take_append_of_le_length (by omega), List.take_take, Nat.min_eq_left hbefore]
    have hkept : ∀ r ≤ w.displayItemRefCounter, w₁.displayedItems.get r = w.displayedItems.get r := by
      intro r hr
      rw [hitems, FiniteMap.get_insert, if_neg (Nat.lt_succ_of_le hr).ne]
    by_cases hzero : n = 0
    · subst hzero
      cases hrest
      exact ⟨htake, hkept⟩
    · rw [beq_false_of_ne hzero] at h₁
      obtain ⟨htake', hkept'⟩ := ih (h.insertItem h₁) hrest
      refine ⟨htake'.trans htake, fun r hr => ?_⟩
      rw [hkept' r (hr.trans (hcounter ▸ Nat.le_succ _)), hkept r hr]

/-! ## When the rows are together -/

theorem laneCount_pos (protocol : Protocol) : 0 < laneCount protocol := by
  cases protocol <;> decide

/-- The item that the first node of a block has. -/
theorem AddsBlock.head_eq {n : ℕ} {block : List (ℕ × DisplayedItemRef)} {contents : List (ℕ × DisplayedItem)}
    {x : ℕ × DisplayedItemRef} {c : ℕ × DisplayedItem} (h : AddsBlock w n (x :: block) (c :: contents) w') :
    w'.displayedItems.get x.2 = some c.2 ∧ w'.itemsTree.shape[n]? = some x ∧ w.displayItemRefCounter < x.2 := by
  have hcontents := h.contents_eq
  rw [List.map_cons, List.map_cons, List.cons.injEq, Prod.mk.injEq] at hcontents
  refine ⟨hcontents.1.2, ?_, (h.new x List.mem_cons_self).1⟩
  obtain ⟨-, hdrop⟩ := h.inserted.take_drop_shape (Nat.zero_le _)
  rw [Nat.add_zero] at hdrop
  rw [← List.head?_drop, hdrop]
  rfl

/-- Without a place the last lane stays in front of the others. -/
theorem not_rowsTogether_of_appended (hrefs : w.contents.RefsSound) {protocol : Protocol}
    {signals : List VariableRef} (hlanes : 1 < laneCount protocol) (hplace : ¬ w.HasPlace none) :
    ¬ w.RowsTogether protocol signals none := by
  rintro ⟨w', n, level, refs, hrun, hadds, -⟩
  obtain ⟨lanes, hcount⟩ : ∃ lanes, laneCount protocol = lanes + 2 := ⟨laneCount protocol - 2, by omega⟩
  rw [addDecoder_eq_ok, hcount, List.range_succ, List.reverse_append, List.reverse_singleton,
    List.singleton_append, addLanes] at hrun
  simp only [Except.bind_eq_ok] at hrun
  obtain ⟨⟨r, w₁⟩, h₁, hrest⟩ := hrun
  rw [beq_false_of_ne (Nat.succ_ne_zero lanes)] at h₁
  -- the last lane is put at the end
  have hnone : w.insertPosition w.focusedItem = none := by
    have hfocus := fun hsome => hplace ((hasPlace_iff hrefs).2 (.inr hsome))
    simpa using hfocus
  obtain ⟨hinserted, hitems, hstays⟩ := inserted_of_insertItem h₁
  have hend : WaveData.targetOrFocus { w with nextDecoderInstance := w.nextDecoderInstance + 1 } none
      = w.endInsertPosition := by
    show (Option.or none (w.insertPosition w.focusedItem)).getD w.endInsertPosition = _
    rw [hnone]
    rfl
  have hbefore := @take_looks_of_insertItem _ _ _ _ _ _ h₁
  rw [hend] at hinserted hbefore
  have htrails : w₁.Trails w.itemsTree.items.length := by
    have hlen := hinserted.length_items
    refine ⟨by rw [hlen]; exact Nat.lt_succ_self _, fun v idx hv hidx => ?_⟩
    by_contra hless
    rw [hstays rfl] at hv
    have hidx' := (toDisplayed_congr (hbefore (i := idx + 1) (by simp only [endInsertPosition]; omega))).1 hidx
    exact hplace (.inr ⟨v, hv, Option.isSome_iff_exists.2 ⟨idx, hidx'⟩⟩)
  obtain ⟨htake, hkept⟩ := addLanes_trails htrails hrest
  have hcounter : w₁.displayItemRefCounter = w.displayItemRefCounter + 1 := by
    obtain ⟨index, tree, -, -, rfl⟩ := insertItem_eq_ok h₁
    rfl
  have hshape : w'.itemsTree.shape.take (w.itemsTree.items.length + 1)
      = w.itemsTree.shape ++ [(0, w.displayItemRefCounter + 1)] := by
    rw [htake, hinserted.shape]
    have hlen := length_shape w.itemsTree
    simp [endInsertPosition, ← hlen]
  have hlast : w'.displayedItems.get (w.displayItemRefCounter + 1)
      = some (.decoder (w.decoderRow protocol signals (lanes + 1))) := by
    rw [hkept _ hcounter.ge, hitems, FiniteMap.get_insert, if_pos rfl]
  -- so the block starts with it
  have hlen := hadds.length_eq
  rw [hcount, List.range_succ_eq_map] at hadds hlen
  cases refs with
  | nil => simp at hlen
  | cons first refs =>
    rw [List.map_cons, List.map_cons] at hadds
    obtain ⟨hfirst, hget, hnew⟩ := hadds.head_eq
    have hle := hadds.inserted.le
    have hget' : (w.itemsTree.shape ++ [(0, w.displayItemRefCounter + 1)])[n]? = some (level, first) := by
      rw [← hshape, List.getElem?_take, if_pos (by omega), hget]
    rcases hle.lt_or_eq with hlt | rfl
    · -- a node that was there has an old reference
      rw [List.getElem?_append_left (by rwa [length_shape])] at hget'
      obtain ⟨node, hnode, heq⟩ := List.mem_map.1 (List.mem_of_getElem? hget')
      have hold : node.itemRef ≤ w.displayItemRefCounter :=
        hrefs.le_counter _ ((hrefs.inStep.mem_iff _).1 (List.mem_map_of_mem hnode))
      have hsame : node.itemRef = first := congrArg Prod.snd heq
      exact absurd hnew (not_lt.2 (hsame ▸ hold))
    · rw [List.getElem?_append_right (length_shape _).le, length_shape, Nat.sub_self] at hget'
      obtain rfl : w.displayItemRefCounter + 1 = first := congrArg Prod.snd (Option.some.inj hget')
      have hrow := hfirst.symm.trans hlast
      simp [decoderRow] at hrow

/-- The rows of a decoder stay together, in the order of the lanes, when the place is accepted, and there is one row
only or a place that is given or at the focus. -/
theorem rowsTogether_iff (hwf : w.itemsTree.WellFormed) (hrefs : w.contents.RefsSound) (protocol : Protocol)
    (signals : List VariableRef) (target : Option TargetPosition) :
    w.RowsTogether protocol signals target ↔
      w.Accepts target ∧ (laneCount protocol = 1 ∨ w.HasPlace target) := by
  have hpos := laneCount_pos protocol
  constructor
  · intro h
    refine ⟨?_, ?_⟩
    · -- the first row was not refused
      obtain ⟨w', n, level, refs, hrun, -⟩ := h
      obtain ⟨lanes, hcount⟩ : ∃ lanes, laneCount protocol = lanes + 1 := ⟨laneCount protocol - 1, by omega⟩
      rw [addDecoder_eq_ok, hcount, List.range_succ, List.reverse_append, List.reverse_singleton,
        List.singleton_append, addLanes] at hrun
      simp only [Except.bind_eq_ok] at hrun
      obtain ⟨r, h₁, -⟩ := hrun
      have hcheck := checkLocation_of_insertItem h₁
      exact (accepts_iff hwf hrefs).2 hcheck
    · by_contra hnot
      rw [not_or] at hnot
      cases target with
      | some position => exact hnot.2 (.inl rfl)
      | none => exact not_rowsTogether_of_appended hrefs (by omega) hnot.2 h
  · rintro ⟨haccepts, hplace⟩
    rw [accepts_iff hwf hrefs] at haccepts
    set position := w.targetOrFocus target with hposition
    have hadded : ∃ w', ∃ refs : List DisplayedItemRef,
        addLanes (w.decoderRow protocol signals) target (List.range (laneCount protocol)).reverse
          { w with nextDecoderInstance := w.nextDecoderInstance + 1 } = .ok w' ∧
        AddsBlock { w with nextDecoderInstance := w.nextDecoderInstance + 1 } position.before
          (refs.map (position.level, ·)) ((List.range (laneCount protocol)).map fun lane =>
            (position.level, .decoder (w.decoderRow protocol signals lane))) w' := by
      by_cases hgiven : w.HasPlace target
      · have hanchored : WaveData.Anchored { w with nextDecoderInstance := w.nextDecoderInstance + 1 } target
            position := by
          rw [hasPlace_iff hrefs] at hgiven
          cases target with
          | some position => exact .inl rfl
          | none =>
            obtain ⟨p, hp⟩ := Option.isSome_iff_exists.1 (hgiven.resolve_left (by simp))
            refine .inr ⟨rfl, ?_⟩
            show w.insertPosition w.focusedItem = _
            rw [hposition, targetOrFocus, hp]
            rfl
        exact addLanes_anchored (w := { w with nextDecoderInstance := w.nextDecoderInstance + 1 }) hwf
          (hrefs.congr rfl rfl rfl) hanchored haccepts _
      · -- there is one row only
        rw [hplace.resolve_right hgiven]
        obtain ⟨w', hrun, hadds⟩ := @addsBlock_insertItem
          { w with nextDecoderInstance := w.nextDecoderInstance + 1 } target hwf haccepts
          (.decoder (w.decoderRow protocol signals 0)) true
        refine ⟨w', [w.displayItemRefCounter + 1], ?_, hadds⟩
        show addLanes _ _ [0] _ = _
        simp only [addLanes, Except.bind_eq_ok]
        exact ⟨_, hrun, rfl⟩
    obtain ⟨w', refs, hlanes, hadds⟩ := hadded
    have hadds' : AddsBlock w position.before (refs.map (position.level, ·))
        ((List.range (laneCount protocol)).map fun lane =>
          (position.level, .decoder (w.decoderRow protocol signals lane))) w' :=
      ⟨hadds.inserted, hadds.contents_eq, hadds.new, hadds.nodup, hadds.kept, hadds.counter_le, hadds.inner,
        hadds.wellFormed⟩
    refine ⟨w', position.before, position.level, refs, addDecoder_eq_ok.2 hlanes, hadds', ?_,
      fun i hi j hj => hadds'.inserted.parentOf_siblings rfl hi hj⟩
    have hparents := hadds'.keepsParents hwf haccepts fun x hx => by
      obtain ⟨r, -, rfl⟩ := List.mem_map.1 hx
      exact le_rfl
    rwa [List.length_map] at hparents

/-- One variable, without a focus. -/
def oneVariable : WaveData :=
  { WaveData.loaded { hierarchy := .flat [], signals _ := none } with
    itemsTree := { items := [⟨1, 0, true, false⟩] }
    displayedItems := FiniteMap.empty.insert 1
      (.variable_ { variableRef := ⟨⟨["top"], none⟩, "clk", none, none⟩, manualName := none, format := none })
    displayItemRefCounter := 1 }

theorem refsSound_oneVariable : oneVariable.contents.RefsSound :=
  (Session.refsSound_empty (c := (WaveData.loaded { hierarchy := .flat [], signals _ := none }).contents)
    rfl rfl).add _ (.refl _)

/-- The rows of a decoder are put behind the variable that is focused. -/
theorem rowsTogether_behindFocus :
    WaveData.RowsTogether { oneVariable with focusedItem := some 0 } .spi [] none := by
  have hrefs : WaveData.contents { oneVariable with focusedItem := some 0 } = oneVariable.contents := rfl
  refine (rowsTogether_iff (w := { oneVariable with focusedItem := some 0 }) ⟨by decide, by decide⟩
    (hrefs ▸ refsSound_oneVariable) .spi [] none).2 ⟨⟨?_, ?_⟩, .inr (.inr ⟨0, rfl, by decide⟩)⟩
  · rintro ⟨v, idx, node, next, hv, hidx, hnode, -, -, -, hnext, -⟩
    obtain rfl := Option.some.inj hv
    obtain rfl : 0 = idx := Option.some.inj hidx
    cases hnext
  · rintro ⟨v, idx, node, next, hv, hidx, hnode, -, hnext, -⟩
    obtain rfl := Option.some.inj hv
    obtain rfl : 0 = idx := Option.some.inj hidx
    cases hnext

/-- Without a focus they are appended, the last lane first. -/
theorem not_rowsTogether_oneVariable :
    ¬ ∀ (w : WaveData) (protocol : Protocol) (signals : List VariableRef) (target : Option TargetPosition),
      w.itemsTree.WellFormed → w.contents.RefsSound → w.RowsTogether protocol signals target := by
  intro h
  refine not_rowsTogether_of_appended refsSound_oneVariable (by decide) ?_
    (h oneVariable .spi [] none ⟨by decide, by decide⟩ refsSound_oneVariable)
  rintro (hsome | ⟨v, hv, -⟩)
  · cases hsome
  · cases hv

end WaveData

end Wave
