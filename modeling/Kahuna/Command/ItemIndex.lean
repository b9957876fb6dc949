import Kahuna.Command.Parameters
import Kahuna.Command.Times
import Kahuna.Numerals.Grouping
import Kahuna.Panic

/-!
# Labels of items

In the command prompt an item is named by its number among those that are shown, which is written with letters
(`util.rs`), and by its own name behind an underscore (`get_parser` in `command_parser.rs`).

* `parseCommand_displayedItems`: a command with a suggestion is about the item of the suggestion, whatever its name;
* `label_lt_iff`: the labels are as long as each other, and ordered as their items are.
-/

namespace CommandParser

open Fzcmd Numerals Text

/-- The letter for a hexadecimal digit. -/
def alphaDigit (c : Char) : Char :=
  match c with
  | '0' => 'a' | '1' => 'b' | '2' => 'c' | '3' => 'd'
  | '4' => 'e' | '5' => 'f' | '6' => 'g' | '7' => 'h'
  | '8' => 'i' | '9' => 'j' | 'a' => 'k' | 'b' => 'l'
  | 'c' => 'm' | 'd' => 'n' | 'e' => 'o' | 'f' => 'p'
  | _ => '?'

/-- `uint_idx_to_alpha_idx`. There is no logarithm of zero. -/
def uintIdxToAlphaIdx (idx nvariables : ℕ) : Run (List Char) :=
  if nvariables = 0 then .error (.assertion "argument of integer logarithm must be positive")
  else .ok ((padded 16 (Nat.log 16 nvariables + 1) idx).map alphaDigit)

/-- The suggestions for an item, of the names of those that are shown. -/
def displayedItems (nvariables : ℕ) (names : List (List Char)) : Run (List (List Char)) :=
  names.zipIdx.mapM fun e => do
    let alphaIdx ← uintIdxToAlphaIdx e.2 nvariables
    return alphaIdx ++ '_' :: e.1

/-! ## Labels -/

theorem alphaDigit_spec : ∀ d < 16,
    alphaDigit d.digitChar ≠ '_' ∧ alphaDigit d.digitChar ≠ '\n' ∧ isWhitespace (alphaDigit d.digitChar) = false := by
  decide

/-- The letters of a label are mapped back to its digits. -/
theorem map_alphaDigit {f : Char → Char} (hf : ∀ d < 16, f (alphaDigit d.digitChar) = d.digitChar) {l : List Char}
    (hl : Canonical 16 l) : (l.map alphaDigit).map f = l := by
  have hself : ∀ c ∈ l, (f ∘ alphaDigit) c = id c := by
    intro c hc
    obtain ⟨d, hd, rfl⟩ := hl c hc
    exact hf d hd
  rw [List.map_map, List.map_congr_left hself, List.map_id]

/-- A label is read as the number of its item. -/
theorem alphaIdxToUintIdx_label {idx : ℕ} (width : ℕ) (hidx : idx < 2 ^ 64) :
    alphaIdxToUintIdx ((padded 16 width idx).map alphaDigit) = some idx := by
  have hcanonical := canonical_padded (b := 16) (by decide) width idx
  rw [alphaIdxToUintIdx, map_alphaDigit (by decide) hcanonical, value_padded (by decide) (by decide), if_pos]
  exact ⟨padded_ne_nil 16 width idx, hcanonical.isNumeral (by decide), hidx⟩

/-- What a label consists of. -/
theorem of_mem_label {width idx : ℕ} {c : Char} (hc : c ∈ (padded 16 width idx).map alphaDigit) :
    c ≠ '_' ∧ c ≠ '\n' ∧ isWhitespace c = false := by
  obtain ⟨digit, hdigit, rfl⟩ := List.mem_map.1 hc
  obtain ⟨d, hd, rfl⟩ := canonical_padded (by decide) width idx digit hdigit
  exact alphaDigit_spec d hd

/-! ## Commands about items -/

/-- The commands with an item, and what they do with it. -/
def itemCommands : List (List Char × (ℕ → Message)) := [
  ("item_focus".toList, fun idx => .wave (.focusItem idx)),
  ("transition_next".toList, fun idx => .moveCursorToTransition true (some idx) false),
  ("transition_previous".toList, fun idx => .moveCursorToTransition false (some idx) false),
  ("copy_value".toList, fun idx => .variableValueToClipbord (.explicit idx))]

variable {lib : Library} {s : PromptState} {command rest : List Char}

theorem commandOf_itemCommands {e : List Char × (ℕ → Message)} (he : e ∈ itemCommands) :
    commandOf lib s e.1 = singleWord fun word => (itemIdx word).bind fun idx => terminal (e.2 idx) := by
  simp only [itemCommands, List.mem_cons, List.not_mem_nil, or_false] at he
  rcases he with rfl | rfl | rfl | rfl
  · rfl
  · rfl
  · rfl
  · rfl

theorem isAsciiWord_of_itemCommands {e : List Char × (ℕ → Message)} (he : e ∈ itemCommands) :
    (∀ c ∈ e.1, isAsciiWord c = true) ∧ e.1 ≠ [] := by
  have hall : itemCommands.all (fun e => e.1.all isAsciiWord && !e.1.isEmpty) = true := rfl
  simpa using List.all_eq_true.1 hall e he

/-- The first word of a text is the command. -/
theorem parseCommand_word (hword : ∀ c ∈ command, lib.isWord c = true) (hspace : lib.isWord ' ' = false)
    (hne : command ≠ []) : parseCommand lib.isWord (command ++ ' ' :: rest) (getParser lib s)
      = parseNext lib.isWord command (untilLineEnd rest) (commandOf lib s command) := by
  have hlead : ((command ++ ' ' :: rest).takeWhile fun c => !lib.isWord c) = [] ∧
      ((command ++ ' ' :: rest).dropWhile fun c => !lib.isWord c) = command ++ ' ' :: rest := by
    cases command with
    | nil => exact absurd rfl hne
    | cons c command => simp [hword c List.mem_cons_self]
  have hsplit : splitQuery lib.isWord (command ++ ' ' :: rest) .word = ([], command, [' '], untilLineEnd rest) := by
    -- a blank is no character of a word, so the word ends in front of it
    simp only [splitQuery, separateFirstWord, splitAtClass, hlead.1, hlead.2, List.takeWhile_append_of_pos hword,
      List.dropWhile_append_of_pos hword]
    simp [hspace]
  simp only [getParser, parseCommand, hsplit, List.isEmpty_iff, hne, if_false]
  rfl

/-- A command about an item reads the label in front of the underscore, and nothing of the name behind it. -/
theorem parseNext_label {e : List Char × (ℕ → Message)} (he : e ∈ itemCommands) {width idx : ℕ}
    (hidx : idx < 2 ^ 64) (name : List Char) :
    parseNext lib.isWord e.1 (untilLineEnd ((padded 16 width idx).map alphaDigit ++ '_' :: name)) (commandOf lib s e.1)
      = .ok (e.2 idx) := by
  generalize hlabel : (padded 16 width idx).map alphaDigit = label
  have hchars : ∀ c ∈ label, c ≠ '_' ∧ c ≠ '\n' ∧ isWhitespace c = false := by
    intro c hc
    rw [← hlabel] at hc
    exact of_mem_label hc
  have hread : alphaIdxToUintIdx label = some idx := by
    rw [← hlabel]
    exact alphaIdxToUintIdx_label width hidx
  have hne : label ≠ [] := by
    rw [← hlabel, ne_eq, List.map_eq_nil_iff]
    exact padded_ne_nil 16 width idx
  have hline : untilLineEnd (label ++ '_' :: name) = label ++ '_' :: untilLineEnd name := by
    rw [untilLineEnd, List.takeWhile_append_of_pos (by simpa using fun c hc => (hchars c hc).2.1),
      List.takeWhile_cons_of_pos (by decide)]
    rfl
  have hblank : (label ++ '_' :: untilLineEnd name).dropWhile isWhitespace = label ++ '_' :: untilLineEnd name := by
    cases label with
    | nil => exact absurd rfl hne
    | cons c label => rw [List.cons_append, List.dropWhile_cons_of_neg (by simp [(hchars c List.mem_cons_self).2.2])]
  have hitem : itemIdx (label ++ '_' :: untilLineEnd name) = some idx := by
    rw [itemIdx, List.takeWhile_append_of_pos (by simpa using fun c hc => (hchars c hc).1),
      List.takeWhile_cons_of_neg (by decide), List.append_nil, hread]
  -- the command takes the rest of the line, and cuts it at the underscore
  rw [hline, commandOf_itemCommands he]
  simp only [singleWord, parseNext, parseCommand, splitQuery, hblank, hitem]
  rw [if_neg (by simp), Option.bind_some, terminal, parseNext, parseCommand]
  rfl

/-- Each item that is shown has a suggestion, and every command with the suggestion is about that item, whatever the
names of the items are. -/
theorem parseCommand_displayedItems (lib : Library) (s : PromptState) (nvariables : ℕ) (names : List (List Char))
    (hword : ∀ c, isAsciiWord c = true → lib.isWord c = true) (hspace : lib.isWord ' ' = false)
    (hlen : names.length ≤ nvariables) (hmax : nvariables < 2 ^ 64) :
    ∃ suggestions, displayedItems nvariables names = .ok suggestions ∧ suggestions.length = names.length ∧
      ∀ idx suggestion, suggestions[idx]? = some suggestion → ∀ e ∈ itemCommands,
        parseCommand lib.isWord (e.1 ++ ' ' :: suggestion) (getParser lib s) = .ok (e.2 idx) := by
  by_cases hzero : nvariables = 0
  · obtain rfl : names = [] := List.length_eq_zero_iff.1 (by omega)
    exact ⟨[], rfl, rfl, nofun⟩
  · have hitems : displayedItems nvariables names = .ok (names.zipIdx.map fun e =>
        (padded 16 (Nat.log 16 nvariables + 1) e.2).map alphaDigit ++ '_' :: e.1) := by
      simp only [displayedItems, uintIdxToAlphaIdx, if_neg hzero]
      exact List.mapM_pure
    refine ⟨_, hitems, by rw [List.length_map, List.length_zipIdx], fun idx suggestion hsuggestion e he => ?_⟩
    rw [List.getElem?_map, List.getElem?_zipIdx, Option.map_map, Option.map_eq_some_iff] at hsuggestion
    obtain ⟨name, hname, rfl⟩ := hsuggestion
    have hidx : idx < names.length := (List.getElem?_eq_some_iff.1 hname).1
    obtain ⟨hascii, hne⟩ := isAsciiWord_of_itemCommands he
    rw [parseCommand_word (fun c hc => hword c (hascii c hc)) hspace hne]
    simp only [Function.comp_apply, Nat.zero_add]
    exact parseNext_label he (by omega) name

/-- A prompt before a file is open. -/
def emptyPrompt : PromptState where
  waves := none
  menu := (none, true)
  hierarchy := (none, true)
  ticks := (none, false)
  keepDuringReload := false
  stateFile := none

theorem parseCommand_displayedItems_twoNames : ∃ suggestions,
    displayedItems 17 ["clk".toList, "a b_c\n".toList] = .ok suggestions ∧ suggestions.length = 2 ∧
      ∀ idx suggestion, suggestions[idx]? = some suggestion → ∀ e ∈ itemCommands,
        parseCommand asciiDigits.isWord (e.1 ++ ' ' :: suggestion) (getParser asciiDigits emptyPrompt)
          = .ok (e.2 idx) :=
  parseCommand_displayedItems asciiDigits emptyPrompt 17 ["clk".toList, "a b_c\n".toList]
    (fun c hc => by simpa [isAsciiWord, asciiDigits] using hc) (by decide) (by decide) (by decide)

example : displayedItems 17 ["clk".toList, "a b_c".toList] = .ok ["aa_clk".toList, "ab_a b_c".toList] := by
  decide +kernel

/-! ## The order of labels -/

theorem alphaDigit_lt_iff : ∀ d < 16, ∀ e < 16, alphaDigit d.digitChar < alphaDigit e.digitChar ↔ d < e := by
  decide

/-- Texts of digits that are as long as each other are ordered as their numbers are. -/
theorem map_alphaDigit_lt_iff {l m : List Char} (hl : Canonical 16 l) (hm : Canonical 16 m)
    (hlength : l.length = m.length) : l.map alphaDigit < m.map alphaDigit ↔ value 16 l < value 16 m := by
  induction l generalizing m with
  | nil =>
    obtain rfl : m = [] := List.length_eq_zero_iff.1 hlength.symm
    simp
  | cons c l ih =>
    cases m with
    | nil => cases hlength
    | cons c' m =>
      obtain ⟨d, hd, rfl⟩ := hl c List.mem_cons_self
      obtain ⟨e, he, rfl⟩ := hm c' List.mem_cons_self
      have hlength' : l.length = m.length := Nat.succ.inj hlength
      have hih := ih (fun c hc => hl c (List.mem_cons_of_mem _ hc)) (fun c hc => hm c (List.mem_cons_of_mem _ hc))
        hlength'
      have hvl := value_lt (b := 16) (by decide) l
      have hvm := value_lt (b := 16) (by decide) m
      rw [List.map_cons, List.map_cons, List.cons_lt_cons_iff, alphaDigit_lt_iff d hd e he, hih, value_cons, value_cons,
        digit?_digitChar (by decide) hd, digit?_digitChar (by decide) he, Option.getD_some, Option.getD_some]
      rw [hlength'] at hvl ⊢
      rcases Nat.lt_trichotomy d e with hlt | rfl | hgt
      · -- the first digits decide
        have hmul : (d + 1) * 16 ^ m.length ≤ e * 16 ^ m.length := Nat.mul_le_mul_right _ hlt
        rw [Nat.succ_mul] at hmul
        exact iff_of_true (Or.inl hlt) (by omega)
      · simp
      · -- the same the other way round
        have hmul : (e + 1) * 16 ^ m.length ≤ d * 16 ^ m.length := Nat.mul_le_mul_right _ hgt
        rw [Nat.succ_mul] at hmul
        refine iff_of_false ?_ (by omega)
        rintro (hlt | ⟨heq, -⟩)
        · omega
        · have hsame := (alphaDigit_lt_iff e he d hd).2 hgt
          rw [heq] at hsame
          exact absurd hsame (Char.lt_irrefl _)

/-- The labels of the items are as long as each other, and in the order of the items. -/
theorem label_lt_iff (nvariables idx idx' : ℕ) (label label' : List Char) (hidx : idx < nvariables)
    (hidx' : idx' < nvariables) (h : uintIdxToAlphaIdx idx nvariables = .ok label)
    (h' : uintIdxToAlphaIdx idx' nvariables = .ok label') :
    label.length = label'.length ∧ (label < label' ↔ idx < idx') := by
  have hne : nvariables ≠ 0 := by omega
  have hpow : nvariables < 16 ^ (Nat.log 16 nvariables + 1) := Nat.lt_pow_succ_log_self (by decide) _
  rw [uintIdxToAlphaIdx, if_neg hne] at h h'
  obtain rfl := Except.ok.inj h
  obtain rfl := Except.ok.inj h'
  have hlength := length_padded (b := 16) (by decide) (Nat.succ_pos _) (hidx.trans hpow)
  have hlength' := length_padded (b := 16) (by decide) (Nat.succ_pos _) (hidx'.trans hpow)
  refine ⟨by rw [List.length_map, List.length_map, hlength, hlength'], ?_⟩
  rw [map_alphaDigit_lt_iff (canonical_padded (by decide) _ _) (canonical_padded (by decide) _ _)
    (hlength.trans hlength'.symm), value_padded (by decide) (by decide), value_padded (by decide) (by decide)]

theorem label_lt_iff_seventeen :
    "aj".toList.length = "ba".toList.length ∧ ("aj".toList < "ba".toList ↔ 9 < 16) :=
  label_lt_iff 17 9 16 "aj".toList "ba".toList (by decide) (by decide) (by decide +kernel) (by decide +kernel)

end CommandParser
