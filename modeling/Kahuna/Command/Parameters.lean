import Kahuna.Command.Parser

/-!
# What commands drop

What stands between the parameters of a command that is accepted. A word is cut out of what is no part of a word, so
that it may have other characters than white space around it.

* `splitQuery_spec`: the pieces of a split, and what they consist of;
* `parseCommand_joined`: the text of a command consists of its parameters and of what may stand around them.
-/

namespace Fzcmd

open Text
open CommandParser (separateAtSpace)

/-! ## Commands -/

/-- The ways to take a parameter: those of `ParamGreed`, with the one splitter that there is. -/
def ParamGreed.Known (greed : ParamGreed) : Prop :=
  greed = .word ∨ greed = .optionalWord ∨ greed = .toComma ∨ greed = .rest ∨ greed = .custom separateAtSpace

/-- A command whose parameters are all taken in one of the known ways. -/
inductive Regular {T : Type} : Command T → Prop
  | terminal (val : T) : Regular (.terminal val)
  | nonTerminal {greed : ParamGreed} {parsingFunction : List Char → RestQuery → Option (Command T)} :
    greed.Known → (∀ param rest next, parsingFunction param rest = some next → Regular next) →
    Regular (.nonTerminal greed parsingFunction)

section

variable (isWord : Char → Bool)

mutual

/-- The parameters that `parse_command` hands to the parsing functions. -/
def handed {T : Type} (query : List Char) : Command T → List (ParamGreed × List Char)
  | .terminal _ => []
  | .nonTerminal greed parsingFunction =>
    let (_, param, _, rest) := splitQuery isWord query greed
    if param.isEmpty then []
    else (greed, param) :: handedNext rest (parsingFunction param (.ofText rest))
termination_by structural command => command

/-- The parameters of the command that a parameter has led to. -/
def handedNext {T : Type} (rest : List Char) : Option (Command T) → List (ParamGreed × List Char)
  | some nextCommand => handed rest nextCommand
  | none => []
termination_by structural command => command

end

/-- The characters that are dropped in front of a parameter. -/
def ParamGreed.dropsBefore : ParamGreed → Char → Bool
  | .word, c | .optionalWord, c | .toComma, c => !isWord c
  | .rest, c | .custom _, c => isWhitespace c

/-- The characters that are dropped behind a parameter. -/
def ParamGreed.dropsBehind : ParamGreed → Char → Bool
  | .word, c | .optionalWord, c => !isWord c
  | .toComma, c => c = ','
  | .rest, _ => false
  | .custom _, c => isWhitespace c

end

/-- White space, and commas around a parameter that goes to the next comma. -/
def ParamGreed.separates : ParamGreed → Char → Bool
  | .toComma, c => isWhitespace c || c = ','
  | _, c => isWhitespace c

/-- A text that consists of parameters, with other characters before and behind them. An optional word may be missing
where nothing but white space is left. -/
inductive Joined (before behind : ParamGreed → Char → Bool) : List (ParamGreed × List Char) → List Char → Prop
  | nil : Joined before behind [] []
  | cons {greed : ParamGreed} {lead param delim rest : List Char} {params : List (ParamGreed × List Char)} :
    (∀ c ∈ lead, before greed c = true) → (∀ c ∈ delim, behind greed c = true) → Joined before behind params rest →
    Joined before behind ((greed, param) :: params) (lead ++ param ++ delim ++ rest)
  | missing {blank : List Char} {params : List (ParamGreed × List Char)} :
    Blank blank → Joined before behind params [] → Joined before behind ((.optionalWord, [' ']) :: params) blank

/-! ## Splits -/

variable {isWord inParameter : Char → Bool} {query lead param delim rest : List Char} {greed : ParamGreed}

theorem untilLineEnd_of_notMem {l : List Char} (h : '\n' ∉ l) : untilLineEnd l = l := by
  rw [untilLineEnd, List.takeWhile_eq_self_iff]
  intro c hc
  exact decide_eq_true (ne_of_mem_of_not_mem hc h)

theorem not_mem_take_one_dropWhile (inParameter : Char → Bool) (l : List Char) :
    ∀ c ∈ (l.dropWhile inParameter).take 1, inParameter c = false := by
  intro c hc
  have hnot := List.head?_dropWhile_not inParameter l
  cases hdrop : l.dropWhile inParameter with
  | nil =>
    rw [hdrop] at hc
    cases hc
  | cons d rest =>
    rw [hdrop] at hnot hc
    rw [List.take_succ_cons, List.take_zero, List.mem_singleton] at hc
    rw [hc]
    simpa using hnot

/-- The pieces of a text that is split behind what is skipped and at the end of a class of characters. -/
theorem pieces_append {skipped inParameter : Char → Bool} (hline : '\n' ∉ query) :
    query.takeWhile skipped ++ (query.dropWhile skipped).takeWhile inParameter ++
        ((query.dropWhile skipped).dropWhile inParameter).take 1 ++
        untilLineEnd (((query.dropWhile skipped).dropWhile inParameter).drop 1) = query := by
  have hrest : '\n' ∉ ((query.dropWhile skipped).dropWhile inParameter).drop 1 := fun h =>
    hline ((List.dropWhile_suffix _).subset ((List.dropWhile_suffix _).subset (List.mem_of_mem_drop h)))
  rw [untilLineEnd_of_notMem hrest, List.append_assoc, List.append_assoc, List.take_append_drop,
    List.takeWhile_append_dropWhile, List.takeWhile_append_dropWhile]

/-- A split at a class of characters: what stands before the parameter, the parameter, and what is behind it. -/
theorem splitAtClass_eq (hline : '\n' ∉ query) (hsplit : splitAtClass inParameter query = (lead, param, delim, rest)) :
    ∃ tail, query = lead ++ param ++ tail ∧ delim = tail.take 1 ∧ rest = tail.drop 1 ∧
      (∀ c ∈ lead, inParameter c = false) ∧ (∀ c ∈ param, inParameter c = true) ∧
      ∀ c, tail.head? = some c → inParameter c = false := by
  simp only [splitAtClass, Prod.mk.injEq] at hsplit
  obtain ⟨rfl, rfl, rfl, rfl⟩ := hsplit
  refine ⟨(query.dropWhile fun c => !inParameter c).dropWhile inParameter, ?_, rfl, ?_, fun c hc => ?_, fun c hc =>
    List.mem_takeWhile_imp hc, fun c hc => ?_⟩
  · rw [List.append_assoc, List.takeWhile_append_dropWhile, List.takeWhile_append_dropWhile]
  · refine untilLineEnd_of_notMem fun h => hline ?_
    exact (List.dropWhile_suffix _).subset ((List.dropWhile_suffix _).subset (List.mem_of_mem_drop h))
  · simpa using List.mem_takeWhile_imp hc
  · have hnot := List.head?_dropWhile_not inParameter (query.dropWhile fun c => !inParameter c)
    rw [hc] at hnot
    simpa using hnot

theorem splitAtClass_spec (hline : '\n' ∉ query) (hsplit : splitAtClass inParameter query = (lead, param, delim, rest)) :
    query = lead ++ param ++ delim ++ rest ∧ (∀ c ∈ lead, inParameter c = false) ∧ ∀ c ∈ delim, inParameter c = false := by
  obtain ⟨tail, happend, rfl, rfl, hlead, -, htail⟩ := splitAtClass_eq hline hsplit
  refine ⟨by rw [List.append_assoc, List.take_append_drop, happend], hlead, fun c hc => htail c ?_⟩
  cases tail with
  | nil => cases hc
  | cons d tail =>
    rw [List.take_succ_cons, List.take_zero, List.mem_singleton] at hc
    rw [hc, List.head?_cons]

/-- A parameter is cut out of the text around it. -/
theorem splitAtClass_append {tail : List Char} (hlead : ∀ c ∈ lead, inParameter c = false)
    (hparam : ∀ c ∈ param, inParameter c = true) (hne : param ≠ []) (htail : ∀ c, tail.head? = some c → inParameter c = false)
    (hline : '\n' ∉ tail) : splitAtClass inParameter (lead ++ param ++ tail) = (lead, param, tail.take 1, tail.drop 1) := by
  have hskipped : ∀ c ∈ lead, (!inParameter c) = true := by simpa using hlead
  have hstop : ((param ++ tail).takeWhile fun c => !inParameter c) = [] ∧
      ((param ++ tail).dropWhile fun c => !inParameter c) = param ++ tail := by
    cases param with
    | nil => exact absurd rfl hne
    | cons c param => simp [hparam c List.mem_cons_self]
  have hend : tail.takeWhile inParameter = [] ∧ tail.dropWhile inParameter = tail := by
    cases tail with
    | nil => exact ⟨rfl, rfl⟩
    | cons c tail => simp [htail c rfl]
  have hrest : untilLineEnd (tail.drop 1) = tail.drop 1 :=
    untilLineEnd_of_notMem fun h => hline (List.mem_of_mem_drop h)
  rw [List.append_assoc]
  simp only [splitAtClass, List.takeWhile_append_of_pos hskipped, List.dropWhile_append_of_pos hskipped, hstop.1, hstop.2,
    List.takeWhile_append_of_pos hparam, List.dropWhile_append_of_pos hparam, hend.1, hend.2, hrest, List.append_nil]

theorem separateUntilComma_spec (hline : '\n' ∉ query)
    (hsplit : separateUntilComma isWord query = (lead, param, delim, rest)) :
    query = lead ++ param ++ delim ++ rest ∧ (∀ c ∈ lead, isWord c = false) ∧ ∀ c ∈ delim, c = ',' := by
  simp only [separateUntilComma, Prod.mk.injEq] at hsplit
  obtain ⟨rfl, rfl, rfl, rfl⟩ := hsplit
  refine ⟨(pieces_append hline).symm, fun c hc => ?_, fun c hc => ?_⟩
  · simpa using List.mem_takeWhile_imp hc
  · simpa using not_mem_take_one_dropWhile _ _ c hc

/-- A split gives back the text, where no optional word is missing. -/
theorem splitQuery_spec (hgreed : greed.Known) (hline : '\n' ∉ query)
    (hsplit : splitQuery isWord query greed = (lead, param, delim, rest)) :
    (∃ before, query = before ++ param ++ delim ++ rest ∧ (∀ c ∈ before, greed.dropsBefore isWord c = true) ∧
        ∀ c ∈ delim, greed.dropsBehind isWord c = true) ∨
      (greed = .optionalWord ∧ param = [' '] ∧ rest = [] ∧ Blank query) := by
  rcases hgreed with rfl | rfl | rfl | rfl | rfl
  · obtain ⟨happend, hlead, hdelim⟩ := splitAtClass_spec hline hsplit
    exact .inl ⟨lead, happend, by simpa [ParamGreed.dropsBefore] using hlead,
      by simpa [ParamGreed.dropsBehind] using hdelim⟩
  · rw [splitQuery, separateOptionalWord] at hsplit
    split at hsplit
    next hblank =>
      simp only [Prod.mk.injEq] at hsplit
      exact .inr ⟨rfl, hsplit.2.1.symm, hsplit.2.2.2.symm, List.all_eq_true.1 hblank⟩
    next =>
      obtain ⟨happend, hlead, hdelim⟩ := splitAtClass_spec hline hsplit
      exact .inl ⟨lead, happend, by simpa [ParamGreed.dropsBefore] using hlead,
        by simpa [ParamGreed.dropsBehind] using hdelim⟩
  · obtain ⟨happend, hlead, hdelim⟩ := separateUntilComma_spec hline hsplit
    exact .inl ⟨lead, happend, by simpa [ParamGreed.dropsBefore] using hlead,
      by simpa [ParamGreed.dropsBehind] using hdelim⟩
  · simp only [splitQuery, Prod.mk.injEq] at hsplit
    obtain ⟨-, rfl, rfl, rfl⟩ := hsplit
    refine .inl ⟨query.takeWhile isWhitespace, ?_, fun c hc => List.mem_takeWhile_imp hc, by simp⟩
    rw [List.append_nil, List.append_nil, List.takeWhile_append_dropWhile]
  · obtain ⟨happend, hlead, hdelim⟩ := splitAtClass_spec hline hsplit
    exact .inl ⟨lead, happend, by simpa [ParamGreed.dropsBefore] using hlead,
      by simpa [ParamGreed.dropsBehind] using hdelim⟩

/-! ## Commands that are accepted -/

/-- The text of a command that is accepted consists of its parameters and of what may stand around them. -/
theorem parseCommand_joined {T : Type} {command : Command T} {val : T} (hcommand : Regular command)
    (hline : '\n' ∉ query) (hparse : parseCommand isWord query command = .ok val) :
    Joined (ParamGreed.dropsBefore isWord) (ParamGreed.dropsBehind isWord) (handed isWord query command) query := by
  induction hcommand generalizing query with
  | terminal val' =>
    rw [parseCommand] at hparse
    split at hparse
    next hempty =>
      rw [List.isEmpty_iff.1 hempty]
      exact .nil
    next => cases hparse
  | nonTerminal hgreed _ ih =>
    rename_i greed parsingFunction hnext
    obtain ⟨⟨lead, param, delim, rest⟩, hsplit⟩ : ∃ split, splitQuery isWord query greed = split := ⟨_, rfl⟩
    simp only [parseCommand, hsplit] at hparse
    split at hparse
    · cases hparse
    next hparam =>
      cases hfunction : parsingFunction param (.ofText rest) with
      | none =>
        rw [hfunction] at hparse
        cases hparse
      | some next =>
        rw [hfunction, parseNext] at hparse
        have hhanded : handed isWord query (.nonTerminal greed parsingFunction) =
            (greed, param) :: handed isWord rest next := by
          simp only [handed, hsplit, hparam, hfunction, handedNext, Bool.false_eq_true, if_false]
        rw [hhanded]
        rcases splitQuery_spec hgreed hline hsplit with ⟨before, happend, hbefore, hbehind⟩ | ⟨rfl, rfl, rfl, hblank⟩
        · have hrest : '\n' ∉ rest := fun h => hline (happend ▸ List.mem_append_right _ h)
          conv => rhs; rw [happend]
          exact .cons hbefore hbehind (ih param _ next hfunction hrest hparse)
        · exact .missing hblank (ih _ _ next hfunction (by simp) hparse)

/-- What `\w` does not match. -/
structure WordClass (isWord : Char → Bool) : Prop where
  blank : ∀ c, isWhitespace c = true → isWord c = false
  comma : isWord ',' = false

theorem WordClass.dropsBefore (h : WordClass isWord) {c : Char} (hc : greed.dropsBefore isWord c = true) :
    isWord c = false := by
  cases greed with
  | word | optionalWord | toComma => simpa [ParamGreed.dropsBefore] using hc
  | rest | custom => exact h.blank c hc

theorem WordClass.dropsBehind (h : WordClass isWord) {c : Char} (hc : greed.dropsBehind isWord c = true) :
    isWord c = false := by
  cases greed with
  | word | optionalWord => simpa [ParamGreed.dropsBehind] using hc
  | toComma =>
    obtain rfl : c = ',' := by simpa [ParamGreed.dropsBehind] using hc
    exact h.comma
  | rest => cases hc
  | custom => exact h.blank c hc

/-- A character of a text is in a parameter, or may stand beside one. -/
theorem Joined.mem {before behind : ParamGreed → Char → Bool} {params : List (ParamGreed × List Char)}
    (h : Joined before behind params query) {c : Char} (hc : c ∈ query) : (∃ e ∈ params, c ∈ e.2) ∨
      (∃ greed, before greed c = true ∨ behind greed c = true) ∨ isWhitespace c = true := by
  induction h with
  | nil => cases hc
  | cons hlead hdelim _ ih =>
    rename_i greed lead param delim rest params _
    simp only [List.mem_append] at hc
    rcases hc with ((hc | hc) | hc) | hc
    · exact .inr (.inl ⟨greed, .inl (hlead c hc)⟩)
    · exact .inl ⟨_, List.mem_cons_self, hc⟩
    · exact .inr (.inl ⟨greed, .inr (hdelim c hc)⟩)
    · exact (ih hc).imp_left fun ⟨e, he, hmem⟩ => ⟨e, List.mem_cons_of_mem _ he, hmem⟩
  | missing hblank _ _ => exact .inr (.inr (hblank c hc))

/-- The characters of words are all in the parameters, in their order. -/
theorem Joined.filter_isWord (hword : WordClass isWord) {params : List (ParamGreed × List Char)}
    (h : Joined (ParamGreed.dropsBefore isWord) (ParamGreed.dropsBehind isWord) params query) :
    query.filter isWord = (params.flatMap Prod.snd).filter isWord := by
  have hnone {l : List Char} (hl : ∀ c ∈ l, isWord c = false) : l.filter isWord = [] := by
    rw [List.filter_eq_nil_iff]
    intro c hc
    rw [hl c hc]
    exact Bool.false_ne_true
  induction h with
  | nil => rfl
  | cons hlead hdelim _ ih =>
    rw [List.filter_append, List.filter_append, List.filter_append, hnone fun c hc => hword.dropsBefore (hlead c hc),
      hnone fun c hc => hword.dropsBehind (hdelim c hc), ih, List.flatMap_cons, List.filter_append, List.nil_append,
      List.append_nil]
  | missing hblank _ ih =>
    have hspace : isWord ' ' = false := hword.blank ' ' (by decide)
    rw [hnone fun c hc => hword.blank c (hblank c hc), List.flatMap_cons, List.filter_append, ← ih,
      hnone (by simpa using hspace)]
    rfl

/-- A command that is accepted consists of its parameters, with characters that are no part of a word around words and
in front of what goes to a comma, commas behind that, and white space around the others. No character of a word is
dropped. -/
theorem parseCommand_drops (isWord : Char → Bool) (hword : WordClass isWord) {T : Type} (command : Command T)
    (query : List Char) (val : T) (hcommand : Regular command) (hline : '\n' ∉ query)
    (hparse : parseCommand isWord query command = .ok val) :
    Joined (ParamGreed.dropsBefore isWord) (ParamGreed.dropsBehind isWord) (handed isWord query command) query ∧
      query.filter isWord = ((handed isWord query command).flatMap Prod.snd).filter isWord := by
  have hjoined := parseCommand_joined hcommand hline hparse
  exact ⟨hjoined, hjoined.filter_isWord hword⟩

/-- The characters of words in ASCII. -/
def isAsciiWord (c : Char) : Bool := c.isAlphanum || c = '_'

theorem toNat_of_isAsciiWord {c : Char} (h : isAsciiWord c = true) : 48 ≤ c.toNat ∧ c.toNat ≤ 122 := by
  have between : ∀ {lo hi : UInt32}, lo ≤ c.val → c.val ≤ hi → 48 ≤ lo.toNat → hi.toNat ≤ 122 →
      48 ≤ c.toNat ∧ c.toNat ≤ 122 := fun hlo hhi h48 h122 =>
    ⟨h48.trans (UInt32.le_iff_toNat_le.1 hlo), (UInt32.le_iff_toNat_le.1 hhi).trans h122⟩
  rcases Bool.or_eq_true_iff.1 h with halphanum | hunderscore
  · rcases Bool.or_eq_true_iff.1 halphanum with halpha | hdigit
    · rcases Bool.or_eq_true_iff.1 halpha with hupper | hlower
      · obtain ⟨hlo, hhi⟩ := of_decide_eq_true hupper
        exact between hlo hhi (by decide) (by decide)
      · obtain ⟨hlo, hhi⟩ := Bool.and_eq_true_iff.1 hlower
        exact between (of_decide_eq_true hlo) (of_decide_eq_true hhi) (by decide) (by decide)
    · obtain ⟨hlo, hhi⟩ := Bool.and_eq_true_iff.1 hdigit
      exact between (of_decide_eq_true hlo) (of_decide_eq_true hhi) (by decide) (by decide)
  · rw [of_decide_eq_true hunderscore]
    decide

theorem wordClass_isAsciiWord : WordClass isAsciiWord where
  blank c hc := by
    by_contra hword
    -- white space stands below the digits, or above the letters
    have := toNat_of_isAsciiWord (Bool.not_eq_false _ ▸ hword)
    simp only [isWhitespace, decide_eq_true_eq, List.mem_cons, List.not_mem_nil, or_false] at hc
    omega
  comma := by decide

/-- A name without white space, and a number behind it. -/
def nameAndNumber : Command ℤ :=
  .nonTerminal (.custom separateAtSpace) fun _ _ => some (.nonTerminal .word fun number _ =>
    (CommandParser.parseBigInt number).map .terminal)

theorem regular_nameAndNumber : Regular nameAndNumber := by
  refine .nonTerminal (by simp [ParamGreed.Known]) fun _ _ next hnext => ?_
  obtain rfl := Option.some.inj hnext
  refine .nonTerminal (.inl rfl) fun _ _ next hnext => ?_
  obtain ⟨val, -, rfl⟩ := Option.map_eq_some_iff.1 hnext
  exact .terminal val

/-- A word and white space in front of it. -/
theorem parseCommand_drops_blank : Joined (ParamGreed.dropsBefore isAsciiWord) (ParamGreed.dropsBehind isAsciiWord)
    (handed isAsciiWord "x 5".toList nameAndNumber) "x 5".toList :=
  (parseCommand_drops isAsciiWord wordClass_isAsciiWord nameAndNumber "x 5".toList 5 regular_nameAndNumber
    (by decide) (by rfl)).1

/-- The sign of a number is dropped where the number is taken as a word. -/
theorem parseCommand_drops_sign : ¬ ∀ isWord : Char → Bool, WordClass isWord → ∀ (T : Type) (command : Command T)
    (query : List Char) (val : T), Regular command → '\n' ∉ query → parseCommand isWord query command = .ok val →
    Joined ParamGreed.separates ParamGreed.separates (handed isWord query command) query := by
  intro h
  have hjoined := h isAsciiWord wordClass_isAsciiWord ℤ nameAndNumber "x -5".toList 5 regular_nameAndNumber (by decide)
    (by rfl)
  rcases hjoined.mem (by decide : '-' ∈ "x -5".toList) with ⟨e, he, hmem⟩ | ⟨greed, hgreed⟩ | hblank
  · have hhanded : handed isAsciiWord "x -5".toList nameAndNumber =
        [(.custom separateAtSpace, ['x']), (.word, ['5'])] := rfl
    rw [hhanded] at he
    rcases List.mem_pair.1 he with rfl | rfl
    · exact absurd hmem (by decide)
    · exact absurd hmem (by decide)
  · have hnot : greed.separates '-' = false := by
      cases greed <;> rfl
    rw [hnot] at hgreed
    simp at hgreed
  · exact absurd hblank (by decide)

end Fzcmd
