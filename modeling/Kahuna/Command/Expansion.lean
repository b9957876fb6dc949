import Kahuna.Command.Parameters
import Mathlib.Data.List.Sort

/-!
# The expansion of a command

The model of the part of `fzcmd.rs` that expands commands. A parameter is replaced by the suggestion that matches it
best, and what is typed behind it goes to the command that the suggestion leads to. The matcher is a parameter.

* `head?_fuzzyMatch`: a parameter that is a suggestion matches itself best;
* `expandCommand_eq`: how a command is expanded whose parameters are suggestions;
* `expandCommand_keeps`: such a command is parsed alike when it is expanded, and is not expanded further.
-/

namespace Fzcmd

open Text
open CommandParser (separateAtSpace)

/-! ## Suggestions -/

/-- `Command`, with its suggestions. -/
inductive SuggestingCommand (T : Type) where
  | terminal (val : T)
  | nonTerminal (greed : ParamGreed) (suggestions : List (List Char))
    (parsingFunction : List Char → RestQuery → Option (SuggestingCommand T))

namespace SuggestingCommand

variable {T : Type}

mutual

/-- The command as it is parsed. -/
def toCommand : SuggestingCommand T → Command T
  | .terminal val => .terminal val
  | .nonTerminal greed _ parsingFunction => .nonTerminal greed fun param rest => toNext (parsingFunction param rest)
termination_by structural command => command

/-- The command that a parameter has led to, as it is parsed. -/
def toNext : Option (SuggestingCommand T) → Option (Command T)
  | some next => some next.toCommand
  | none => none
termination_by structural next => next

end

/-- Whether a command is finished. -/
def isTerminal : SuggestingCommand T → Bool
  | .terminal _ => true
  | .nonTerminal _ _ _ => false

end SuggestingCommand

/-- `SkimMatcherV2::fuzzy_indices`: the score of a line for a query, and the characters of the line that match. -/
abbrev Matcher := List Char → List Char → Option (ℤ × List ℕ)

/-- The number of bytes of a text. -/
def utf8Length (l : List Char) : ℕ := (l.map Char.utf8Size).sum

/-- No byte of a text matches. -/
def noMatches (l : List Char) : List Bool := List.replicate (utf8Length l) false

/-- `fuzzy_score`. -/
def fuzzyScore (fuzzyIndices : Matcher) (line query : List Char) : ℤ × List Bool :=
  let (score, indices) := (fuzzyIndices line query).getD (0, [])
  (score, indices.foldl (fun found i => found.set i true) (noMatches line))

/-- Higher scores come first, and shorter options of those with the same score. -/
def scoreLe (a b : List Char × ℤ × List Bool) : Bool :=
  b.2.1 < a.2.1 ∨ (a.2.1 = b.2.1 ∧ utf8Length a.1 ≤ utf8Length b.1)

/-- `fuzzy_match`. -/
def fuzzyMatch (fuzzyIndices : Matcher) (alternatives : List (List Char)) (query : List Char) :
    List (List Char × List Bool) :=
  let withScores := alternatives.map fun option => (option, fuzzyScore fuzzyIndices option query)
  (withScores.mergeSort scoreLe).map fun e => (e.1, e.2.2)

/-! ## Expansion -/

/-- `FuzzyError`. -/
inductive FuzzyError where
  | reachedTerminal
  | malformedCommand (suggestions : List (List Char)) (query : List Char)
  | noMoreInput
  deriving DecidableEq

/-- `FuzzyOutput`. -/
structure FuzzyOutput where
  expanded : List Char
  suggestions : Except FuzzyError (List (List Char × List Bool))

/-- The fuzzy expander has run out of input. -/
def FuzzyOutput.isNoMoreInput (output : FuzzyOutput) : Bool :=
  match output.suggestions with
  | .error .noMoreInput => true
  | _ => false

/-- All suggestions, none of which match anything. -/
def allSuggestions (suggestions : List (List Char)) : List (List Char × List Bool) :=
  suggestions.map fun s => (s, noMatches s)

section

variable (isWord : Char → Bool) (fuzzyIndices : Matcher) {T : Type}

mutual

/-- `handle_non_terminal_fuzz`. -/
def handleNonTerminalFuzz (previousQuery query : List Char) : SuggestingCommand T → FuzzyOutput
  | .terminal _ => { expanded := previousQuery, suggestions := .error .reachedTerminal }
  | .nonTerminal greed suggestions parser =>
    let (leadingWhitespace, currentSection, delim, rest) := splitQuery isWord query greed
    if leadingWhitespace.isEmpty && currentSection.isEmpty then
      { expanded := previousQuery
        suggestions :=
          if previousQuery.getLast?.any isWhitespace then .ok (allSuggestions suggestions)
          else .error .noMoreInput }
    else
      let expandedCommands := fuzzyMatch fuzzyIndices suggestions currentSection
      let expansion := (expandedCommands.head?.map Prod.fst).getD currentSection
      let fullQuery := previousQuery ++ expansion ++ delim
      expandNext { expanded := fullQuery, suggestions := .ok expandedCommands }
        { expanded := previousQuery, suggestions := .error (.malformedCommand suggestions query) }
        (delim ++ rest) (parser expansion (.ofText (delim ++ rest)))
termination_by structural command => command

/-- What follows when a parameter is expanded, or was not a valid one. -/
def expandNext (expanded malformed : FuzzyOutput) (restQuery : List Char) : Option (SuggestingCommand T) → FuzzyOutput
  | none => malformed
  | some next =>
    if next.isTerminal then expanded
    else
      let nextResult := handleNonTerminalFuzz expanded.expanded restQuery next
      -- if there is nothing to expand, the suggestions are those for this parameter
      if nextResult.isNoMoreInput then expanded else nextResult
termination_by structural next => next

end

/-- `expand_command`. -/
def expandCommand (query : List Char) (command : SuggestingCommand T) : FuzzyOutput :=
  match command with
  | .terminal _ => { expanded := [], suggestions := .error .reachedTerminal }
  | .nonTerminal _ suggestions _ =>
    let fuzzResult := handleNonTerminalFuzz isWord fuzzyIndices [] query command
    if fuzzResult.isNoMoreInput then
      { expanded := fuzzResult.expanded, suggestions := .ok (allSuggestions suggestions) }
    else fuzzResult

end

/-! ## The best match -/

/-- A line scores best for itself: above all others that are no longer, and no less than the longer ones. -/
structure PrefersEqual (fuzzyIndices : Matcher) : Prop where
  shorter : ∀ s o, o ≠ s → utf8Length o ≤ utf8Length s → (fuzzyScore fuzzyIndices o s).1 < (fuzzyScore fuzzyIndices s s).1
  longer : ∀ s o, utf8Length s < utf8Length o → (fuzzyScore fuzzyIndices o s).1 ≤ (fuzzyScore fuzzyIndices s s).1

variable {isWord : Char → Bool} {fuzzyIndices : Matcher} {T : Type}

theorem scoreLe_trans (a b c : List Char × ℤ × List Bool) (hab : scoreLe a b = true) (hbc : scoreLe b c = true) :
    scoreLe a c = true := by
  simp only [scoreLe, decide_eq_true_eq] at *
  omega

theorem scoreLe_total (a b : List Char × ℤ × List Bool) : (scoreLe a b || scoreLe b a) = true := by
  simp only [scoreLe, Bool.or_eq_true, decide_eq_true_eq]
  omega

/-- A parameter that is a suggestion matches itself best. -/
theorem head?_fuzzyMatch (hprefers : PrefersEqual fuzzyIndices) {alternatives : List (List Char)} {s : List Char}
    (hs : s ∈ alternatives) : (fuzzyMatch fuzzyIndices alternatives s).head?.map Prod.fst = some s := by
  have hsorted := List.pairwise_mergeSort scoreLe_trans scoreLe_total
    (alternatives.map fun option => (option, fuzzyScore fuzzyIndices option s))
  have hmem : (s, fuzzyScore fuzzyIndices s s) ∈
      (alternatives.map fun option => (option, fuzzyScore fuzzyIndices option s)).mergeSort scoreLe :=
    List.mem_mergeSort.2 (List.mem_map_of_mem hs)
  rw [fuzzyMatch, List.head?_map, Option.map_map]
  cases hlist : (alternatives.map fun option => (option, fuzzyScore fuzzyIndices option s)).mergeSort scoreLe with
  | nil =>
    rw [hlist] at hmem
    cases hmem
  | cons first rest =>
    rw [hlist] at hmem hsorted
    have hfirst : first ∈ alternatives.map fun option => (option, fuzzyScore fuzzyIndices option s) := by
      rw [← List.mem_mergeSort, hlist]
      exact List.mem_cons_self
    obtain ⟨o, -, rfl⟩ := List.mem_map.1 hfirst
    rcases List.mem_cons.1 hmem with heq | hmem
    · exact congrArg some (congrArg Prod.fst heq).symm
    · -- nothing else can come before the parameter itself
      have hle := (List.pairwise_cons.1 hsorted).1 _ hmem
      simp only [scoreLe, decide_eq_true_eq] at hle
      by_cases ho : o = s
      · rw [ho]
        rfl
      · rcases Nat.lt_or_ge (utf8Length s) (utf8Length o) with hlength | hlength
        · have := hprefers.longer s o hlength
          omega
        · have := hprefers.shorter s o ho hlength
          omega

/-! ## Splits of a text that is expanded -/

variable {greed : ParamGreed} {query lead param delim rest blank tail : List Char}

/-- An optional word is missing. -/
def missesWord (query : List Char) : ParamGreed → Bool
  | .optionalWord => query.all isWhitespace
  | _ => false

/-- A parameter that is taken in this way ends at white space. -/
def ParamGreed.endsAtBlank : ParamGreed → Bool
  | .word | .optionalWord | .custom _ => true
  | .toComma | .rest => false

theorem splitAtClass_blank_append {inParameter : Char → Bool} (hblank : ∀ c ∈ blank, inParameter c = false)
    (hsplit : splitAtClass inParameter query = (lead, param, delim, rest)) :
    splitAtClass inParameter (blank ++ query) = (blank ++ lead, param, delim, rest) := by
  have hskipped : ∀ c ∈ blank, (!inParameter c) = true := by simpa using hblank
  simp only [splitAtClass, Prod.mk.injEq, List.takeWhile_append_of_pos hskipped,
    List.dropWhile_append_of_pos hskipped] at hsplit ⊢
  obtain ⟨rfl, hparam, hdelim, hrest⟩ := hsplit
  exact ⟨rfl, hparam, hdelim, hrest⟩

/-- White space in front of a text does not matter to its parameter. -/
theorem splitQuery_blank_append (hword : WordClass isWord) (hgreed : greed.Known) (hblank : Blank blank)
    (hsplit : splitQuery isWord query greed = (lead, param, delim, rest)) :
    ∃ lead', splitQuery isWord (blank ++ query) greed = (lead', param, delim, rest) := by
  have hnone : ∀ c ∈ blank, isWord c = false := fun c hc => hword.blank c (hblank c hc)
  rcases hgreed with rfl | rfl | rfl | rfl | rfl
  · exact ⟨_, splitAtClass_blank_append hnone hsplit⟩
  · have hall : (blank ++ query).all isWhitespace = query.all isWhitespace := by
      rw [List.all_append, List.all_eq_true.2 hblank, Bool.true_and]
    rw [splitQuery, separateOptionalWord] at hsplit ⊢
    rw [hall]
    split at hsplit
    next hquery => exact ⟨lead, by rw [if_pos hquery, hsplit]⟩
    next hquery => exact ⟨_, by rw [if_neg hquery]; exact splitAtClass_blank_append hnone hsplit⟩
  · have hskipped : ∀ c ∈ blank, (!isWord c) = true := by simpa using hnone
    simp only [splitQuery, separateUntilComma, Prod.mk.injEq] at hsplit ⊢
    obtain ⟨-, hparam, hdelim, hrest⟩ := hsplit
    rw [List.dropWhile_append_of_pos hskipped]
    exact ⟨_, rfl, hparam, hdelim, hrest⟩
  · simp only [splitQuery, Prod.mk.injEq] at hsplit ⊢
    rw [dropWhile_blank_append hblank]
    exact ⟨_, rfl, hsplit.2⟩
  · exact ⟨_, splitAtClass_blank_append (by simpa [Blank] using hblank) hsplit⟩

/-- A parameter at the start of a text. -/
theorem splitAtClass_start {inParameter : Char → Bool} (hparam : ∀ c ∈ param, inParameter c = true) (hne : param ≠ [])
    (htail : ∀ c, tail.head? = some c → inParameter c = false) (hline : '\n' ∉ tail) :
    splitAtClass inParameter (param ++ tail) = ([], param, tail.take 1, tail.drop 1) :=
  splitAtClass_append (by simp : ∀ c ∈ [], inParameter c = false) hparam hne htail hline

/-- A parameter that is taken out of a text is taken out of itself, with the delimiter and another text behind it. -/
theorem splitAtClass_again {inParameter : Char → Bool} (hline : '\n' ∉ query)
    (hsplit : splitAtClass inParameter query = (lead, param, delim, rest)) (hne : param ≠ []) (htail : '\n' ∉ tail)
    (hdelim : tail = [] ∨ delim ≠ []) : splitAtClass inParameter (param ++ delim ++ tail) = ([], param, delim, tail) := by
  obtain ⟨behind, happend, rfl, -, -, hparam, hhead⟩ := splitAtClass_eq hline hsplit
  cases behind with
  | nil =>
    obtain rfl : tail = [] := hdelim.resolve_right fun h => h rfl
    have hcut := splitAtClass_start hparam hne (by simp : ∀ c, [].head? = some c → inParameter c = false) (by simp)
    simpa using hcut
  | cons c behind =>
    have hc : ∀ d, ([c] ++ tail).head? = some d → inParameter d = false := fun d hd => hhead d hd
    have hline' : '\n' ∉ [c] ++ tail := by
      rw [happend] at hline
      simp only [List.mem_append, List.mem_cons, List.not_mem_nil, or_false, not_or] at hline ⊢
      exact ⟨hline.2.1, htail⟩
    have hcut := splitAtClass_start hparam hne hc hline'
    simpa using hcut

theorem splitAtClass_rest_nil {inParameter : Char → Bool} (hline : '\n' ∉ query)
    (hsplit : splitAtClass inParameter query = (lead, param, [], rest)) : rest = [] := by
  obtain ⟨behind, -, hdelim, rfl, -⟩ := splitAtClass_eq hline hsplit
  cases behind with
  | nil => rfl
  | cons c behind => cases hdelim

/-- With white space behind it, a parameter ends there. -/
theorem splitAtClass_space {inParameter : Char → Bool} (hspace : inParameter ' ' = false) (hline : '\n' ∉ query)
    (hsplit : splitAtClass inParameter query = (lead, param, [], rest)) (hne : param ≠ []) (htail : '\n' ∉ tail) :
    splitAtClass inParameter (param ++ ' ' :: tail) = ([], param, [' '], tail) := by
  obtain ⟨behind, -, -, -, -, hparam, -⟩ := splitAtClass_eq hline hsplit
  have hline' : '\n' ∉ ' ' :: tail := by simpa using htail
  have hcut := splitAtClass_start hparam hne (by simpa using hspace) hline'
  simpa using hcut

/-- A word is no white space. -/
theorem not_blank_param_append (hword : WordClass isWord) (hline : '\n' ∉ query)
    (hsplit : separateFirstWord isWord query = (lead, param, delim, rest)) (hne : param ≠ []) (tail : List Char) :
    ¬ (param ++ tail).all isWhitespace = true := by
  obtain ⟨-, -, -, -, -, hparam, -⟩ := splitAtClass_eq hline hsplit
  obtain ⟨c, param, rfl⟩ := List.exists_cons_of_ne_nil hne
  intro hall
  have hblank := List.all_eq_true.1 hall c List.mem_cons_self
  have hc := hparam c List.mem_cons_self
  rw [hword.blank c hblank] at hc
  cases hc

/-- The first character of what goes to a comma is part of a word. -/
theorem separateUntilComma_again (hsplit : separateUntilComma isWord query = (lead, param, delim, rest)) (hne : param ≠ [])
    (htail : '\n' ∉ tail) (hdelim : tail = [] ∨ delim ≠ []) :
    separateUntilComma isWord (param ++ delim ++ tail) = ([], param, delim, tail) := by
  simp only [separateUntilComma, Prod.mk.injEq] at hsplit
  obtain ⟨-, rfl, rfl, -⟩ := hsplit
  have hfirst := List.head?_dropWhile_not (fun c => !isWord c) query
  generalize query.dropWhile (fun c => !isWord c) = text at hfirst hne hdelim
  obtain ⟨c, param, hparam⟩ := List.exists_cons_of_ne_nil hne
  have hword : isWord c = true := by
    obtain ⟨behind, hbehind⟩ := List.takeWhile_prefix (l := text) (· ≠ ',')
    rw [← hbehind, hparam, List.cons_append, List.head?_cons] at hfirst
    simpa using hfirst
  have hall : ∀ d ∈ c :: param, decide (d ≠ ',') = true := by
    rw [← hparam]
    exact fun d hd => List.mem_takeWhile_imp (p := fun d => decide (d ≠ ',')) hd
  have hstart : ((c :: param) ++ ((text.dropWhile (· ≠ ',')).take 1 ++ tail)).takeWhile (fun c => !isWord c) = [] ∧
      ((c :: param) ++ ((text.dropWhile (· ≠ ',')).take 1 ++ tail)).dropWhile (fun c => !isWord c) =
        (c :: param) ++ ((text.dropWhile (· ≠ ',')).take 1 ++ tail) := by
    simp [hword]
  rw [hparam, List.append_assoc]
  simp only [separateUntilComma, hstart.1, hstart.2, List.takeWhile_append_of_pos hall, List.dropWhile_append_of_pos hall]
  cases hrest : text.dropWhile (· ≠ ',') with
  | nil =>
    rw [hrest] at hdelim
    obtain rfl : tail = [] := hdelim.resolve_right fun h => h rfl
    simp [untilLineEnd]
  | cons d behind =>
    have hcomma := List.head?_dropWhile_not (· ≠ ',') text
    rw [hrest, List.head?_cons] at hcomma
    have hcomma : d = ',' := by simpa using hcomma
    subst hcomma
    simp [untilLineEnd_of_notMem htail]

/-- What is taken out of a text is taken out of itself, with the delimiter and another text behind it. -/
theorem splitQuery_again (hword : WordClass isWord) (hgreed : greed.Known) (hline : '\n' ∉ query)
    (hsplit : splitQuery isWord query greed = (lead, param, delim, rest)) (hne : param ≠ []) (htail : '\n' ∉ tail)
    (hmissing : missesWord query greed = false) (hdelim : tail = [] ∨ delim ≠ []) :
    splitQuery isWord (param ++ delim ++ tail) greed = ([], param, delim, tail) := by
  rcases hgreed with rfl | rfl | rfl | rfl | rfl
  · exact splitAtClass_again hline hsplit hne htail hdelim
  · have hmissing' : query.all isWhitespace = false := hmissing
    rw [splitQuery, separateOptionalWord, if_neg (by simp [hmissing'])] at hsplit
    rw [splitQuery, separateOptionalWord, if_neg]
    · exact splitAtClass_again hline hsplit hne htail hdelim
    · rw [List.append_assoc]
      exact not_blank_param_append hword hline hsplit hne _
  · exact separateUntilComma_again hsplit hne htail hdelim
  · simp only [splitQuery, Prod.mk.injEq] at hsplit ⊢
    obtain ⟨-, rfl, rfl, -⟩ := hsplit
    obtain rfl : tail = [] := hdelim.resolve_right fun h => h rfl
    rw [List.append_nil, List.append_nil, List.dropWhile_idempotent]
    simp
  · exact splitAtClass_again hline hsplit hne htail hdelim

/-- With white space behind it, a word ends there. -/
theorem splitQuery_space (hword : WordClass isWord) (hgreed : greed.Known) (hends : greed.endsAtBlank = true)
    (hline : '\n' ∉ query) (hsplit : splitQuery isWord query greed = (lead, param, [], rest)) (hne : param ≠ [])
    (htail : '\n' ∉ tail) (hmissing : missesWord query greed = false) :
    splitQuery isWord (param ++ ' ' :: tail) greed = ([], param, [' '], tail) := by
  have hspace : isWord ' ' = false := hword.blank ' ' (by decide)
  rcases hgreed with rfl | rfl | rfl | rfl | rfl
  · exact splitAtClass_space hspace hline hsplit hne htail
  · have hmissing' : query.all isWhitespace = false := hmissing
    rw [splitQuery, separateOptionalWord, if_neg (by simp [hmissing'])] at hsplit
    rw [splitQuery, separateOptionalWord, if_neg (not_blank_param_append hword hline hsplit hne _)]
    exact splitAtClass_space hspace hline hsplit hne htail
  · cases hends
  · cases hends
  · exact splitAtClass_space (by decide) hline hsplit hne htail

/-- Where nothing stands behind a parameter, nothing is left. -/
theorem splitQuery_rest_nil (hgreed : greed.Known) (hline : '\n' ∉ query)
    (hsplit : splitQuery isWord query greed = (lead, param, [], rest)) : rest = [] := by
  rcases hgreed with rfl | rfl | rfl | rfl | rfl
  · exact splitAtClass_rest_nil hline hsplit
  · rw [splitQuery, separateOptionalWord] at hsplit
    split at hsplit
    · simp only [Prod.mk.injEq] at hsplit
      exact hsplit.2.2.2.symm
    · exact splitAtClass_rest_nil hline hsplit
  · simp only [splitQuery, separateUntilComma, Prod.mk.injEq] at hsplit
    obtain ⟨-, -, hdelim, hrest⟩ := hsplit
    cases hbehind : (query.dropWhile fun c => !isWord c).dropWhile (· ≠ ',') with
    | nil =>
      rw [hbehind] at hrest
      exact hrest.symm
    | cons c behind =>
      rw [hbehind] at hdelim
      cases hdelim
  · simp only [splitQuery, Prod.mk.injEq] at hsplit
    exact hsplit.2.2.2.symm
  · exact splitAtClass_rest_nil hline hsplit

/-- A missing optional word is a blank. -/
theorem splitQuery_of_missesWord (hmissing : missesWord query greed = true) :
    splitQuery isWord query greed = ([], [' '], [], []) := by
  cases greed with
  | optionalWord =>
    have hblank : query.all isWhitespace = true := hmissing
    rw [splitQuery, separateOptionalWord, if_pos hblank]
  | word | toComma | rest | custom => cases hmissing

/-- Of an empty text only an optional word can be taken, which is missing. -/
theorem missesWord_nil (hgreed : greed.Known) (hsplit : splitQuery isWord [] greed = (lead, param, delim, rest))
    (hne : param ≠ []) : missesWord [] greed = true := by
  rcases hgreed with rfl | rfl | rfl | rfl | rfl
  · exact absurd (congrArg (fun split : QuerySplit => split.2.1) hsplit).symm hne
  · rfl
  · exact absurd (congrArg (fun split : QuerySplit => split.2.1) hsplit).symm hne
  · exact absurd (congrArg (fun split : QuerySplit => split.2.1) hsplit).symm hne
  · exact absurd (congrArg (fun split : QuerySplit => split.2.1) hsplit).symm hne

/-! ## Commands that need no expansion -/

/-- A command whose parameters are taken in one of the known ways, and whose parsing functions do not look at the text
behind their parameter. -/
inductive Simple : SuggestingCommand T → Prop
  | terminal (val : T) : Simple (.terminal val)
  | nonTerminal {greed : ParamGreed} {suggestions : List (List Char)}
    {parser : List Char → RestQuery → Option (SuggestingCommand T)} :
    greed.Known → (∀ param rest rest', parser param rest = parser param rest') →
    (∀ param rest next, parser param rest = some next → Simple next) →
    Simple (.nonTerminal greed suggestions parser)

/-- There is white space between a parameter and the next one. Nothing may stand there if an optional word is missing:
behind another missing one, and, unless white space is asked for, behind a parameter that ends at white space. -/
def Apart (spaced : Bool) (query : List Char) (greed : ParamGreed) (delim : List Char) : Prop :=
  Blank delim ∧ (delim = [] → missesWord query greed = true ∨ (spaced = false ∧ greed.endsAtBlank = true))

section

variable (isWord : Char → Bool) (spaced : Bool)

mutual

/-- The parameters of a command are apart, and each of them is a suggestion if there are any. -/
def Exact (query : List Char) : SuggestingCommand T → Prop
  | .terminal _ => True
  | .nonTerminal greed suggestions parser =>
    let (_, param, delim, rest) := splitQuery isWord query greed
    (suggestions = [] ∨ param ∈ suggestions) ∧
      ExactNext (Apart spaced query greed delim) rest (parser param (.ofText rest))
termination_by structural command => command

/-- What follows a parameter, unless the command is finished. -/
def ExactNext (apart : Prop) (rest : List Char) : Option (SuggestingCommand T) → Prop
  | none => True
  | some next => next.isTerminal = true ∨ (apart ∧ Exact rest next)
termination_by structural next => next

end

/-- How a command is parsed and expanded whose parameters are apart and are suggestions. -/
inductive Expands : SuggestingCommand T → List Char → List Char → T → Prop
  | finished (val : T) : Expands (.terminal val) [] [] val
  | param {greed : ParamGreed} {suggestions : List (List Char)}
    {parser : List Char → RestQuery → Option (SuggestingCommand T)} {query lead param delim rest expansion : List Char}
    {next : SuggestingCommand T} {val : T} (hgreed : greed.Known)
    (hparser : ∀ param rest rest', parser param rest = parser param rest')
    (hsplit : splitQuery isWord query greed = (lead, param, delim, rest)) (hne : param ≠ [])
    (hsuggestions : suggestions = [] ∨ param ∈ suggestions) (hnext : parser param (.ofText rest) = some next)
    (hapart : next.isTerminal = true ∨ Apart spaced query greed delim) (h : Expands next rest expansion val) :
    Expands (.nonTerminal greed suggestions parser) query (param ++ delim ++ expansion) val

end

variable {spaced : Bool} {command : SuggestingCommand T} {expansion : List Char} {val : T}

theorem exists_expands (hsimple : Simple command) (hparse : parseCommand isWord query command.toCommand = .ok val)
    (hexact : Exact isWord spaced query command) : ∃ expansion, Expands isWord spaced command query expansion val := by
  induction hsimple generalizing query with
  | terminal val' =>
    rw [SuggestingCommand.toCommand, parseCommand] at hparse
    split at hparse
    next hempty =>
      obtain rfl := Except.ok.inj hparse
      rw [List.isEmpty_iff.1 hempty]
      exact ⟨[], .finished _⟩
    next => cases hparse
  | nonTerminal hgreed hparser _ ih =>
    rename_i greed suggestions parser hsub
    obtain ⟨⟨lead, param, delim, rest⟩, hsplit⟩ : ∃ split, splitQuery isWord query greed = split := ⟨_, rfl⟩
    simp only [SuggestingCommand.toCommand, parseCommand, hsplit] at hparse
    simp only [Exact, hsplit] at hexact
    obtain ⟨hsuggestions, hexact⟩ := hexact
    split at hparse
    · cases hparse
    next hne =>
      rw [List.isEmpty_iff] at hne
      cases hnext : parser param (.ofText rest) with
      | none =>
        rw [hnext] at hparse
        cases hparse
      | some next =>
        rw [hnext, SuggestingCommand.toNext, parseNext] at hparse
        rw [hnext, ExactNext] at hexact
        have hexact' : Exact isWord spaced rest next := by
          rcases hexact with hterminal | hexact
          · cases next with
            | terminal => trivial
            | nonTerminal => cases hterminal
          · exact hexact.2
        obtain ⟨expansion, h⟩ := ih param _ next hnext hparse hexact'
        exact ⟨_, .param hgreed hparser hsplit hne hsuggestions hnext (hexact.imp_right And.left) h⟩

/-- A command that expands is accepted. -/
theorem Expands.parseCommand_eq (h : Expands isWord spaced command query expansion val) :
    parseCommand isWord query command.toCommand = .ok val := by
  induction h with
  | finished val => rfl
  | param _ _ hsplit hne _ hnext _ _ ih =>
    simp only [SuggestingCommand.toCommand, parseCommand, hsplit, List.isEmpty_iff, hne, if_false, hnext,
      SuggestingCommand.toNext, parseNext, ih]

/-- A finished command takes nothing more. -/
theorem Expands.eq_nil (h : Expands isWord spaced command query expansion val) (hterminal : command.isTerminal = true) :
    query = [] ∧ expansion = [] := by
  cases h with
  | finished => exact ⟨rfl, rfl⟩
  | param => cases hterminal

/-- How the fuzzy expander expands such a command, behind white space. -/
theorem Expands.handleNonTerminalFuzz_eq (hword : WordClass isWord) (hprefers : PrefersEqual fuzzyIndices)
    (h : Expands isWord spaced command query expansion val) (hcommand : command.isTerminal = false)
    (previousQuery : List Char) (hblank : Blank blank) :
    ∃ suggestions, handleNonTerminalFuzz isWord fuzzyIndices previousQuery (blank ++ query) command =
      { expanded := previousQuery ++ expansion, suggestions := .ok suggestions } := by
  induction h generalizing previousQuery blank with
  | finished => cases hcommand
  | param hgreed hparser hsplit hne hsuggestions hnext hapart h ih =>
    rename_i greed suggestions parser query lead param delim rest expansion next val
    obtain ⟨lead', hsplit'⟩ := splitQuery_blank_append hword hgreed hblank hsplit
    have hexpansion : ((fuzzyMatch fuzzyIndices suggestions param).head?.map Prod.fst).getD param = param := by
      rcases hsuggestions with rfl | hmem
      · simp [fuzzyMatch]
      · rw [head?_fuzzyMatch hprefers hmem]
        rfl
    have hnext' : parser param (.ofText (delim ++ rest)) = some next := by
      rw [hparser param _ (.ofText rest), hnext]
    have hempty : param.isEmpty = false := by simpa using hne
    simp only [handleNonTerminalFuzz, hsplit', hexpansion, hnext', expandNext, hempty, Bool.and_false,
      Bool.false_eq_true, if_false]
    cases hterminal : next.isTerminal with
    | true =>
      obtain ⟨-, rfl⟩ := h.eq_nil hterminal
      refine ⟨fuzzyMatch fuzzyIndices suggestions param, ?_⟩
      simp
    | false =>
      have hdelim : Blank delim := (hapart.resolve_left (by simp [hterminal])).1
      obtain ⟨suggestions', hhandle⟩ := ih hterminal (previousQuery ++ param ++ delim) hdelim
      rw [hhandle]
      exact ⟨suggestions', by simp [FuzzyOutput.isNoMoreInput]⟩

/-- How such a command is expanded. -/
theorem Expands.expandCommand_eq (hword : WordClass isWord) (hprefers : PrefersEqual fuzzyIndices)
    (h : Expands isWord spaced command query expansion val) :
    (expandCommand isWord fuzzyIndices query command).expanded = expansion := by
  cases hcommand : command with
  | terminal val' =>
    rw [hcommand] at h
    exact (h.eq_nil rfl).2.symm
  | nonTerminal greed suggestions parser =>
    rw [hcommand] at h
    obtain ⟨suggestions', hhandle⟩ := h.handleNonTerminalFuzz_eq hword hprefers rfl [] (by simp [Blank] : Blank [])
    rw [List.nil_append, List.nil_append] at hhandle
    simp [expandCommand, hhandle, FuzzyOutput.isNoMoreInput]

/-! ## Commands that are expanded -/

theorem missesWord_blank_append (hblank : Blank blank) (query : List Char) (greed : ParamGreed) :
    missesWord (blank ++ query) greed = missesWord query greed := by
  cases greed with
  | optionalWord => rw [missesWord, missesWord, List.all_append, List.all_eq_true.2 hblank, Bool.true_and]
  | word | toComma | rest | custom => rfl

/-- White space in front of a command does not matter. -/
theorem Expands.blank_append (hword : WordClass isWord) (h : Expands isWord spaced command query expansion val)
    (hcommand : command.isTerminal = false) (hblank : Blank blank) :
    Expands isWord spaced command (blank ++ query) expansion val := by
  cases h with
  | finished => cases hcommand
  | param hgreed hparser hsplit hne hsuggestions hnext hapart h =>
    obtain ⟨lead', hsplit'⟩ := splitQuery_blank_append hword hgreed hblank hsplit
    rw [Apart, ← missesWord_blank_append hblank] at hapart
    exact .param hgreed hparser hsplit' hne hsuggestions hnext hapart h

theorem Expands.ne_nil (h : Expands isWord spaced command query expansion val) (hcommand : command.isTerminal = false) :
    expansion ≠ [] := by
  cases h with
  | finished => cases hcommand
  | param _ _ _ hne _ _ _ _ => simp [hne]

/-- Behind the end of a text only optional words are missing, each of which is a blank. -/
theorem Expands.of_nil (h : Expands isWord spaced command query expansion val) (hquery : query = []) :
    Blank expansion ∧ (command.isTerminal = false → ∃ tail, expansion = ' ' :: tail) := by
  induction h with
  | finished => exact ⟨by simp [Blank], fun hcommand => by cases hcommand⟩
  | param hgreed _ hsplit hne _ _ _ _ ih =>
    rw [hquery] at hsplit
    rw [splitQuery_of_missesWord (missesWord_nil hgreed hsplit hne)] at hsplit
    simp only [Prod.mk.injEq] at hsplit
    obtain ⟨-, rfl, rfl, rfl⟩ := hsplit
    refine ⟨?_, fun _ => ⟨_, rfl⟩⟩
    intro c hc
    rcases List.mem_cons.1 hc with rfl | hc
    · decide
    · exact (ih rfl).1 c hc

/-- No line ends are put in. -/
theorem Expands.notMem_newline (h : Expands isWord spaced command query expansion val) (hline : '\n' ∉ query) :
    '\n' ∉ expansion := by
  induction h with
  | finished => simp
  | param hgreed _ hsplit _ _ _ _ _ ih =>
    rcases splitQuery_spec hgreed hline hsplit with ⟨before, rfl, -⟩ | ⟨rfl, rfl, rfl, hblank⟩
    · simp only [List.mem_append, not_or] at hline ⊢
      exact ⟨⟨hline.1.1.2, hline.1.2⟩, ih hline.2⟩
    · have hmissing : missesWord _ .optionalWord = true := List.all_eq_true.2 hblank
      rw [splitQuery_of_missesWord hmissing] at hsplit
      obtain rfl := (Prod.mk.inj (Prod.mk.inj (Prod.mk.inj hsplit).2).2).1
      simpa using ih (by simp)

/-- A command that is expanded expands again, to the same text if its parameters have white space between them. -/
theorem Expands.expands (hword : WordClass isWord) (h : Expands isWord spaced command query expansion val)
    (hline : '\n' ∉ query) :
    ∃ expansion', Expands isWord spaced command expansion expansion' val ∧ (spaced = true → expansion' = expansion) := by
  induction h with
  | finished val => exact ⟨[], .finished val, fun _ => rfl⟩
  | param hgreed hparser hsplit hne hsuggestions hnext hapart h ih =>
    rename_i greed suggestions parser query lead param delim rest expansion next val
    have hrest : '\n' ∉ rest := by
      rcases splitQuery_spec hgreed hline hsplit with ⟨before, rfl, -⟩ | ⟨-, -, rfl, -⟩
      · simp only [List.mem_append, not_or] at hline
        exact hline.2
      · simp
    have hexpansion : '\n' ∉ expansion := h.notMem_newline hrest
    cases hmissing : missesWord query greed with
    | true =>
      rw [splitQuery_of_missesWord hmissing] at hsplit
      simp only [Prod.mk.injEq] at hsplit
      obtain ⟨-, rfl, rfl, rfl⟩ := hsplit
      -- the whole text is white space again
      have hmissing' : missesWord ([' '] ++ [] ++ expansion) greed = true := by
        cases greed with
        | optionalWord =>
          refine List.all_eq_true.2 fun c hc => ?_
          rcases List.mem_cons.1 hc with rfl | hc
          · decide
          · exact (h.of_nil rfl).1 c hc
        | word | toComma | rest | custom => cases hmissing
      exact ⟨_, .param hgreed hparser (splitQuery_of_missesWord hmissing') hne hsuggestions hnext
        (.inr ⟨by simp [Blank], fun _ => .inl hmissing'⟩) h, fun _ => rfl⟩
    | false =>
      by_cases hdelim : expansion = [] ∨ delim ≠ []
      · obtain ⟨expansion', hexpands, hsame⟩ := ih hrest
        have hsplit' := splitQuery_again hword hgreed hline hsplit hne hexpansion hmissing hdelim
        refine ⟨param ++ delim ++ expansion', .param hgreed hparser hsplit' hne hsuggestions
          ((hparser param _ _).trans hnext) ?_ hexpands, fun hspaced => by rw [hsame hspaced]⟩
        cases hterminal : next.isTerminal with
        | true => exact .inl rfl
        | false =>
          have hapart' := hapart.resolve_left (by simp [hterminal])
          have hspace : delim ≠ [] := hdelim.resolve_left (h.ne_nil hterminal)
          exact .inr ⟨hapart'.1, fun hnil => absurd hnil hspace⟩
      · -- the blank of a missing word goes behind the parameter
        simp only [not_or, not_not] at hdelim
        obtain ⟨hne', rfl⟩ := hdelim
        have hterminal : next.isTerminal = false := by
          by_contra hterminal
          exact hne' (h.eq_nil (by simpa using hterminal)).2
        obtain rfl := splitQuery_rest_nil hgreed hline hsplit
        obtain ⟨hblank, htail⟩ := h.of_nil rfl
        obtain ⟨tail, rfl⟩ := htail hterminal
        rcases (hapart.resolve_left (by simp [hterminal])).2 rfl with hmissing' | ⟨rfl, hends⟩
        · rw [hmissing] at hmissing'
          cases hmissing'
        · have hblank' : Blank tail := fun c hc => hblank c (List.mem_cons_of_mem _ hc)
          have hline' : '\n' ∉ tail := fun hmem => hexpansion (List.mem_cons_of_mem _ hmem)
          have hsplit' := splitQuery_space hword hgreed hends hline hsplit hne hline' hmissing
          have hnext' := h.blank_append hword hterminal hblank'
          rw [List.append_nil] at hnext'
          rw [List.append_nil]
          exact ⟨_, .param hgreed hparser hsplit' hne hsuggestions ((hparser param _ _).trans hnext)
            (.inr ⟨by simp [Blank, isWhitespace], fun hnil => by cases hnil⟩) hnext', fun hspaced => by cases hspaced⟩

/-- A command whose parameters are apart and are suggestions is parsed alike when it is expanded, and is not expanded
further if there is white space wherever an optional word is missing. -/
theorem expandCommand_keeps (isWord : Char → Bool) (hword : WordClass isWord) (fuzzyIndices : Matcher)
    (hprefers : PrefersEqual fuzzyIndices) {T : Type} (command : SuggestingCommand T) (hsimple : Simple command)
    (query : List Char) (hline : '\n' ∉ query) (val : T)
    (hparse : parseCommand isWord query command.toCommand = .ok val) :
    (Exact isWord false query command →
        parseCommand isWord (expandCommand isWord fuzzyIndices query command).expanded command.toCommand = .ok val) ∧
      (Exact isWord true query command →
        (expandCommand isWord fuzzyIndices (expandCommand isWord fuzzyIndices query command).expanded command).expanded =
          (expandCommand isWord fuzzyIndices query command).expanded) := by
  constructor
  · intro hexact
    obtain ⟨expansion, h⟩ := exists_expands hsimple hparse hexact
    obtain ⟨expansion', h', -⟩ := h.expands hword hline
    rw [h.expandCommand_eq hword hprefers]
    exact h'.parseCommand_eq
  · intro hexact
    obtain ⟨expansion, h⟩ := exists_expands hsimple hparse hexact
    obtain ⟨expansion', h', hsame⟩ := h.expands hword hline
    obtain rfl := hsame rfl
    rw [h.expandCommand_eq hword hprefers, h'.expandCommand_eq hword hprefers]

/-- A matcher that finds nothing but the line itself. -/
def equalMatcher : Matcher := fun line query => if line = query then some (1, []) else none

theorem prefersEqual_equalMatcher : PrefersEqual equalMatcher where
  shorter s o hne _ := by simp [fuzzyScore, equalMatcher, hne]
  longer s o _ := by
    by_cases h : o = s
    · simp [fuzzyScore, equalMatcher, h]
    · simp [fuzzyScore, equalMatcher, h]

/-- A word, and a second one that is optional. -/
def oneOrTwoWords : SuggestingCommand Unit :=
  .nonTerminal .word [] fun _ _ => some (.nonTerminal .optionalWord [] fun _ _ => some (.terminal ()))

theorem simple_oneOrTwoWords : Simple oneOrTwoWords := by
  refine .nonTerminal (.inl rfl) (fun _ _ _ => rfl) fun _ _ next hnext => ?_
  obtain rfl := Option.some.inj hnext
  refine .nonTerminal (.inr (.inl rfl)) (fun _ _ _ => rfl) fun _ _ next hnext => ?_
  obtain rfl := Option.some.inj hnext
  exact .terminal ()

theorem blank_space : Blank [' '] := by simp [Blank, isWhitespace]

theorem blank_nil : Blank [] := by simp [Blank]

/-- The second word is missing. -/
theorem expands_oneOrTwoWords (query : List Char) {delim : List Char}
    (hsplit : splitQuery isAsciiWord query .word = ([], ['a'], delim, [])) (hdelim : Blank delim) :
    Expands isAsciiWord false oneOrTwoWords query (['a'] ++ delim ++ [' ']) () := by
  have hmissing : splitQuery isAsciiWord [] .optionalWord = ([], [' '], [], []) := rfl
  exact .param (.inl rfl) (fun _ _ _ => rfl) hsplit (by simp) (.inl rfl) rfl (.inr ⟨hdelim, fun _ => .inr ⟨rfl, rfl⟩⟩)
    (.param (.inr (.inl rfl)) (fun _ _ _ => rfl) hmissing (by simp) (.inl rfl) rfl (.inl rfl) (.finished ()))

theorem expandCommand_keeps_twoWords :
    (expandCommand isAsciiWord equalMatcher (expandCommand isAsciiWord equalMatcher "a b".toList oneOrTwoWords).expanded
      oneOrTwoWords).expanded = (expandCommand isAsciiWord equalMatcher "a b".toList oneOrTwoWords).expanded :=
  (expandCommand_keeps isAsciiWord wordClass_isAsciiWord equalMatcher prefersEqual_equalMatcher oneOrTwoWords
    simple_oneOrTwoWords "a b".toList (by decide) () rfl).2
    ⟨.inl rfl, .inr ⟨⟨blank_space, fun h => by cases h⟩, .inl rfl, .inl rfl⟩⟩

/-- Each expansion puts in the blank of a missing word once more. -/
theorem expandCommand_not_keeps : ¬ ∀ (isWord : Char → Bool) (fuzzyIndices : Matcher) (T : Type)
    (command : SuggestingCommand T) (query : List Char) (val : T), WordClass isWord → PrefersEqual fuzzyIndices →
    Simple command → '\n' ∉ query → parseCommand isWord query command.toCommand = .ok val →
    Exact isWord false query command →
    (expandCommand isWord fuzzyIndices (expandCommand isWord fuzzyIndices query command).expanded command).expanded =
      (expandCommand isWord fuzzyIndices query command).expanded := by
  intro h
  have hsame := h isAsciiWord equalMatcher Unit oneOrTwoWords ['a'] () wordClass_isAsciiWord prefersEqual_equalMatcher
    simple_oneOrTwoWords (by decide) rfl ⟨.inl rfl, .inr ⟨⟨blank_nil, fun _ => .inr ⟨rfl, rfl⟩⟩, .inl rfl, .inl rfl⟩⟩
  have honce := (expands_oneOrTwoWords ['a'] rfl blank_nil).expandCommand_eq wordClass_isAsciiWord
    prefersEqual_equalMatcher
  rw [honce] at hsame
  have htwice := (expands_oneOrTwoWords ['a', ' '] rfl blank_space).expandCommand_eq wordClass_isAsciiWord
    prefersEqual_equalMatcher
  exact absurd (htwice.symm.trans hsame) (by decide)

end Fzcmd
