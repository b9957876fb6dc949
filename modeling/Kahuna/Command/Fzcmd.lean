import Kahuna.Text.Basic

/-!
# Commands and their parameters

The model of the part of `fzcmd.rs` that parses commands. A command is finished, or takes a parameter
from the text and goes on with a command that depends on it. Texts are lists of characters.

What `\w` matches in a regular expression is a parameter. The suggestions of a command are left out, since
only the completion of a text looks at them.
-/

namespace Fzcmd

open Text

/-- The text behind a parameter. -/
inductive RestQuery where
  | something (text : List Char)
  | empty
  deriving DecidableEq, Repr

/-- `RestQuery::from`. -/
def RestQuery.ofText (text : List Char) : RestQuery :=
  if text.isEmpty then .empty else .something text

/-- What stands before a parameter, the parameter, the delimiter behind it, and the rest. -/
abbrev QuerySplit := List Char × List Char × List Char × List Char

/-- How much of the text a parameter takes. -/
inductive ParamGreed where
  | word
  | optionalWord
  | toComma
  | rest
  | custom (matcher : List Char → QuerySplit)

/-- A command that gives a `T`, which is finished or takes a parameter first. -/
inductive Command (T : Type) where
  | terminal (val : T)
  | nonTerminal (greed : ParamGreed) (parsingFunction : List Char → RestQuery → Option (Command T))

inductive ParseError where
  | invalidParameter (param : List Char)
  | missingParameters
  | extraParameters (query : List Char)
  deriving DecidableEq, Repr

/-- What `.*` matches: the text up to the end of the line. -/
def untilLineEnd (l : List Char) : List Char := l.takeWhile (· ≠ '\n')

/-- Split a text at a class of characters: those that are no part of a parameter, the parameter, one that
is no part of it, and the rest of the line. -/
def splitAtClass (inParameter : Char → Bool) (query : List Char) : QuerySplit :=
  let lead := query.takeWhile fun c => !inParameter c
  let rest := query.dropWhile fun c => !inParameter c
  let param := rest.takeWhile inParameter
  let rest := rest.dropWhile inParameter
  (lead, param, rest.take 1, untilLineEnd (rest.drop 1))

/-- A text that is a parameter as a whole. -/
theorem splitAtClass_of_all {inParameter : Char → Bool} {query : List Char}
    (h : ∀ c ∈ query, inParameter c = true) : splitAtClass inParameter query = ([], query, [], []) := by
  have hlead : (query.takeWhile fun c => !inParameter c) = [] := by
    cases query with
    | nil => rfl
    | cons c query => simp [h c List.mem_cons_self]
  have hrest : (query.dropWhile fun c => !inParameter c) = query := by
    cases query with
    | nil => rfl
    | cons c query => simp [h c List.mem_cons_self]
  have htake : query.takeWhile inParameter = query := List.takeWhile_eq_self_iff.2 h
  have hdrop : query.dropWhile inParameter = [] := List.dropWhile_eq_nil_iff.2 h
  simp only [splitAtClass, hlead, hrest, htake, hdrop]
  rfl

section

variable (isWord : Char → Bool)

/-- `separate_first_word`. -/
def separateFirstWord (query : List Char) : QuerySplit := splitAtClass isWord query

/-- `separate_optional_word`. -/
def separateOptionalWord (query : List Char) : QuerySplit :=
  if query.all isWhitespace then ([], [' '], [], []) else separateFirstWord isWord query

/-- `separate_until_comma`. -/
def separateUntilComma (query : List Char) : QuerySplit :=
  let lead := query.takeWhile fun c => !isWord c
  let rest := query.dropWhile fun c => !isWord c
  let param := rest.takeWhile (· ≠ ',')
  let rest := rest.dropWhile (· ≠ ',')
  (lead, param, rest.take 1, untilLineEnd (rest.drop 1))

/-- `split_query`. -/
def splitQuery (query : List Char) : ParamGreed → QuerySplit
  | .word => separateFirstWord isWord query
  | .optionalWord => separateOptionalWord isWord query
  | .toComma => separateUntilComma isWord query
  | .rest => ([], query.dropWhile isWhitespace, [], [])
  | .custom matcher => matcher query

mutual

/-- `parse_command`. -/
def parseCommand {T : Type} (query : List Char) : Command T → Except ParseError T
  | .terminal val => if query.isEmpty then .ok val else .error (.extraParameters query)
  | .nonTerminal greed parsingFunction =>
    let (_, param, _, rest) := splitQuery isWord query greed
    if param.isEmpty then .error .missingParameters
    else parseNext param rest (parsingFunction param (.ofText rest))
termination_by structural command => command

/-- The command that a parameter has led to, if it was a valid one. -/
def parseNext {T : Type} (param rest : List Char) : Option (Command T) → Except ParseError T
  | some nextCommand => parseCommand rest nextCommand
  | none => .error (.invalidParameter param)
termination_by structural command => command

end

end

end Fzcmd
