import Kahuna.Batch.Typing
import Kahuna.Command.Parameters

/-!
# A command in a file and at the prompt

A line of a command file is trimmed and cut at its first `#` before it is parsed, and the command at the prompt is not.

* `uncommented_append`: what is left of a line;
* `parseBatchCommands_line_iff`: a file of one line gives the message of the prompt exactly if no `#` stands in front of
  the command, and the command takes what is left of its argument as it takes the argument.
-/

namespace Batch

open CommandParser Fzcmd Text

/-! ## Comments -/

/-- What is left of a line without the comment, and without the white space around it. -/
def uncommented (line : List Char) : List Char := trim (((trim line).splitOn '#').headD [])

theorem headD_splitOn (c : Char) (l : List Char) : (l.splitOn c).headD [] = l.takeWhile (· ≠ c) := by
  rw [List.splitOn_eq_splitOnP]
  induction l with
  | nil => rfl
  | cons d l ih =>
    rw [List.splitOnP_cons_eq_if_modifyHead]
    by_cases hd : d = c
    · simp [hd]
    · cases hparts : l.splitOnP (· == c) with
      | nil => exact absurd hparts (List.splitOnP_ne_nil _ _)
      | cons first rest =>
        rw [hparts, List.headD_cons] at ih
        simp [hd, ih]

theorem lineCommands_eq {line : List Char} (h : ';' ∉ line) :
    lineCommands (trim line) = [uncommented line] ∨ (lineCommands (trim line) = [] ∧ uncommented line = []) := by
  have hsemicolon : ';' ∉ ((trim line).splitOn '#').headD [] := by
    rw [headD_splitOn]
    exact fun hmem => h (mem_of_mem_trim ((List.takeWhile_prefix _).subset hmem))
  rw [lineCommands, uncommented, List.splitOn_eq_singleton hsemicolon]
  simp only [List.map_cons, List.map_nil]
  split
  next hempty => exact .inr ⟨rfl, by rw [List.isEmpty_iff.1 hempty]; rfl⟩
  next => exact .inl rfl

/-- White space at the end does not matter to what stands before a character and is no white space at its end. -/
theorem trimEnd_takeWhile_trimEnd (p : Char → Bool) (l : List Char) :
    trimEnd ((trimEnd l).takeWhile p) = trimEnd (l.takeWhile p) := by
  have hsplit : l = trimEnd l ++ l.rtakeWhile isWhitespace := (List.rdropWhile_append_rtakeWhile ..).symm
  by_cases hall : ∀ c ∈ trimEnd l, p c = true
  · have hblank : Blank ((l.rtakeWhile isWhitespace).takeWhile p) := fun c hc =>
      List.mem_rtakeWhile_imp ((List.takeWhile_prefix _).subset hc)
    conv_rhs => rw [hsplit, List.takeWhile_append_of_pos hall, trimEnd_append_blank hblank]
    rw [List.takeWhile_eq_self_iff.2 hall]
  · have hstop : (trimEnd l ++ l.rtakeWhile isWhitespace).takeWhile p = (trimEnd l).takeWhile p := by
      rw [List.takeWhile_append, if_neg]
      intro hlength
      exact hall (List.takeWhile_eq_self_iff.1 ((List.takeWhile_prefix _).eq_of_length hlength))
    conv_rhs => rw [hsplit, hstop]

theorem dropWhile_eq_self_of_prefix {p : Char → Bool} {l m : List Char} (h : m <+: l.dropWhile p) : m.dropWhile p = m := by
  cases m with
  | nil => rfl
  | cons c m =>
    obtain ⟨tail, htail⟩ := h
    have hnot := List.head?_dropWhile_not p l
    rw [← htail, List.cons_append, List.head?_cons] at hnot
    exact List.dropWhile_cons_of_neg (by simpa using hnot)

theorem uncommented_eq (line : List Char) :
    uncommented line = trimEnd ((line.dropWhile isWhitespace).takeWhile (· ≠ '#')) := by
  have hprefix : (trim line).takeWhile (· ≠ '#') <+: line.dropWhile isWhitespace :=
    (List.takeWhile_prefix _).trans (List.rdropWhile_prefix _ _)
  rw [uncommented, headD_splitOn, trim, dropWhile_eq_self_of_prefix hprefix, trim, trimEnd_takeWhile_trimEnd]

theorem mem_of_mem_uncommented {c : Char} {line : List Char} (h : c ∈ uncommented line) : c ∈ line := by
  rw [uncommented, headD_splitOn] at h
  exact mem_of_mem_trim ((List.takeWhile_prefix _).subset (mem_of_mem_trim h))

/-! ## What is left of a command -/

/-- What is known of `\w`: no white space, no comma and no `#`, and the characters of the command that runs files. -/
structure CommandWords (isWord : Char → Bool) : Prop extends WordClass isWord where
  comment : isWord '#' = false
  runsFile : ∀ c ∈ "run_command_file".toList, isWord c = true

variable {isWord : Char → Bool} {lead word tail text : List Char}

theorem CommandWords.not_isWhitespace (h : CommandWords isWord) {c : Char} (hc : isWord c = true) :
    isWhitespace c = false := by
  by_contra hblank
  rw [h.blank c (by simpa using hblank)] at hc
  cases hc

theorem CommandWords.ne_comment (h : CommandWords isWord) {c : Char} (hc : isWord c = true) : c ≠ '#' := by
  rintro rfl
  rw [h.comment] at hc
  cases hc

/-- White space in front of a command goes, and the command does not. -/
theorem dropWhile_command (h : CommandWords isWord) (hword : ∀ c ∈ word, isWord c = true) (hne : word ≠ []) :
    (lead ++ word ++ tail).dropWhile isWhitespace = lead.dropWhile isWhitespace ++ word ++ tail := by
  obtain ⟨c, rest, rfl⟩ := List.exists_cons_of_ne_nil hne
  have hc := h.not_isWhitespace (hword c List.mem_cons_self)
  rw [List.append_assoc, List.dropWhile_append]
  split
  next hempty =>
    rw [List.isEmpty_iff.1 hempty, List.cons_append, List.dropWhile_cons_of_neg (by simp [hc])]
    rfl
  next => rw [List.append_assoc]

/-- What is left of a line with a command, in front of which there is no comment. -/
theorem uncommented_append (h : CommandWords isWord) (hword : ∀ c ∈ word, isWord c = true) (hne : word ≠ [])
    (hlead : '#' ∉ lead) : uncommented (lead ++ word ++ tail) =
      lead.dropWhile isWhitespace ++ word ++ trimEnd (tail.takeWhile (· ≠ '#')) := by
  have hkept : ∀ c ∈ lead.dropWhile isWhitespace ++ word, decide (c ≠ '#') = true := by
    intro c hc
    rcases List.mem_append.1 hc with hc | hc
    · exact decide_eq_true (ne_of_mem_of_not_mem ((List.dropWhile_suffix _).subset hc) hlead)
    · exact decide_eq_true (h.ne_comment (hword c hc))
  rw [uncommented_eq, dropWhile_command h hword hne, List.takeWhile_append_of_pos hkept]
  -- the last character of the word is not trimmed
  rcases List.eq_nil_or_concat word with rfl | ⟨init, c, rfl⟩
  · exact absurd rfl hne
  · have hc := h.not_isWhitespace (hword c (by simp))
    have hcut := rdropWhile_append_cons (by simp [hc] : ¬ isWhitespace c = true) (lead.dropWhile isWhitespace ++ init)
      (tail.takeWhile (· ≠ '#'))
    simpa [trimEnd] using hcut

/-- What is left of a line is no command if the comment begins before it. -/
theorem isWord_uncommented (h : CommandWords isWord) (hlead : ∀ c ∈ lead, isWord c = false)
    (hword : ∀ c ∈ word, isWord c = true) (hne : word ≠ []) (hcomment : '#' ∈ lead) :
    ∀ c ∈ uncommented (lead ++ word ++ tail), isWord c = false := by
  have hkept : '#' ∈ lead.dropWhile isWhitespace := by
    have hmem := hcomment
    rw [← List.takeWhile_append_dropWhile (p := isWhitespace) (l := lead)] at hmem
    rcases List.mem_append.1 hmem with hmem | hmem
    · exact absurd (List.mem_takeWhile_imp hmem) (by decide)
    · exact hmem
  have hstop : (lead.dropWhile isWhitespace ++ word ++ tail).takeWhile (· ≠ '#') =
      (lead.dropWhile isWhitespace).takeWhile (· ≠ '#') := by
    rw [List.append_assoc, List.takeWhile_append, if_neg]
    intro hlength
    have hall := List.takeWhile_eq_self_iff.1 ((List.takeWhile_prefix (· ≠ '#')).eq_of_length hlength)
    simpa using hall '#' hkept
  intro c hc
  rw [uncommented_eq, dropWhile_command h hword hne, hstop] at hc
  exact hlead c ((List.dropWhile_suffix _).subset ((List.takeWhile_prefix _).subset ((List.rdropWhile_prefix _ _).subset hc)))

/-! ## A file of one line -/

variable {α : Type} {lib : Library} {s : PromptState × α} {delim rest : List Char} {files : List Char → Option (List Char)}

/-- A command is parsed behind its first word. -/
theorem parseIn_eq (hsplit : splitQuery lib.isWord text .word = (lead, word, delim, rest)) :
    parseIn lib s text =
      if word = [] then none else (parseNext lib.isWord word rest (commandOf lib s.1 word)).toOption := by
  simp only [parseIn, getParser, parseCommand, hsplit, List.isEmpty_iff]
  split
  · rfl
  · rfl

/-- A text without a word is no command. -/
theorem parseIn_eq_none (h : ∀ c ∈ text, lib.isWord c = false) : parseIn lib s text = none := by
  have hdrop : (text.dropWhile fun c => !lib.isWord c) = [] := List.dropWhile_eq_nil_iff.2 (by simpa using h)
  have hsplit : splitQuery lib.isWord text .word = (text.takeWhile fun c => !lib.isWord c, [], [], []) := by
    simp only [splitQuery, separateFirstWord, splitAtClass, hdrop]
    rfl
  rw [parseIn_eq hsplit, if_pos rfl]

/-- The only line of a file is one command. -/
theorem parseBatchCommands_line (add : List (List Char) → List Message → Option (List Message)) (queue : List Message)
    (hline : '\n' ∉ text) (hsemicolon : ';' ∉ text) {file : List Char} (hfile : file = text ∨ file = text ++ ['\n'])
    (hread : readBatchCommand (uncommented text) = .command (uncommented text)) :
    parseBatchCommands files (parseIn lib s) add (lines file) queue =
      some ((parseIn lib s (uncommented text)).toList, queue) := by
  have hcommands : splitCommands (lines file) = lineCommands (trim text) := by
    rw [splitCommands_lines, splitCommands_eq_flatMap]
    rcases hfile with rfl | rfl
    · rw [List.splitOn_eq_singleton hline, List.flatMap_singleton]
    · rw [List.splitOn_append_cons_self, List.splitOn_eq_singleton hline]
      exact List.append_nil _
  rw [parseBatchCommands, hcommands]
  rcases lineCommands_eq hsemicolon with h | ⟨h, hempty⟩
  · rw [h, foldlM_parseStep add (by simpa using hread)]
    cases hmessage : parseIn lib s (uncommented text) <;> simp [hmessage]
  · rw [h, hempty, parseIn_nil]
    rfl

/-- What is left of the text behind the word of a command in a file. -/
def keptBehind (l : List Char) : List Char := trimEnd (l.takeWhile (· ≠ '#'))

/-- No `#` stands in front of the command, and the command takes what is left of its argument as it takes the whole
argument. -/
def UnchangedInFile (lib : Library) (s : PromptState) (text : List Char) : Prop :=
  let split := splitQuery lib.isWord text .word
  '#' ∉ split.1 ∧
    parseNext lib.isWord split.2.1 ((keptBehind (split.2.2.1 ++ split.2.2.2)).drop 1) (commandOf lib s split.2.1) =
      parseNext lib.isWord split.2.1 split.2.2.2 (commandOf lib s split.2.1)

theorem mem_of_mem_keptBehind {c : Char} {l : List Char} (h : c ∈ keptBehind l) : c ∈ l :=
  (List.takeWhile_prefix _).subset ((List.rdropWhile_prefix _ _).subset h)

/-- What is left of the text behind a word begins like that text. -/
theorem head?_keptBehind {c : Char} {l : List Char} (h : (keptBehind l).head? = some c) : l.head? = some c := by
  obtain ⟨kept, hkept⟩ := List.head?_eq_some_iff.1 h
  obtain ⟨dropped, hdropped⟩ : keptBehind l <+: l := (List.rdropWhile_prefix _ _).trans (List.takeWhile_prefix _)
  rw [← hdropped, hkept]
  rfl

section Line

variable (hwords : CommandWords lib.isWord) (hline : '\n' ∉ text)
  (hsplit : splitQuery lib.isWord text .word = (lead, word, delim, rest)) (hne : word ≠ [])

include hwords hline hsplit hne

/-- The split of what is left of a command, in front of which there is no comment. -/
theorem splitQuery_uncommented (hlead : '#' ∉ lead) :
    splitQuery lib.isWord (uncommented text) .word = (lead.dropWhile isWhitespace, word,
      (keptBehind (delim ++ rest)).take 1, (keptBehind (delim ++ rest)).drop 1) := by
  obtain ⟨tail, happend, rfl, rfl, hnone, hall, htail⟩ := splitAtClass_eq hline hsplit
  have hleft : uncommented text = lead.dropWhile isWhitespace ++ word ++ keptBehind tail := by
    rw [happend, uncommented_append hwords hall hne hlead, keptBehind]
  have hline' : '\n' ∉ keptBehind tail := fun h =>
    hline (happend ▸ List.mem_append_right _ (mem_of_mem_keptBehind h))
  rw [List.take_append_drop, hleft]
  exact splitAtClass_append (fun c hc => hnone c ((List.dropWhile_suffix _).subset hc)) hall hne
    (fun c hc => htail c (head?_keptBehind hc)) hline'

/-- If the comment begins in front of the command, nothing is left of it. -/
theorem parseIn_uncommented_eq_none (hlead : '#' ∈ lead) : parseIn lib s (uncommented text) = none := by
  obtain ⟨tail, happend, -, -, hnone, hall, -⟩ := splitAtClass_eq hline hsplit
  refine parseIn_eq_none fun c hc => ?_
  rw [happend] at hc
  exact isWord_uncommented hwords hnone hall hne hlead c hc

/-- Another command runs no file. -/
theorem readBatchCommand_uncommented (haside : word ≠ "run_command_file".toList) :
    readBatchCommand (uncommented text) = .command (uncommented text) := by
  rw [readBatchCommand, stripPrefix, if_neg]
  rintro ⟨path, hpath⟩
  have hcut : "run_command_file ".toList ++ path = [] ++ "run_command_file".toList ++ (' ' :: path) := rfl
  rw [hcut] at hpath
  by_cases hlead : '#' ∈ lead
  · -- nothing is left of the command
    obtain ⟨tail, happend, -, -, hnone, hall, -⟩ := splitAtClass_eq hline hsplit
    have hmem : 'r' ∈ uncommented text := by
      rw [← hpath]
      exact List.mem_append_left _ (by decide)
    rw [happend] at hmem
    have hnot := isWord_uncommented hwords hnone hall hne hlead 'r' hmem
    rw [hwords.runsFile 'r' (by decide)] at hnot
    cases hnot
  · have hleft := splitQuery_uncommented hwords hline hsplit hne hlead
    have hline' : '\n' ∉ ' ' :: path := by
      intro h
      have hmem : '\n' ∈ uncommented text := by
        rw [← hpath]
        exact List.mem_append_right _ h
      exact hline (mem_of_mem_uncommented hmem)
    rw [← hpath, splitQuery, separateFirstWord, splitAtClass_append (by simp) hwords.runsFile (by decide)
      (by simpa using hwords.blank ' ' (by decide)) hline'] at hleft
    exact haside (congrArg (fun split : QuerySplit => split.2.1) hleft).symm

end Line

/-- A file of one line gives the message of the prompt exactly if the command is unchanged in it. -/
theorem parseBatchCommands_line_iff_unchanged (hwords : CommandWords lib.isWord) {message : Message}
    (hline : '\n' ∉ text) (hsemicolon : ';' ∉ text) (hparse : parseIn lib s text = some message)
    (haside : (splitQuery lib.isWord text .word).2.1 ≠ "run_command_file".toList) {file : List Char}
    (hfile : file = text ∨ file = text ++ ['\n']) (add : List (List Char) → List Message → Option (List Message))
    (queue : List Message) : parseBatchCommands files (parseIn lib s) add (lines file) queue = some ([message], queue) ↔
      UnchangedInFile lib s.1 text := by
  obtain ⟨⟨lead, word, delim, rest⟩, hsplit⟩ : ∃ split, splitQuery lib.isWord text .word = split := ⟨_, rfl⟩
  rw [hsplit] at haside
  rw [parseIn_eq hsplit] at hparse
  have hne : word ≠ [] := by
    rintro rfl
    cases hparse
  rw [if_neg hne] at hparse
  rw [parseBatchCommands_line add queue hline hsemicolon hfile
    (readBatchCommand_uncommented hwords hline hsplit hne haside)]
  have hmessage : (some ((parseIn lib s (uncommented text)).toList, queue) = some ([message], queue)) ↔
      parseIn lib s (uncommented text) = some message := by
    cases parseIn lib s (uncommented text) <;> simp
  rw [hmessage, UnchangedInFile, hsplit]
  by_cases hlead : '#' ∈ lead
  · rw [parseIn_uncommented_eq_none hwords hline hsplit hne hlead]
    refine ⟨fun h => ?_, fun h => absurd hlead h.1⟩
    cases h
  · rw [parseIn_eq (splitQuery_uncommented hwords hline hsplit hne hlead), if_neg hne, ← hparse]
    -- the argument as it is was accepted
    cases hwhole : parseNext lib.isWord word rest (commandOf lib s.1 word) with
    | error =>
      rw [hwhole] at hparse
      cases hparse
    | ok message' =>
      cases hkept : parseNext lib.isWord word ((keptBehind (delim ++ rest)).drop 1) (commandOf lib s.1 word) with
      | error => simp [Except.toOption]
      | ok kept => simp [Except.toOption, hlead]

/-- A command without a `#` and without white space at its end is unchanged. -/
theorem unchangedInFile {s : PromptState} (hline : '\n' ∉ text) (hcomment : '#' ∉ text)
    (hlast : ∀ c, text.getLast? = some c → ¬ isWhitespace c) : UnchangedInFile lib s text := by
  obtain ⟨⟨lead, word, delim, rest⟩, hsplit⟩ : ∃ split, splitQuery lib.isWord text .word = split := ⟨_, rfl⟩
  obtain ⟨tail, rfl, rfl, rfl, -, -, -⟩ := splitAtClass_eq hline hsplit
  rw [UnchangedInFile, hsplit]
  simp only [List.mem_append, not_or] at hcomment
  have hkept : keptBehind tail = tail := by
    have htake : tail.takeWhile (· ≠ '#') = tail :=
      List.takeWhile_eq_self_iff.2 fun c hc => decide_eq_true (ne_of_mem_of_not_mem hc hcomment.2)
    rw [keptBehind, htake]
    refine trimEnd_of_last fun c hc => hlast c ?_
    rw [List.getLast?_append, hc]
    rfl
  dsimp only
  rw [List.take_append_drop, hkept]
  exact ⟨hcomment.1.1, rfl⟩

/-- A file of one line gives the message of the prompt exactly if the command is unchanged in it, as it is without a `#`
and without white space at its end. -/
theorem parseBatchCommands_line_iff {α : Type} (lib : Library) (hwords : CommandWords lib.isWord) (s : PromptState × α)
    (files : List Char → Option (List Char)) (add : List (List Char) → List Message → Option (List Message))
    (queue : List Message) (text file : List Char) (message : Message) (hline : '\n' ∉ text) (hsemicolon : ';' ∉ text)
    (hparse : parseIn lib s text = some message)
    (haside : (splitQuery lib.isWord text .word).2.1 ≠ "run_command_file".toList)
    (hfile : file = text ∨ file = text ++ ['\n']) :
    (parseBatchCommands files (parseIn lib s) add (lines file) queue = some ([message], queue) ↔
        UnchangedInFile lib s.1 text) ∧
      ('#' ∉ text → (∀ c, text.getLast? = some c → ¬ isWhitespace c) →
        parseBatchCommands files (parseIn lib s) add (lines file) queue = some ([message], queue)) := by
  have hiff : parseBatchCommands files (parseIn lib s) add (lines file) queue = some ([message], queue) ↔
      UnchangedInFile lib s.1 text :=
    parseBatchCommands_line_iff_unchanged hwords hline hsemicolon hparse haside hfile add queue
  exact ⟨hiff, fun hcomment hlast => hiff.2 (unchangedInFile hline hcomment hlast)⟩

theorem commandWords_asciiLibrary : CommandWords asciiLibrary.isWord where
  blank c hc := by
    have hword := wordClass_isAsciiWord.blank c hc
    simpa [asciiLibrary, isAsciiWord] using hword
  comma := by decide
  comment := by decide
  runsFile := List.all_eq_true.1 (by decide)

theorem parseBatchCommands_line_toggleMenu : parseBatchCommands (fun _ => none) (parseIn asciiLibrary shownState)
    (fun _ queue => some queue) (lines "toggle_menu".toList) [] = some ([.setMenuVisible false], []) :=
  (parseBatchCommands_line_iff asciiLibrary commandWords_asciiLibrary shownState (fun _ => none) (fun _ queue => some queue)
    [] "toggle_menu".toList "toggle_menu".toList (.setMenuVisible false) (by decide) (by decide) rfl (by decide)
    (.inl rfl)).2 (by decide) fun c hc => by
      obtain rfl : 'u' = c := Option.some.inj hc
      decide

/-- A marker that is named by its number is lost. -/
theorem parseBatchCommands_line_marker : ¬ ∀ (lib : Library) (s : PromptState × Unit)
    (files : List Char → Option (List Char)) (add : List (List Char) → List Message → Option (List Message))
    (text : List Char) (message : Message), CommandWords lib.isWord → '\n' ∉ text → ';' ∉ text →
    parseIn lib s text = some message → (splitQuery lib.isWord text .word).2.1 ≠ "run_command_file".toList →
    parseBatchCommands files (parseIn lib s) add (lines text) [] = some ([message], []) := by
  intro h
  have hparse : parseIn asciiLibrary shownState "goto_marker #1".toList = some (.goToMarkerPosition 1 0) := rfl
  have hresult := h asciiLibrary shownState (fun _ => none) (fun _ queue => some queue) _ _ commandWords_asciiLibrary
    (by decide) (by decide) hparse (by decide)
  have hunchanged := (parseBatchCommands_line_iff_unchanged commandWords_asciiLibrary (by decide) (by decide) hparse
    (by decide) (.inl rfl) _ _).1 hresult
  -- no argument is left
  exact absurd (congrArg (fun result => result.toOption.isSome) hunchanged.2) (by decide)

end Batch
