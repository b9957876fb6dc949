import Kahuna.FileHistory.Labels
import Kahuna.Recency.Basic

/-!
# Recent files

The model of `FileHistory` (`file_history.rs`). Each start of the program loads the list of recent files from a file on
disk, and each wave file that is opened moves to the front of the list, which is cut off at a limit and saved. Paths
are compared by their components, which are a parameter. Of the file on disk only what can be read from it matters.

* `sound_after`: the list is no longer than its limit, and has no file twice;
* `files_after`: the list has the files that were opened last, over all starts of the program.
-/

namespace FileHistory

open Recency

/-- `FileHistory`. -/
structure FileHistory where
  files : List (List Char)
  maxEntries : ℕ
  deriving DecidableEq, Repr

/-- `is_connection_entry`. -/
def isConnectionEntry (path : List Char) : Bool :=
  "http://".toList.isPrefixOf path || "https://".toList.isPrefixOf path || "ws://".toList.isPrefixOf path ||
    "wss://".toList.isPrefixOf path || "cxxrtl+tcp://".toList.isPrefixOf path

/-- `truncate_to_limit`. -/
def truncateToLimit (history : FileHistory) : FileHistory :=
  { history with files := history.files.take history.maxEntries }

/-- `load_from_disk`. -/
def loadFromDisk (disk : Option (List (List Char))) (history : FileHistory) : FileHistory :=
  match disk with
  | none => history
  | some files => { history with files }

/-- `load`. -/
def load (disk : Option (List (List Char))) (maxEntries : ℕ) : FileHistory :=
  truncateToLimit (loadFromDisk disk { files := [], maxEntries })

/-- Whether `add` takes a file. -/
def takes (history : FileHistory) (file : List Char) : Bool :=
  !(history.maxEntries = 0 || isConnectionEntry file)

section Components

variable {κ : Type} [DecidableEq κ] (components : List Char → κ)

/-- The list after `add`. -/
def add (history : FileHistory) (file : List Char) : FileHistory :=
  if takes history file then truncateToLimit { history with files := touch components file history.files }
  else history

/-! ## Starts of the program -/

/-- The program and the history file. -/
structure Machine where
  /-- The files of the history file, if there are any to be read. -/
  disk : Option (List (List Char))
  fileHistory : Option FileHistory
  deriving DecidableEq, Repr

/-- What happens. -/
inductive Event where
  /-- The program starts. -/
  | start (maxEntries : ℕ)
  /-- `record_file_history`, with the path of the source. The file may fail to be saved. -/
  | recorded (path : Option (List Char)) (saved : Bool)

/-- One event. -/
def Machine.next (m : Machine) : Event → Machine
  | .start maxEntries => { m with fileHistory := some (load m.disk maxEntries) }
  | .recorded none _ => m
  | .recorded (some file) saved =>
    match m.fileHistory with
    | none => m
    | some history =>
      let added := add components history file
      { disk := if takes history file && saved then some added.files else m.disk
        fileHistory := some added }

/-- All events. -/
def Machine.after (m : Machine) (events : List Event) : Machine :=
  events.foldl (Machine.next components) m

end Components

/-- The file of an event that is a file for the list. -/
def Event.file : Event → Option (List Char)
  | .recorded (some file) _ => if isConnectionEntry file then none else some file
  | _ => none

/-- The limits are no smaller, and what is recorded is saved. -/
def Event.Keeps (n : ℕ) : Event → Prop
  | .start maxEntries => n ≤ maxEntries
  | .recorded _ saved => saved = true

theorem filterMap_file_cons (e : Event) (events : List Event) :
    (e :: events).filterMap Event.file = e.file.toList ++ events.filterMap Event.file := by
  rw [List.filterMap_cons]
  cases e.file with
  | none => rfl
  | some file => rfl

/-- The files that the next start finds. -/
def stored (disk : Option (List (List Char))) : List (List Char) := disk.getD []

theorem load_eq (disk : Option (List (List Char))) (maxEntries : ℕ) :
    load disk maxEntries = { files := (stored disk).take maxEntries, maxEntries } := by
  cases disk with
  | none => rfl
  | some files => rfl

section After

variable {κ : Type} [DecidableEq κ] {components : List Char → κ} {m : Machine} {history : FileHistory}

theorem maxEntries_add (history : FileHistory) (file : List Char) :
    (add components history file).maxEntries = history.maxEntries := by
  rw [add]
  split <;> rfl

/-- What holds of the list and of the one that is stored, whatever happens. -/
structure Sound (components : List Char → κ) (opened : List (List Char)) (m : Machine) : Prop where
  distinct_stored : Distinct components (stored m.disk)
  stored_subset : ∀ file ∈ stored m.disk, file ∈ opened
  history : ∀ history, m.fileHistory = some history → Distinct components history.files ∧
    history.files.length ≤ history.maxEntries ∧ ∀ file ∈ history.files, file ∈ opened

theorem distinct_add (h : Distinct components history.files) (file : List Char) :
    Distinct components (add components history file).files := by
  rw [add]
  split
  · exact (h.touch file).sublist (List.take_sublist _ _)
  · exact h

theorem length_add_le (h : history.files.length ≤ history.maxEntries) (file : List Char) :
    (add components history file).files.length ≤ history.maxEntries := by
  rw [add]
  split
  · rw [truncateToLimit, List.length_take]
    exact Nat.min_le_left _ _
  · exact h

theorem mem_files_add {file other : List Char} (h : other ∈ (add components history file).files) :
    other ∈ history.files ∨ other = file ∧ takes history file = true := by
  rw [add] at h
  split at h
  next htakes =>
    rcases List.mem_cons.1 (List.mem_of_mem_take h) with rfl | hother
    · exact Or.inr ⟨rfl, htakes⟩
    · exact Or.inl (List.mem_filter.1 hother).1
  next => exact Or.inl h

theorem file_of_takes {file : List Char} {saved : Bool} (h : takes history file = true) :
    (Event.recorded (some file) saved).file = some file := by
  rw [takes, Bool.not_eq_true', Bool.or_eq_false_iff] at h
  rw [Event.file, h.2]
  rfl

theorem Sound.next {opened : List (List Char)} (h : Sound components opened m) (e : Event) :
    Sound components (opened ++ e.file.toList) (m.next components e) := by
  have hstored : ∀ file ∈ stored m.disk, file ∈ opened ++ e.file.toList :=
    fun file hfile => List.mem_append_left _ (h.stored_subset file hfile)
  cases e with
  | start maxEntries =>
    -- a start reads what is stored, up to its limit
    refine ⟨h.distinct_stored, hstored, ?_⟩
    rintro _ ⟨⟩
    rw [load_eq]
    refine ⟨h.distinct_stored.sublist (List.take_sublist _ _), ?_, fun file hfile =>
      hstored file (List.mem_of_mem_take hfile)⟩
    rw [List.length_take]
    exact Nat.min_le_left _ _
  | recorded path saved =>
    cases path with
    | none =>
      rw [Machine.next, Event.file]
      · rw [Option.toList_none, List.append_nil]
        exact h
      · rintro _ _ ⟨⟩
    | some file =>
      rw [Machine.next]
      cases hhistory : m.fileHistory with
      | none => exact ⟨h.distinct_stored, hstored, fun history hsome => by simp [hhistory] at hsome⟩
      | some history =>
        obtain ⟨hdistinct, hlength, hsubset⟩ := h.history history hhistory
        have hadded : ∀ other ∈ (add components history file).files,
            other ∈ opened ++ (Event.recorded (some file) saved).file.toList := by
          intro other hother
          rcases mem_files_add hother with hother | ⟨rfl, htakes⟩
          · exact List.mem_append_left _ (hsubset other hother)
          · rw [file_of_takes htakes]
            exact List.mem_concat_self
        have hhistory' : ∀ history', some (add components history file) = some history' →
            Distinct components history'.files ∧ history'.files.length ≤ history'.maxEntries ∧
              ∀ other ∈ history'.files, other ∈ opened ++ (Event.recorded (some file) saved).file.toList := by
          rintro _ ⟨⟩
          refine ⟨distinct_add hdistinct file, ?_, hadded⟩
          rw [maxEntries_add]
          exact length_add_le hlength file
        dsimp only
        split
        · -- what is saved is what the next start finds
          exact ⟨distinct_add hdistinct file, hadded, hhistory'⟩
        · exact ⟨h.distinct_stored, hstored, hhistory'⟩

theorem sound_run {opened : List (List Char)} (h : Sound components opened m) (events : List Event) :
    Sound components (opened ++ events.filterMap Event.file) (m.after components events) := by
  induction events generalizing m opened with
  | nil => simpa [Machine.after] using h
  | cons e events ih =>
    have hrun := ih (h.next e)
    rw [List.append_assoc, ← filterMap_file_cons] at hrun
    exact hrun

/-- The list agrees with the files that were opened last, as the stored list does. -/
structure Agrees (components : List Char → κ) (n : ℕ) (opened : List (List Char)) (m : Machine) : Prop where
  take_stored : (stored m.disk).take n = (recent components opened).take n
  history : ∃ history, m.fileHistory = some history ∧ n ≤ history.maxEntries ∧
    history.files.take n = (recent components opened).take n

theorem take_add {n : ℕ} {opened : List (List Char)} {file : List Char} (hdistinct : Distinct components history.files)
    (hmax : n ≤ history.maxEntries) (htakes : takes history file = true)
    (h : history.files.take n = (recent components opened).take n) :
    (add components history file).files.take n = (recent components (opened ++ [file])).take n := by
  rw [add, if_pos htakes, truncateToLimit, List.take_take, Nat.min_eq_left hmax, recent_concat]
  exact take_touch hdistinct (distinct_recent components opened) file h

theorem Agrees.next {n : ℕ} {opened : List (List Char)} (hsound : Sound components opened m)
    (h : Agrees components n opened m) {e : Event} (hkeeps : e.Keeps n) :
    Agrees components n (opened ++ e.file.toList) (m.next components e) := by
  obtain ⟨history, hhistory, hmax, htake⟩ := h.history
  cases e with
  | start maxEntries =>
    rw [Event.file, Option.toList_none, List.append_nil]
    · refine ⟨h.take_stored, load m.disk maxEntries, rfl, ?_⟩
      rw [load_eq]
      refine ⟨hkeeps, ?_⟩
      rw [List.take_take, Nat.min_eq_left hkeeps, h.take_stored]
    · rintro _ _ ⟨⟩
  | recorded path saved =>
    cases path with
    | none =>
      rw [Machine.next, Event.file, Option.toList_none, List.append_nil]
      · exact h
      · rintro _ _ ⟨⟩
    | some file =>
      obtain rfl : saved = true := hkeeps
      rw [Machine.next, hhistory]
      dsimp only
      by_cases htakes : takes history file = true
      · have hadded := take_add ((hsound.history history hhistory).1) hmax htakes htake
        rw [if_pos (by rw [htakes]; rfl), file_of_takes htakes, Option.toList_some]
        refine ⟨hadded, _, rfl, ?_, hadded⟩
        rwa [maxEntries_add]
      · rw [if_neg (by simp [htakes]), add, if_neg htakes]
        by_cases hzero : history.maxEntries = 0
        · -- nothing is asked of a list without entries
          obtain rfl : n = 0 := by omega
          exact ⟨by rw [List.take_zero, List.take_zero], history, rfl, hmax, by rw [List.take_zero, List.take_zero]⟩
        · -- the file is a connection, which is not recorded
          have hfile : (Event.recorded (some file) true).file = none := by
            simpa [takes, hzero, Event.file] using htakes
          rw [hfile, Option.toList_none, List.append_nil]
          exact ⟨h.take_stored, history, rfl, hmax, htake⟩

theorem agrees_run {n : ℕ}
    {opened : List (List Char)} (hsound : Sound components opened m) (h : Agrees components n opened m)
    (events : List Event) (hkeeps : ∀ e ∈ events, e.Keeps n) :
    Agrees components n (opened ++ events.filterMap Event.file) (m.after components events) := by
  induction events generalizing m opened with
  | nil => simpa [Machine.after] using h
  | cons e events ih =>
    rw [List.forall_mem_cons] at hkeeps
    have hrun := ih (hsound.next e) (h.next hsound hkeeps.1) hkeeps.2
    rw [List.append_assoc, ← filterMap_file_cons] at hrun
    exact hrun

omit [DecidableEq κ] in
theorem sound_start (hdisk : Distinct components (stored m.disk)) (hhistory : m.fileHistory = none) :
    Sound components (stored m.disk).reverse m where
  distinct_stored := hdisk
  stored_subset _ hfile := List.mem_reverse.2 hfile
  history _ hsome := by
    rw [hhistory] at hsome
    cases hsome

end After

/-- The components of a path on a system with slashes: whether it begins at the root, whether it begins with a dot, and
the names. -/
def unixComponents (path : List Char) : Bool × Bool × List (List Char) :=
  let parts := path.splitOn '/'
  (path.head? = some '/', parts.head? = some ['.'], parts.filter fun part => part ≠ [] ∧ part ≠ ['.'])

/-- A file is opened under two names, and a server in between, with two starts. -/
def twoStarts : List Event := [
  .recorded (some "dump/cpu.vcd".toList) true,
  .recorded (some "bus.fst".toList) true,
  .start 2,
  .recorded (some "wss://host/".toList) true,
  .recorded none true,
  .recorded (some "dump//cpu.vcd".toList) true]

/-- In every run, the list is no longer than its limit, has no file twice, and has no files but those that were stored
before and those that were opened and are none of a connection. -/
theorem sound_after {κ : Type} [DecidableEq κ] (components : List Char → κ) (disk : Option (List (List Char)))
    (events : List Event) (hdisk : Distinct components (stored disk)) (history : FileHistory)
    (h : (Machine.after components ⟨disk, none⟩ events).fileHistory = some history) :
    Distinct components history.files ∧ history.files.length ≤ history.maxEntries ∧
      ∀ file ∈ history.files, file ∈ stored disk ∨ file ∈ events.filterMap Event.file := by
  have hsound := sound_run (sound_start (m := ⟨disk, none⟩) hdisk rfl) events
  obtain ⟨hdistinct, hlength, hsubset⟩ := hsound.history history h
  refine ⟨hdistinct, hlength, fun file hfile => ?_⟩
  rcases List.mem_append.1 (hsubset file hfile) with hfile | hfile
  · exact Or.inl (List.mem_reverse.1 hfile)
  · exact Or.inr hfile

theorem sound_after_twoStarts :
    Distinct unixComponents ["dump//cpu.vcd".toList, "bus.fst".toList] ∧ 2 ≤ 2 ∧
      ∀ file ∈ ["dump//cpu.vcd".toList, "bus.fst".toList],
        file ∈ stored (some ["old.ghw".toList]) ∨ file ∈ (.start 3 :: twoStarts).filterMap Event.file :=
  sound_after unixComponents (some ["old.ghw".toList]) (.start 3 :: twoStarts) (List.pairwise_singleton _ _)
    ⟨["dump//cpu.vcd".toList, "bus.fst".toList], 2⟩ (by decide +kernel)

/-- In every run of starts with limits of `n` or more, where what is recorded is saved, the first `n` files of the
list are the `n` files that were opened last, over all starts. -/
theorem files_after {κ : Type} [DecidableEq κ] (components : List Char → κ) (disk : Option (List (List Char)))
    (n maxEntries : ℕ) (events : List Event)
    (hdisk : Distinct components (stored disk)) (hmax : n ≤ maxEntries) (hkeeps : ∀ e ∈ events, e.Keeps n) :
    ∃ history, (Machine.after components ⟨disk, none⟩ (.start maxEntries :: events)).fileHistory = some history ∧
      history.files.take n
        = (recent components ((stored disk).reverse ++ events.filterMap Event.file)).take n ∧
      (history.maxEntries = n → history.files
        = (recent components ((stored disk).reverse ++ events.filterMap Event.file)).take n) := by
  have hfirst : (Event.start maxEntries).file = none := by
    rw [Event.file]
    rintro _ _ ⟨⟩
  have hsound := (sound_start (m := ⟨disk, none⟩) hdisk rfl).next (.start maxEntries)
  rw [hfirst, Option.toList_none, List.append_nil] at hsound
  have hstored : (stored disk).take n = (recent components (stored disk).reverse).take n := by
    rw [recent_reverse hdisk]
  have hagrees : Agrees components n (stored disk).reverse
      (Machine.next components ⟨disk, none⟩ (.start maxEntries)) := by
    refine ⟨hstored, load disk maxEntries, rfl, ?_⟩
    rw [load_eq]
    refine ⟨hmax, ?_⟩
    rw [List.take_take, Nat.min_eq_left hmax, hstored]
  obtain ⟨history, hhistory, -, htake⟩ := (agrees_run hsound hagrees events hkeeps).history
  refine ⟨history, hhistory, htake, fun hn => ?_⟩
  obtain ⟨-, hlength, -⟩ := (sound_run hsound events).history history hhistory
  rw [← htake, List.take_of_length_le (by omega)]

theorem files_after_twoStarts : ∃ history, (Machine.after unixComponents ⟨some ["old.ghw".toList], none⟩
      (.start 3 :: twoStarts)).fileHistory = some history ∧
    history.files.take 2 = (recent unixComponents
      ((stored (some ["old.ghw".toList])).reverse ++ twoStarts.filterMap Event.file)).take 2 ∧
    (history.maxEntries = 2 → history.files = (recent unixComponents
      ((stored (some ["old.ghw".toList])).reverse ++ twoStarts.filterMap Event.file)).take 2) := by
  refine files_after unixComponents (some ["old.ghw".toList]) 2 3 twoStarts (List.pairwise_singleton _ _) (by decide)
    fun e he => ?_
  simp only [twoStarts, List.mem_cons, List.not_mem_nil, or_false] at he
  rcases he with rfl | rfl | rfl | rfl | rfl | rfl
  · rfl
  · rfl
  · exact le_refl 2
  · rfl
  · rfl
  · rfl

end FileHistory
