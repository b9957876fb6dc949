import Kahuna.Text.Basic

/-!
# Batch commands

The model of how `batch_commands.rs` reads command files. The commands of a file are split at line
ends and semicolons, and parsed one after the other. The message of a command goes to the end of the
queue when the whole file has been parsed. A `run_command_file` command reads its file at once, which
puts the messages of that file on the queue. The messages are executed in the order of the queue.

The parser of single commands and the file system are parameters. Reading goes as deep as the files
are nested, so that the functions take the depth to which they read.
-/

namespace Batch

open Text

/-- The lines of a text. -/
def lines (s : List Char) : List (List Char) :=
  let parts := s.splitOn '\n'
  let ended := parts.dropLast.map fun line =>
    if line.getLast? = some '\r' then line.dropLast else line
  match parts.getLast? with
  | none => ended
  | some last => if last.isEmpty then ended else ended ++ [last]

/-- The lines of a command file, none if it cannot be read. -/
def readCommandFile (files : List Char → Option (List Char)) (cmdFile : List Char) :
    List (List Char) :=
  ((files cmdFile).map lines).getD []

/-- The commands of a list of lines: comments are cut off, and a line may hold several commands. -/
def splitCommands (cmds : List (List Char)) : List (List Char) :=
  let stripped := cmds.map fun line => ((trim line).splitOn '#').headD []
  (stripped.filter fun line => !line.isEmpty).flatMap fun line => (line.splitOn ';').map trim

/-- A command as it is read from a file. -/
inductive BatchCommand where
  /-- Run another command file. -/
  | runCommandFile (path : List Char)
  /-- Run another command file, without saying which. -/
  | emptyPath
  /-- A command for the parser. -/
  | command (text : List Char)
  deriving DecidableEq, Repr

/-- What a command is. -/
def readBatchCommand (command : List Char) : BatchCommand :=
  match stripPrefix "run_command_file ".toList command with
  | some pathStr =>
    let pathStr := trimMatches '"' (trim pathStr)
    if pathStr.isEmpty then .emptyPath else .runCommandFile pathStr
  | none => .command command

variable {Msg : Type} (files : List Char → Option (List Char)) (parse : List Char → Option Msg)

/-- One command: the messages of this file so far, and the queue. -/
def parseStep (add : List (List Char) → List Msg → Option (List Msg))
    (state : List Msg × List Msg) (command : List Char) : Option (List Msg × List Msg) :=
  match readBatchCommand command with
  | .runCommandFile path =>
    (add (readCommandFile files path) state.2).map fun queue => (state.1, queue)
  | .emptyPath => some state
  | .command text => some (state.1 ++ (parse text).toList, state.2)

/-- The messages of a list of commands, and the queue after the files that they run. -/
def parseBatchCommands (add : List (List Char) → List Msg → Option (List Msg))
    (cmds : List (List Char)) (queue : List Msg) : Option (List Msg × List Msg) :=
  (splitCommands cmds).foldlM (parseStep files parse add) ([], queue)

/-- The queue after a list of commands has been added, as far as files are nested to some depth. -/
def addBatchCommands : ℕ → List (List Char) → List Msg → Option (List Msg)
  | 0, _, _ => none
  | depth + 1, cmds, queue =>
    (parseBatchCommands files parse (addBatchCommands depth) cmds queue).map fun state =>
      state.2 ++ state.1

end Batch
