/-
# SeedGrammar.Main — seeds read from standard input

Prints a prompt, reads a line, prints what the line is answered with, until the
input ends or a line cannot be read. The history is kept in the state directory
of the user, if there is one.
-/
import SeedGrammar.Repl.Session

namespace SeedGrammar.Main

set_option autoImplicit false

open Repl

/-- The place for state: `XDG_STATE_HOME` if that is an absolute path, else
below the home directory. -/
def stateHome : IO (Option String) := do
  match ← IO.getEnv "XDG_STATE_HOME" with
  | some dir => return if dir.startsWith "/" then some dir else none
  | none => return (← IO.getEnv "HOME").map (· ++ "/.local/state")

/-- The history file, in a directory made for it. -/
def historyFile : IO (Option String) := do
  let some home ← stateHome | return none
  let dir := home ++ "/seed-grammar"
  try
    IO.FS.createDirAll dir
    return some (dir ++ "/history")
  catch _ =>
    return none

/-- The content of the history file, if it can be read. -/
def readHistory (file : String) : IO (Option String) := do
  try
    return some (← IO.FS.readFile file)
  catch _ =>
    return none

/-- One line of bytes without its newline; `none` at the end of the input. -/
partial def readLine (stdin : IO.FS.Stream) (taken : Array UInt8) : IO (Option (List UInt8)) := do
  let bytes ← stdin.read 1
  match bytes.data.toList with
  | [] => return if taken.isEmpty then none else some taken.toList
  | b :: _ => if b = newline then return some taken.toList else readLine stdin (taken.push b)

/-- Takes turns up to the end, and collects the accepted entries. -/
partial def converse (stdin stdout : IO.FS.Stream) (entries : List String) : IO (List String) := do
  stdout.putStr prompt
  stdout.flush
  match ← readLine stdin #[] with
  | none =>
    stdout.putStr farewell
    return entries
  | some line =>
    let turn := Turn.ofLine line
    stdout.putStr turn.text
    match turn with
    | .unreadable => return entries
    | .answered answer => converse stdin stdout (entries ++ answer.accepted)

/-- Saves the history with the entries of this session, if it has changed. -/
def saveHistory (file : String) (saved : Option String) (entries : List String) : IO Unit := do
  let some content := savedWith saved entries | return
  if saved ≠ some content then
    try IO.FS.writeFile file content catch _ => return

end SeedGrammar.Main

open SeedGrammar SeedGrammar.Main in
def main : IO Unit := do
  let file ← historyFile
  let saved ← match file with
    | some file => readHistory file
    | none => pure none
  let stdout ← IO.getStdout
  stdout.putStr Repl.banner
  let entries ← converse (← IO.getStdin) stdout []
  stdout.flush
  if let some file := file then
    saveHistory file saved entries
