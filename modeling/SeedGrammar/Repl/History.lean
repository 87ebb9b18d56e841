/-
# SeedGrammar.Repl.History — the seeds accepted so far, as they are kept

A history file is a line that tells its version, followed by one line for each
entry, the oldest first. An entry equal to the newest one is not added again.
-/
import SeedGrammar.Text.Lines

namespace SeedGrammar.Repl

set_option autoImplicit false

structure History where
  entries : List String := []
  deriving DecidableEq

namespace History

def versionLine : String := "#V2"

def add (history : History) (entry : String) : History :=
  if history.entries.getLast? = some entry then history else ⟨history.entries ++ [entry]⟩

def addAll (history : History) (entries : List String) : History :=
  entries.foldl add history

/-- The content of a file that keeps this history. -/
def text (history : History) : String :=
  String.join ((versionLine :: history.entries).map (· ++ "\n"))

/-- The history in the content of a file: its lines but the first and any that
are empty. -/
def ofText (content : String) : History :=
  ⟨(((Text.splitLines '\n' content.toList).drop 1).filter (· ≠ [])).map String.ofList⟩

end History

end SeedGrammar.Repl
