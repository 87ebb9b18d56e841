/-
# SeedGrammar.Repl.Session — seeds in, programs out, line by line

A session reads lines of bytes to the end of its input. Before each line, and
before the end is met, it prints a prompt. What it answers to a line depends on
that line alone (`Turn.ofLine`): nothing for a blank one, a program for a seed,
a complaint for anything else. A line that is not UTF-8 ends the session.

The accepted seeds, as typed, are added to a history that is carried from one
session to the next wherever there is a place to keep it.
-/
import SeedGrammar.Generate
import SeedGrammar.Repl.History
import SeedGrammar.Repl.Seed
import SeedGrammar.Text.Blank

namespace SeedGrammar.Repl

set_option autoImplicit false

/-! ## Answers -/

/-- What a line of text is answered with. -/
inductive Answer where
  | silence
  | program (typed : String) (result : Except Error String)
  | rejected (typed : String) (error : SeedError)

namespace Answer

def ofText (line : String) : Answer :=
  match Text.trim line.toList with
  | [] => silence
  | typed =>
    match readSeed typed with
    | .ok seed => program (String.ofList typed) (generate seed)
    | .error e => rejected (String.ofList typed) e

def text : Answer → String
  | silence => ""
  | program _ (.ok text) => text ++ "\n"
  | program _ (.error e) => "Generation failed: " ++ e.message ++ "\n"
  | rejected typed e => "Invalid seed `" ++ typed ++ "`: " ++ e.message ++ "\n"

/-- The entry that the line adds to the history. -/
def accepted : Answer → List String
  | silence => []
  | program typed _ => [typed]
  | rejected _ _ => []

end Answer

/-! ## Turns -/

inductive Turn where
  | answered (answer : Answer)
  /-- The line is not UTF-8; nothing is read after it. -/
  | unreadable

namespace Turn

def ofLine (line : List UInt8) : Turn :=
  match String.fromUTF8? ⟨line.toArray⟩ with
  | some text => answered (.ofText text)
  | none => unreadable

def text : Turn → String
  | answered answer => answer.text
  | unreadable =>
    "Error: Io(Error \x7b kind: InvalidData, message: \"stream did not contain valid UTF-8\" \x7d)\n"

def accepted : Turn → List String
  | answered answer => answer.accepted
  | unreadable => []

end Turn

/-! ## Sessions -/

def banner : String := "Enter a seed to generate its test program.\n"

def prompt : String := "seed> "

def farewell : String := "Ctrl-D pressed. Exiting.\n"

/-- The byte that ends a line. -/
def newline : UInt8 := 10

/-- The turns that lines lead to, up to the first that is unreadable. -/
def turns : List (List UInt8) → List Turn
  | [] => []
  | line :: lines =>
    match Turn.ofLine line with
    | .answered answer => .answered answer :: turns lines
    | .unreadable => [.unreadable]

/-- What is printed from the first prompt on. -/
def dialogue : List Turn → String
  | [] => prompt ++ farewell
  | .answered answer :: rest => prompt ++ answer.text ++ dialogue rest
  | .unreadable :: _ => prompt ++ Turn.unreadable.text

/-- All that a session prints. -/
def output (input : List UInt8) : String :=
  banner ++ dialogue (turns (Text.splitLines newline input))

/-- The entries that a session adds, in order. -/
def accepted (input : List UInt8) : List String :=
  (turns (Text.splitLines newline input)).flatMap Turn.accepted

/-! ## What is kept between sessions -/

/-- Whether there is a place to keep a history in. -/
inductive StateHome where
  | usable
  | unusable
  deriving DecidableEq

/-- The history file after some entries, given its content before. Where nothing
is added it is left alone. -/
def savedWith (saved : Option String) (entries : List String) : Option String :=
  let before := (saved.map History.ofText).getD {}
  let after := before.addAll entries
  if after = before then saved else some after.text

/-- The history file after a session. -/
def savedAfter (saved : Option String) (input : List UInt8) : Option String :=
  savedWith saved (accepted input)

/-- Sessions that share a place for the history: what each prints, and the file
after it. -/
def sessionsFrom (home : StateHome) (saved : Option String) :
    List (List UInt8) → List (String × Option String)
  | [] => []
  | input :: inputs =>
    let saved := if home = .usable then savedAfter saved input else none
    (output input, saved) :: sessionsFrom home saved inputs

/-- Sessions that begin without a history. -/
def sessions (home : StateHome) (inputs : List (List UInt8)) : List (String × Option String) :=
  sessionsFrom home none inputs

end SeedGrammar.Repl
