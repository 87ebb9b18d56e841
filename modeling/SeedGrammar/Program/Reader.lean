/-
# SeedGrammar.Program.Reader — test programs read back

White space may stand between any two tokens, and need not stand between words.
A unit's path ends at the first space or newline, an imported path at the first
quote, and a pragma directive at the first semicolon.
-/
import SeedGrammar.Program.Basic
import SeedGrammar.Text.Diagnostic

namespace SeedGrammar

set_option autoImplicit false

open Text Text.Reader

namespace Program.Reader

def functionDecl : Reader FunctionDecl := do
  literal "function"
  let name ← padded identifier
  literal "()"
  let isPublic ← succeeds (padded (literal "public"))
  padded (literal "pure")
  literal "\x7b\x7d"
  return ⟨String.ofList name, isPublic⟩

def importItem : Reader Item := do
  padded (literal "import")
  literal "\""
  let path ← upTo ['"']
  literal "\""
  literal ";"
  return .importing (String.ofList path)

def pragmaItem : Reader Item := do
  literal "pragma"
  let body ← upTo [';']
  literal ";"
  return .pragma ("pragma" ++ String.ofList body ++ ";")

def contractItem : Reader Item := do
  padded (literal "contract")
  let name ← identifier
  padded (literal "\x7b")
  let members ← many (padded functionDecl)
  literal "\x7d"
  return .contract ⟨String.ofList name, members⟩

def functionItem : Reader Item := do
  return .function (← functionDecl)

def item : Reader Item :=
  padded (importItem.orElse (pragmaItem.orElse (contractItem.orElse functionItem)))

/-- The line that introduces a unit, of which its path is kept. -/
def header : Reader String := do
  padded (literal "==== Source:")
  let path ← upTo [' ', '\n']
  literal " ===="
  return String.ofList path

def sourceUnit : Reader SourceUnit := do
  let path ← padded header
  let items ← many item
  return ⟨path, items⟩

def program : Reader Program := do
  let units ← padded (many sourceUnit)
  endOfText
  return ⟨units⟩

end Program.Reader

/-- The program that a text lays out, or where it stops making sense. -/
def Program.read (text : String) : Except Diagnostic Program :=
  Program.Reader.program.read text.toList

end SeedGrammar
