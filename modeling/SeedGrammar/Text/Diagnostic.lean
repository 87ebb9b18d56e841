/-
# SeedGrammar.Text.Diagnostic — where and why a text could not be read

Of all misses in a reading, those furthest into the text explain why it failed.
A `Frontier` collects them in the order they were met: a miss further on
replaces what was collected, one at the same place joins it, one before it is
dropped. A text that ends inside an identifier is an exception: any character
could follow, and only that is kept.
-/
import SeedGrammar.Text.Reader

namespace SeedGrammar.Text

set_option autoImplicit false

/-- What was wanted before `rest`, the furthest point reached. -/
structure Frontier where
  rest : List Char
  wanted : List Expectation
  deriving DecidableEq

namespace Frontier

def note (f : Frontier) : Miss → Frontier
  | .cutShort => ⟨[], [.any]⟩
  | .mismatch rest wanted =>
    if rest.length < f.rest.length then
      ⟨rest, [wanted]⟩
    else if rest.length = f.rest.length then
      ⟨f.rest, f.wanted ++ [wanted]⟩
    else
      f

/-- The frontier of a reading of `text`. -/
def ofMisses (text : List Char) (misses : List Miss) : Frontier :=
  misses.foldl note ⟨text, []⟩

end Frontier

/-- The length of a text in the bytes of its UTF-8 form. -/
def utf8Length : List Char → Nat
  | [] => 0
  | c :: cs => c.utf8Size + utf8Length cs

/-- How an expectation is written in a diagnostic. -/
def Expectation.text : Expectation → String
  | char c => "'" ++ String.singleton c ++ "'"
  | identifier => "identifier"
  | any => "any"
  | somethingElse => "something else"
  | endOfInput => "end of input"

/-- The place of an error, in bytes, the character found there, if any, and what
was expected instead. -/
structure Diagnostic where
  start : Nat
  stop : Nat
  found : Option Char
  expected : List Expectation
  deriving DecidableEq, Repr

namespace Diagnostic

/-- The diagnostic that a frontier of `text` gives. -/
def ofFrontier (text : List Char) (f : Frontier) : Diagnostic :=
  let start := utf8Length text - utf8Length f.rest
  { start
    stop := start + utf8Length (f.rest.take 1)
    found := f.rest.head?
    expected := f.wanted }

/-- The expectations as written, each once, in the order of code points. -/
def expectedTexts (d : Diagnostic) : List String :=
  (d.expected.map Expectation.text).eraseDups.mergeSort fun a b => decide (a ≤ b)

end Diagnostic

/-- Reads a whole text. -/
def Reader.read {α : Type} (reader : Reader α) (text : List Char) : Except Diagnostic α :=
  match reader text with
  | ⟨some (value, _), _⟩ => .ok value
  | ⟨none, misses⟩ => .error (.ofFrontier text (.ofMisses text misses))

end SeedGrammar.Text
