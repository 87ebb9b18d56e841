/-
# SeedGrammar.Text.Reader — reading from the front of a text

A `Reader` takes characters off the front of a text. Its `Reading` is the value
with the rest of the text, if it succeeded, and every `Miss` on the way: each
place where a character was looked at and another one was wanted. Misses are
kept from abandoned attempts too, in the order they were met, since what was
wanted furthest into the text tells best why it could not be read.

Readers decide by the first alternative that succeeds and repeat as often as
they can; neither is reconsidered later. Skipping white space misses nothing.
-/
import SeedGrammar.Text.Blank

namespace SeedGrammar.Text

set_option autoImplicit false

/-! ## Misses -/

/-- What would have been accepted in place of the character that was met. -/
inductive Expectation where
  | char (c : Char)
  | identifier
  | any
  | somethingElse
  | endOfInput
  deriving DecidableEq, Repr

inductive Miss where
  /-- Before `rest`, something else was wanted. -/
  | mismatch (rest : List Char) (wanted : Expectation)
  /-- The text ended inside an identifier, or where one had to begin. -/
  | cutShort
  deriving DecidableEq, Repr

structure Reading (α : Type) where
  value : Option (α × List Char)
  misses : List Miss

def Reader (α : Type) : Type := List Char → Reading α

namespace Reader

variable {α β : Type}

/-! ## Sequences and alternatives -/

def succeed (value : α) : Reader α := fun s => ⟨some (value, s), []⟩

def bind (reader : Reader α) (next : α → Reader β) : Reader β := fun s =>
  match reader s with
  | ⟨none, misses⟩ => ⟨none, misses⟩
  | ⟨some (value, rest), misses⟩ =>
    let tail := next value rest
    ⟨tail.value, misses ++ tail.misses⟩

instance : Monad Reader where
  pure := succeed
  bind := bind

/-- The second reader starts over where the first one failed. -/
def orElse (first second : Reader α) : Reader α := fun s =>
  match first s with
  | ⟨some result, misses⟩ => ⟨some result, misses⟩
  | ⟨none, misses⟩ =>
    let other := second s
    ⟨other.value, misses ++ other.misses⟩

/-- Whether the reader succeeds; nothing is taken where it does not. -/
def succeeds (reader : Reader α) : Reader Bool :=
  orElse (reader.bind fun _ => succeed true) (succeed false)

/-- Repeats a reader until it fails. -/
def manyWithin (reader : Reader α) : (fuel : Nat) → Reader (List α)
  | 0 => succeed []
  | fuel + 1 =>
    orElse
      (reader.bind fun first => (manyWithin reader fuel).bind fun rest => succeed (first :: rest))
      (succeed [])

/-- Repeats a reader until it fails. A reader that takes at least one character
each time succeeds at most as often as there are characters, and then fails
once, so `fuel` does not run out. -/
def many (reader : Reader α) : Reader (List α) := fun s =>
  reader.manyWithin (s.length + 1) s

/-- White space is skipped before the reader and, if it succeeds, after it. -/
def padded (reader : Reader α) : Reader α := fun s =>
  match reader (skipBlank s) with
  | ⟨none, misses⟩ => ⟨none, misses⟩
  | ⟨some (value, rest), misses⟩ => ⟨some (value, skipBlank rest), misses⟩

/-! ## Characters -/

def literalChars : List Char → Reader Unit
  | [], s => ⟨some ((), s), []⟩
  | c :: _, [] => ⟨none, [.mismatch [] (.char c)]⟩
  | c :: cs, d :: s =>
    if c = d then literalChars cs s else ⟨none, [.mismatch (d :: s) (.char c)]⟩

/-- These characters, one by one. -/
def literal (text : String) : Reader Unit :=
  literalChars text.toList

/-- Every character up to the first of `stops`. -/
def upTo (stops : List Char) : Reader (List Char) := fun s =>
  let (taken, rest) := s.span fun c => c ∉ stops
  ⟨some (taken, rest), [.mismatch rest .somethingElse]⟩

def isNameStart (c : Char) : Bool :=
  c.isAlpha || c == '_'

def isNamePart (c : Char) : Bool :=
  c.isAlphanum || c == '_'

/-- An identifier ended before `rest`, or did not begin there. -/
def nameEnd : List Char → Miss
  | [] => .cutShort
  | c :: rest => .mismatch (c :: rest) .identifier

/-- A letter or underscore of ASCII, and all letters, digits and underscores
after it. -/
def identifier : Reader (List Char)
  | [] => ⟨none, [nameEnd []]⟩
  | c :: s =>
    if isNameStart c then
      let (taken, rest) := s.span isNamePart
      ⟨some (c :: taken, rest), [nameEnd rest]⟩
    else
      ⟨none, [nameEnd (c :: s)]⟩

def endOfText : Reader Unit
  | [] => ⟨some ((), []), []⟩
  | c :: s => ⟨none, [.mismatch (c :: s) .endOfInput]⟩

end Reader

end SeedGrammar.Text
