/-
# SeedGrammar.Repl.Seed — seeds as they are typed

A seed is written in ASCII digits with at most one plus sign in front, and its
value fits 64 bits. Leading zeros are allowed, so one seed has many spellings.
The line is scanned from the left and the first problem met decides: a character
that is no digit, or a value grown too large.
-/
namespace SeedGrammar.Repl

set_option autoImplicit false

inductive SeedError where
  | invalidDigit
  | tooLarge
  deriving DecidableEq, Repr

def SeedError.message : SeedError → String
  | invalidDigit => "invalid digit found in string"
  | tooLarge => "number too large to fit in target type"

/-- Reads on from a value in front of some digits. -/
def scanDigits (value : Nat) : List Char → Except SeedError Nat
  | [] => .ok value
  | c :: cs =>
    if c.isDigit then
      let value := 10 * value + (c.toNat - '0'.toNat)
      if value < UInt64.size then scanDigits value cs else .error .tooLarge
    else
      .error .invalidDigit

/-- One digit at least has to be there. -/
def scanNumber : List Char → Except SeedError Nat
  | [] => .error .invalidDigit
  | c :: cs => scanDigits 0 (c :: cs)

def readSeed (cs : List Char) : Except SeedError UInt64 :=
  UInt64.ofNat <$>
    match cs with
    | '+' :: rest => scanNumber rest
    | _ => scanNumber cs

end SeedGrammar.Repl
