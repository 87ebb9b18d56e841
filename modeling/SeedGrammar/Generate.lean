/-
# SeedGrammar.Generate — test programs from seeds

A test program is the text of one expanded test case, by a walker with fresh
dice and an empty roster, in a grammar wired from some limits.
-/
import SeedGrammar.Grammar.Expansion

namespace SeedGrammar

set_option autoImplicit false

/-- The program that a seed decides within some limits. -/
def generateWith (seed : UInt64) (limits : Limits) : Except Error String :=
  match ({} : Grammar).setup limits with
  | (.error e, _) => .error e
  | (.ok (), g) => ((g.expand .testCase).run (.ofSeed seed)).1.map Line.textOf

/-- The program that a seed decides within the usual limits. -/
def generate (seed : UInt64) : Except Error String :=
  generateWith seed {}

end SeedGrammar
