/-
# SeedGrammar.Error — why a walk or a grammar is refused

An error says that a grammar was declared with a weight nothing can be drawn
from, or that an operation on units was asked for before there were units to
work on. A production with nothing to say is not an error.
-/
import SeedGrammar.Production

namespace SeedGrammar

set_option autoImplicit false

inductive Error where
  /-- No unit has been added. -/
  | noUnit
  /-- The current path names no unit on the roster. -/
  | unknownUnit (path : String)
  /-- A choice among paths needs more units than there are. -/
  | tooFewUnits (required found : Nat)
  /-- The indentation of a unit is already at the margin. -/
  | atMargin (path : String)
  /-- A child that may never be repeated. -/
  | zeroWeight (parent child : Production)
  /-- A weight so large that its successor is no longer a word. -/
  | weightTooLarge (parent child : Production)
  deriving DecidableEq, Repr

namespace Error

def message : Error → String
  | noUnit => "no source unit has been added yet"
  | unknownUnit path => "unknown source unit `" ++ path ++ "`"
  | tooFewUnits required found =>
    "need at least " ++ toString required ++ " source units, found " ++ toString found
  | atMargin path => "indentation of `" ++ path ++ "` would become negative"
  | zeroWeight parent child =>
    parent.name ++ " declares " ++ child.name ++ " with a zero repeat weight"
  | weightTooLarge parent child =>
    parent.name ++ " declares " ++ child.name ++ " with a repeat weight of u32::MAX"

end Error

end SeedGrammar
