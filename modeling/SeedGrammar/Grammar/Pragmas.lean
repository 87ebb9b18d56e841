/-
# SeedGrammar.Grammar.Pragmas — the directives of a pragma block
-/
namespace SeedGrammar.Pragmas

set_option autoImplicit false

/-- Any of these may stand in a block. -/
def generic : List String :=
  ["pragma solidity >= 0.0.0;", "pragma experimental SMTChecker;"]

/-- Exactly one of these stands in every block. -/
def abiCoders : List String :=
  ["pragma abicoder v1;", "pragma abicoder v2;"]

end SeedGrammar.Pragmas
