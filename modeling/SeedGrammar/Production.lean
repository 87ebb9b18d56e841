/-
# SeedGrammar.Production — what a test program is made of

The productions form three storeys: a test case is made of source units, a
source unit of directives, contracts and free functions, a contract of member
functions. `rank` numbers the storeys from below.
-/
namespace SeedGrammar

set_option autoImplicit false

inductive Production where
  | testCase
  | sourceUnit
  | pragmaBlock
  | importDirective
  | contract
  | function
  deriving DecidableEq, Repr

namespace Production

/-- From the whole to its parts, the order in which a grammar is set up. -/
def all : List Production :=
  [testCase, sourceUnit, pragmaBlock, importDirective, contract, function]

theorem mem_all (p : Production) : p ∈ all := by
  cases p <;> decide

def name : Production → String
  | testCase => "TestCase"
  | sourceUnit => "SourceUnit"
  | pragmaBlock => "Pragma"
  | importDirective => "Import"
  | contract => "Contract"
  | function => "Function"

def rank : Production → Nat
  | testCase => 3
  | sourceUnit => 2
  | contract => 1
  | pragmaBlock => 0
  | importDirective => 0
  | function => 0

end Production

/-- Where a function is declared: at the level of its unit, where it is public,
or inside a contract. -/
inductive Scope where
  | free
  | member
  deriving DecidableEq, Repr

end SeedGrammar
