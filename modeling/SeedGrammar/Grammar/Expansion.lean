/-
# SeedGrammar.Grammar.Expansion — productions expanded into lines

Every production is a walk that ends with lines of text. A production with parts
takes them as a list of `Offer`s: in a shuffled order, each offer is either
passed over or expanded a number of times that its weight bounds (`descend`).

A grammar is a tower of three storeys, so each storey is written in terms of the
one below it and nothing is recursive. `expand` names the walk of each
production; `expand_eq` says that a walk descends exactly into the children that
the grammar declares.
-/
import SeedGrammar.Grammar.Basic
import SeedGrammar.Grammar.Pragmas
import SeedGrammar.Program.Line
import SeedGrammar.Walk.Operations

namespace SeedGrammar

set_option autoImplicit false

open Walk

/-! ## Descending into parts -/

/-- A part that may be expanded up to `weight` times. -/
structure Offer where
  weight : Weight
  expansion : Walk (List Line)

/-- The lines of `n` walks, one after another. -/
def Walk.repeated (walk : Walk (List Line)) : Nat → Walk (List Line)
  | 0 => return []
  | n + 1 => do
    let first ← walk
    let rest ← walk.repeated n
    return first ++ rest

namespace Offer

/-- Taken once in `weight + 1` times, and then between once and `weight` times
in a row. -/
def take (offer : Offer) : Walk (List Line) := do
  if ← likely ⟨offer.weight.val + 1, Nat.succ_pos _⟩ then
    offer.expansion.repeated (← uniform ⟨offer.weight.val, offer.weight.property.1⟩)
  else
    return []

def takeEach : List Offer → Walk (List Line)
  | [] => return []
  | offer :: offers => do
    let first ← offer.take
    let rest ← takeEach offers
    return first ++ rest

end Offer

/-- Takes every offer, in a shuffled order. -/
def descend (offers : List Offer) : Walk (List Line) := do
  Offer.takeEach (← shuffle offers)

/-! ## Productions without parts -/

namespace Expansion

/-- A function named and indented for the current unit, public where functions
are free. -/
def function : Walk (List Line) := do
  expanding .function
  let name ← nameFunction
  let level ← level
  return [.function level name ((← scope) = .free)]

/-- A directive for some other unit, or nothing where there is no other unit or
the one drawn is imported already. -/
def importDirective : Walk (List Line) := do
  expanding .importDirective
  if (← survey).size < 2 then
    return []
  let path ← otherPath
  if ← addImport path then
    return [.importing path]
  else
    return []

/-- Some of the generic pragmas and one abi coder, in sorted order. -/
def pragmaBlock : Walk (List Line) := do
  expanding .pragmaBlock
  let generic ← subset Pragmas.generic
  let coder ← choose Pragmas.abiCoders (by decide)
  return (sortPaths (generic ++ [coder])).map .pragma

end Expansion

/-! ## Productions with parts -/

namespace Grammar

/-- The name and the indentation of a contract belong to the unit outside; its
members are written in a scope of their own. -/
def contract (g : Grammar) : Walk (List Line) := do
  expanding .contract
  let name ← nameContract
  let level ← level
  let members := g.members.toList.map fun weight => ⟨weight, Expansion.function⟩
  let body ← memberScope (descend members)
  return .opening level name :: body ++ [.closing level]

def unitOffers (g : Grammar) (weights : ItemWeights) : List Offer :=
  [⟨weights.imports, Expansion.importDirective⟩, ⟨.once, Expansion.pragmaBlock⟩,
    ⟨.once, g.contract⟩, ⟨weights.freeFunctions, Expansion.function⟩]

/-- A unit is on the roster before its parts are expanded. -/
def sourceUnit (g : Grammar) : Walk (List Line) := do
  expanding .sourceUnit
  let path ← addUnit
  let body ← descend ((g.items.map g.unitOffers).getD [])
  return .header path :: body

def testCase (g : Grammar) : Walk (List Line) := do
  expanding .testCase
  descend (g.units.toList.map fun weight => ⟨weight, g.sourceUnit⟩)

def expand (g : Grammar) : Production → Walk (List Line)
  | .testCase => g.testCase
  | .sourceUnit => g.sourceUnit
  | .pragmaBlock => Expansion.pragmaBlock
  | .importDirective => Expansion.importDirective
  | .contract => g.contract
  | .function => Expansion.function

/-- Children as parts to descend into. -/
def offers (g : Grammar) (children : List Child) : List Offer :=
  children.map fun child => ⟨child.weight, g.expand child.production⟩

/-! ## Walks follow the declared children -/

theorem offers_testCase (g : Grammar) :
    g.offers (g.children .testCase) = g.units.toList.map fun weight => ⟨weight, g.sourceUnit⟩ := by
  simp [offers, children, expand]

theorem offers_sourceUnit (g : Grammar) :
    g.offers (g.children .sourceUnit) = (g.items.map g.unitOffers).getD [] := by
  cases wired : g.items <;> simp [offers, children, unitChildren, unitOffers, expand, wired]

theorem offers_contract (g : Grammar) :
    g.offers (g.children .contract) =
      g.members.toList.map fun weight => ⟨weight, Expansion.function⟩ := by
  simp [offers, children, expand]

/-- What stands around the parts of a production. -/
theorem expand_eq (g : Grammar) (p : Production) :
    g.expand p =
      match p with
      | .testCase => do
        expanding .testCase
        descend (g.offers (g.children .testCase))
      | .sourceUnit => do
        expanding .sourceUnit
        let path ← addUnit
        let body ← descend (g.offers (g.children .sourceUnit))
        return .header path :: body
      | .contract => do
        expanding .contract
        let name ← nameContract
        let level ← level
        let body ← memberScope (descend (g.offers (g.children .contract)))
        return .opening level name :: body ++ [.closing level]
      | .pragmaBlock => Expansion.pragmaBlock
      | .importDirective => Expansion.importDirective
      | .function => Expansion.function := by
  cases p with
  | testCase => rw [offers_testCase]; rfl
  | sourceUnit => rw [offers_sourceUnit]; rfl
  | contract => rw [offers_contract]; rfl
  | pragmaBlock => rfl
  | importDirective => rfl
  | function => rfl

end Grammar

end SeedGrammar
