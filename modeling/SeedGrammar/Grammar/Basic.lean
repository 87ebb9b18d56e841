/-
# SeedGrammar.Grammar.Basic — weighted children and how limits wire them

A grammar holds, for each production that has parts, the weights of its
children: how often each may be repeated within one expansion. A weight is a
positive number whose successor is still a word (`Weight`), so that inclusion
and repetition can both be drawn from it.

`setup` wires a grammar from `Limits`, from the top storey down. It stops at the
first weight that is refused; what it wired before stays wired, and the rest of
the grammar stays as it was. Children always stand on a lower storey than their
parent (`rank_lt_of_mem_children`).
-/
import SeedGrammar.Error

namespace SeedGrammar

set_option autoImplicit false

/-- How many times a child may be repeated, at least once and such that one more
is still a word. -/
abbrev Weight := { n : Nat // 0 < n ∧ n + 1 < UInt32.size }

def Weight.once : Weight := ⟨1, by decide⟩

/-! ## Children -/

structure Child where
  production : Production
  weight : Weight
  deriving DecidableEq

/-- A child with the weight that its parent asks for. -/
def Child.declare (parent production : Production) (weight : Nat) : Except Error Child :=
  if zero : weight = 0 then
    .error (.zeroWeight parent production)
  else if large : UInt32.size ≤ weight + 1 then
    .error (.weightTooLarge parent production)
  else
    .ok ⟨production, weight, by omega⟩

/-! ## Limits -/

/-- How often each part of a program may occur: units in a test case, imports
and free functions in a unit, member functions in a contract. -/
structure Limits where
  units : Nat := 3
  imports : Nat := 2
  members : Nat := 4
  freeFunctions : Nat := 2
  deriving DecidableEq, Repr

/-! ## Grammars -/

/-- The weights that vary among the children of a source unit. -/
structure ItemWeights where
  imports : Weight
  freeFunctions : Weight
  deriving DecidableEq

/-- The weights wired so far; a production that was never wired has no
children. -/
structure Grammar where
  units : Option Weight := none
  items : Option ItemWeights := none
  members : Option Weight := none
  deriving DecidableEq

namespace Grammar

/-- Imports, at most one pragma block, at most one contract, free functions. -/
def unitChildren (weights : ItemWeights) : List Child :=
  [⟨.importDirective, weights.imports⟩, ⟨.pragmaBlock, .once⟩, ⟨.contract, .once⟩,
    ⟨.function, weights.freeFunctions⟩]

def children (g : Grammar) : Production → List Child
  | .testCase => g.units.toList.map (⟨.sourceUnit, ·⟩)
  | .sourceUnit => (g.items.map unitChildren).getD []
  | .contract => g.members.toList.map (⟨.function, ·⟩)
  | .pragmaBlock => []
  | .importDirective => []
  | .function => []

theorem rank_lt_of_mem_children {g : Grammar} {p : Production} {c : Child}
    (declared : c ∈ g.children p) : c.production.rank < p.rank := by
  cases p with
  | testCase =>
    obtain ⟨w, _, rfl⟩ := List.mem_map.1 declared
    simp [Production.rank]
  | sourceUnit =>
    cases wired : g.items with
    | none => simp [children, wired] at declared
    | some w =>
      simp only [children, wired, unitChildren, Option.map_some, Option.getD_some,
        List.mem_cons, List.not_mem_nil, or_false] at declared
      rcases declared with rfl | rfl | rfl | rfl <;> simp [Production.rank]
  | contract =>
    obtain ⟨w, _, rfl⟩ := List.mem_map.1 declared
    simp [Production.rank]
  | pragmaBlock => simp [children] at declared
  | importDirective => simp [children] at declared
  | function => simp [children] at declared

/-! ## Wiring -/

/-- The weights of a unit's children, the imports looked at first. -/
def declareItems (limits : Limits) : Except Error ItemWeights := do
  let imports ← Child.declare .sourceUnit .importDirective limits.imports
  let functions ← Child.declare .sourceUnit .function limits.freeFunctions
  return ⟨imports.weight, functions.weight⟩

/-- Wires the grammar from the top storey down, up to the first weight that is
refused. -/
def setup (g : Grammar) (limits : Limits) : Except Error Unit × Grammar :=
  match Child.declare .testCase .sourceUnit limits.units with
  | .error e => (.error e, g)
  | .ok unit =>
    let g := { g with units := some unit.weight }
    match declareItems limits with
    | .error e => (.error e, g)
    | .ok items =>
      let g := { g with items := some items }
      match Child.declare .contract .function limits.members with
      | .error e => (.error e, g)
      | .ok member => (.ok (), { g with members := some member.weight })

/-- One grammar wired again and again; every result is kept and none stops the
rest. -/
def setupEach (g : Grammar) : List Limits → List (Except Error Unit) × Grammar
  | [] => ([], g)
  | limits :: rest =>
    let (result, g) := g.setup limits
    let (results, g) := g.setupEach rest
    (result :: results, g)

end Grammar

end SeedGrammar
