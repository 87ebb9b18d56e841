/-
# SeedGrammar.Roster — the units of a program and what is known of each

A roster keeps, in order of registration, every unit by its path: which paths it
imports, how many contracts and functions it has named, the names given last,
and its indentation. One unit is current: the one added last. Operations on "the
unit" are about it and are refused where there is none; a refused operation
leaves the roster as it was.

Paths are numbered from `su0.sol`, names within a unit from `C0` and `f0`.
-/
import SeedGrammar.Error

namespace SeedGrammar

set_option autoImplicit false

/-! ## Names -/

def unitPath (n : Nat) : String := "su" ++ toString n ++ ".sol"

def contractName (n : Nat) : String := "C" ++ toString n

def functionName (n : Nat) : String := "f" ++ toString n

/-! ## One unit -/

structure UnitRecord where
  /-- The imported paths, each once, in the order they were recorded. -/
  imports : List String := []
  /-- How many contracts have been named. -/
  contracts : Nat := 0
  /-- How many functions have been named. -/
  functions : Nat := 0
  /-- The indentation, in levels. -/
  level : Nat := 0
  /-- The contract named last. -/
  contract : Option String := none
  /-- The function named last. -/
  function : Option String := none
  deriving DecidableEq, Repr

/-- What is known of a unit just added. -/
def UnitRecord.blank : UnitRecord := {}

/-- Paths in the order of their code points. -/
def sortPaths (paths : List String) : List String :=
  paths.mergeSort fun p q => decide (p ≤ q)

namespace UnitRecord

def nameContract (unit : UnitRecord) : String × UnitRecord :=
  let name := contractName unit.contracts
  (name, { unit with contracts := unit.contracts + 1, contract := some name })

def nameFunction (unit : UnitRecord) : String × UnitRecord :=
  let name := functionName unit.functions
  (name, { unit with functions := unit.functions + 1, function := some name })

def sortedImports (unit : UnitRecord) : List String :=
  sortPaths unit.imports

end UnitRecord

/-! ## The roster -/

structure Roster where
  units : List (String × UnitRecord) := []
  current : Option String := none
  /-- How many paths have been given out. -/
  minted : Nat := 0
  deriving DecidableEq, Repr

namespace Roster

def size (roster : Roster) : Nat := roster.units.length

def unit? (roster : Roster) (path : String) : Option UnitRecord :=
  roster.units.lookup path

/-- Every path, in the order of code points. -/
def paths (roster : Roster) : List String :=
  sortPaths (roster.units.map Prod.fst)

def currentPath (roster : Roster) : Except Error String :=
  match roster.current with
  | none => .error .noUnit
  | some path => .ok path

def currentUnit (roster : Roster) : Except Error UnitRecord :=
  match roster.current with
  | none => .error .noUnit
  | some path =>
    match roster.unit? path with
    | none => .error (.unknownUnit path)
    | some unit => .ok unit

def level (roster : Roster) : Except Error Nat :=
  roster.currentUnit.map UnitRecord.level

/-- Registers a unit under the next path and makes it the current one. -/
def addUnit (roster : Roster) : String × Roster :=
  let path := unitPath roster.minted
  (path, ⟨roster.units ++ [(path, .blank)], some path, roster.minted + 1⟩)

/-- Replaces what is known of the unit at a path. -/
def put (roster : Roster) (path : String) (unit : UnitRecord) : Roster :=
  { roster with units := roster.units.map fun entry =>
      if entry.1 = path then (path, unit) else entry }

/-- Does something to the current unit, which may be refused. -/
def withCurrent {α : Type} (roster : Roster)
    (act : String → UnitRecord → Except Error (α × UnitRecord)) : Except Error α × Roster :=
  match roster.current with
  | none => (.error .noUnit, roster)
  | some path =>
    match roster.unit? path with
    | none => (.error (.unknownUnit path), roster)
    | some unit =>
      match act path unit with
      | .error e => (.error e, roster)
      | .ok (value, unit) => (.ok value, roster.put path unit)

/-- Records an import of the current unit and answers whether it is new. A unit
does not import itself, and no path twice. -/
def addImport (roster : Roster) (path : String) : Except Error Bool × Roster :=
  if roster.current = some path then
    (.ok false, roster)
  else
    roster.withCurrent fun _ unit =>
      if path ∈ unit.imports then
        .ok (false, unit)
      else
        .ok (true, { unit with imports := unit.imports ++ [path] })

def nameContract (roster : Roster) : Except Error String × Roster :=
  roster.withCurrent fun _ unit => .ok unit.nameContract

def nameFunction (roster : Roster) : Except Error String × Roster :=
  roster.withCurrent fun _ unit => .ok unit.nameFunction

def indent (roster : Roster) : Except Error Unit × Roster :=
  roster.withCurrent fun _ unit => .ok ((), { unit with level := unit.level + 1 })

/-- The margin cannot be passed. -/
def unindent (roster : Roster) : Except Error Unit × Roster :=
  roster.withCurrent fun path unit =>
    match unit.level with
    | 0 => .error (.atMargin path)
    | level + 1 => .ok ((), { unit with level })

/-- The roster as text: each path, followed by what it imports. -/
def describe (roster : Roster) : String :=
  String.join <| roster.paths.map fun path =>
    "Source path: " ++ path ++ "\n" ++
      String.join (((roster.unit? path).map UnitRecord.sortedImports).getD [] |>.map fun target =>
        "Imports: " ++ target ++ "\n")

end Roster

end SeedGrammar
