/-
# SeedGrammar.Proofs.Generate.Imports — units import what stands before them

The text numbers its units in the order in which they were added, and a unit was added
before its directives were written. So a directive of the unit numbered `i` names a
unit numbered less than `i` (`KeptEach.imports`), whatever path was drawn, and a chain
of imports only ever goes down.
-/
import SeedGrammar.Proofs.Generate.Agreement
import Mathlib.Data.List.Perm.Subperm
import Mathlib.Logic.Relation

namespace SeedGrammar

set_option autoImplicit false

/-! ## The unit of a number -/

/-- The unit numbered `i` has `i` units before it, and its path has its number. -/
theorem KeptEach.getElem? {units : List SourceUnit} {rs : List UnitRecord}
    (kept : KeptEach units rs) {i : Nat} {unit : SourceUnit} (found : units[i]? = some unit) :
    unit.path = unitPath i ∧ ∃ u, Kept i unit u := by
  induction kept with
  | nil => simp at found
  | @snoc units rs items u before kept few ih =>
    by_cases old : i < units.length
    · rw [List.getElem?_append_left old] at found
      exact ih found
    · have inside := (List.getElem?_eq_some_iff.1 found).1
      rw [List.length_append, List.length_singleton] at inside
      obtain rfl : i = units.length := by omega
      rw [List.getElem?_concat_length] at found
      obtain rfl := Option.some.inj found
      rw [before.length_eq]
      exact ⟨rfl, u, kept⟩

theorem KeptEach.exists_unit {units : List SourceUnit} {rs : List UnitRecord}
    (kept : KeptEach units rs) {i : Nat} (inside : i < units.length) :
    ∃ unit, units[i]? = some unit ∧ unit.path = unitPath i :=
  ⟨units[i], List.getElem?_eq_getElem inside, (kept.getElem? (List.getElem?_eq_getElem inside)).1⟩

/-! ## What a unit imports -/

/-- What the unit numbered `i` of a program imports, where it has no more than `limit`
directives. -/
structure Program.ImportsEarlier (program : Program) (limit i : Nat) (unit : SourceUnit) :
    Prop where
  earlier : ∀ path ∈ unit.imports, ∃ j < i, ∃ other,
    program.units[j]? = some other ∧ other.path = path
  nodup : unit.imports.Nodup
  notItself : unit.path ∉ unit.imports
  few : unit.imports.length ≤ min limit i

/-- The unit at one path imports another path. -/
def Program.Imports (program : Program) (path target : String) : Prop :=
  ∃ unit ∈ program.units, unit.path = path ∧ target ∈ unit.imports

theorem Kept.imports_numbered {i : Nat} {unit : SourceUnit} {u : UnitRecord} (kept : Kept i unit u) :
    ∀ path ∈ unit.imports, ∃ j < i, path = unitPath j := by
  rw [kept.imports]
  exact kept.imports_earlier

/-- As many different paths of earlier units as there are earlier units. -/
theorem Kept.length_imports_le {i : Nat} {unit : SourceUnit} {u : UnitRecord}
    (kept : Kept i unit u) : unit.imports.length ≤ i := by
  have nodup : unit.imports.Nodup := kept.imports ▸ kept.imports_nodup
  have among : unit.imports ⊆ (List.range i).map unitPath := by
    intro path member
    obtain ⟨j, below, rfl⟩ := kept.imports_numbered path member
    exact List.mem_map_of_mem (List.mem_range.2 below)
  simpa using (List.subperm_of_subset nodup among).length_le

variable {program : Program} {rs : List UnitRecord}

theorem KeptEach.importsEarlier (kept : KeptEach program.units rs) {limit i : Nat}
    {unit : SourceUnit} (found : program.units[i]? = some unit)
    (few : unit.imports.length ≤ limit) : program.ImportsEarlier limit i unit := by
  obtain ⟨path, u, record⟩ := kept.getElem? found
  have inside := (List.getElem?_eq_some_iff.1 found).1
  constructor
  case earlier =>
    intro path member
    obtain ⟨j, below, rfl⟩ := record.imports_numbered path member
    exact ⟨j, below, kept.exists_unit (by omega)⟩
  case nodup => exact record.imports ▸ record.imports_nodup
  case notItself =>
    intro member
    obtain ⟨j, below, same⟩ := record.imports_numbered _ member
    have number := unitPath_injective (path.symm.trans same)
    omega
  case few => exact Nat.le_min.2 ⟨few, record.length_imports_le⟩

/-! ## No cycles -/

/-- Along imports the numbers go down. -/
theorem KeptEach.number_lt (kept : KeptEach program.units rs) {path target : String}
    (imports : program.Imports path target) :
    ∃ i j, path = unitPath i ∧ target = unitPath j ∧ j < i := by
  obtain ⟨unit, member, rfl, imported⟩ := imports
  obtain ⟨i, found⟩ := List.mem_iff_getElem?.1 member
  obtain ⟨numbered, u, record⟩ := kept.getElem? found
  obtain ⟨j, below, rfl⟩ := record.imports_numbered _ imported
  exact ⟨i, j, numbered, rfl, below⟩

theorem KeptEach.number_lt_of_transGen (kept : KeptEach program.units rs) {path target : String}
    (imports : Relation.TransGen program.Imports path target) :
    ∃ i j, path = unitPath i ∧ target = unitPath j ∧ j < i := by
  induction imports with
  | single imports => exact kept.number_lt imports
  | tail _ imports ih =>
    obtain ⟨i, j, rfl, rfl, below⟩ := ih
    obtain ⟨j', k, same, rfl, below'⟩ := kept.number_lt imports
    obtain rfl := unitPath_injective same
    exact ⟨i, k, rfl, rfl, Nat.lt_trans below' below⟩

theorem KeptEach.acyclic (kept : KeptEach program.units rs) (path : String) :
    ¬ Relation.TransGen program.Imports path path := by
  intro cycle
  obtain ⟨i, j, rfl, same, below⟩ := kept.number_lt_of_transGen cycle
  have number := unitPath_injective same
  omega

/-! ## Generated programs -/

/-- **Units import earlier units**, each once and no more than allowed; the first one
imports nothing, and no imports go round in a circle. -/
theorem generateWith_imports_earlier (seed : UInt64) (limits : Limits)
    (accepted : limits.Accepted) :
    ∃ text program, generateWith seed limits = .ok text ∧ Program.read text = .ok program ∧
      (∀ i unit, program.units[i]? = some unit → program.ImportsEarlier limits.imports i unit) ∧
        (∀ unit, program.units.head? = some unit → unit.imports = []) ∧
          ∀ path, ¬ Relation.TransGen program.Imports path path := by
  obtain ⟨program, rs, generated, ⟨kept, composed⟩, -⟩ := generateWith_built accepted seed
  have earlier (i : Nat) (unit : SourceUnit) (found : program.units[i]? = some unit) :
      program.ImportsEarlier limits.imports i unit := by
    have member := List.mem_iff_getElem?.2 ⟨i, found⟩
    exact kept.importsEarlier found ((composed unit member).length_imports_le rfl)
  refine ⟨program.text, program, generated, kept.read_text, earlier, ?_, kept.acyclic⟩
  intro unit first
  rw [List.head?_eq_getElem?] at first
  have few := (earlier 0 unit first).few
  rw [Nat.min_zero] at few
  exact List.eq_nil_of_length_eq_zero (Nat.le_zero.1 few)

theorem generate_imports_earlier : ({} : Limits).Accepted ∧
    ∃ text program, generateWith 5 {} = .ok text ∧ Program.read text = .ok program ∧
      (∀ i unit, program.units[i]? = some unit → program.ImportsEarlier 2 i unit) ∧
        (∀ unit, program.units.head? = some unit → unit.imports = []) ∧
          ∀ path, ¬ Relation.TransGen program.Imports path path :=
  ⟨by decide, generateWith_imports_earlier 5 {} (by decide)⟩

end SeedGrammar
