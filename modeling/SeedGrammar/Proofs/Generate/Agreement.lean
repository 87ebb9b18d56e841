/-
# SeedGrammar.Proofs.Generate.Agreement — generated texts read back

A generated text is that of a program, and reads back as this program
(`generateWith_reads_back`). What is read agrees with the roster at the end of the
walk, unit by unit (`read_agreesWith_roster`): the roster is another account of the
text, and neither has anything that the other lacks.
-/
import SeedGrammar.Proofs.Generate.Outcome

namespace SeedGrammar

set_option autoImplicit false

/-! ## Reading back -/

theorem KeptEach.read_text {program : Program} {rs : List UnitRecord}
    (kept : KeptEach program.units rs) : Program.read program.text = .ok program :=
  kept.legible.read_text

/-- **A generated text reads back**, and laying out what was read gives the text
again. -/
theorem generateWith_reads_back (seed : UInt64) (limits : Limits) (accepted : limits.Accepted) :
    ∃ text program, generateWith seed limits = .ok text ∧ Program.read text = .ok program ∧
      program.text = text := by
  obtain ⟨program, rs, generated, kept⟩ := generateWith_of_accepted accepted seed
  exact ⟨program.text, program, generated, kept.read_text, rfl⟩

/-- The program of this seed has two units, the first one with functions, pragmas and a contract
and the second one with an import and a pragma. -/
theorem generate_reads_back : ({} : Limits).Accepted ∧
    ∃ text program, generateWith 5 {} = .ok text ∧ Program.read text = .ok program ∧
      program.text = text :=
  ⟨by decide, generateWith_reads_back 5 {} (by decide)⟩

/-! ## Agreement with the roster -/

/-- What a text says of a unit and what is recorded of it. -/
structure SourceUnit.AgreesWith (unit : SourceUnit) (record : UnitRecord) : Prop where
  imports_nodup : unit.imports.Nodup
  imports : ∀ path, path ∈ unit.imports ↔ path ∈ record.imports
  contracts : record.contract = none ∧ unit.contracts = [] ∨
    record.contract = some "C0" ∧ unit.contracts.map ContractDecl.name = ["C0"]
  functions : ∃ k, unit.functions.map FunctionDecl.name =
    (List.range k).map fun n => "f" ++ toString n
  function : record.function = (unit.functions.map FunctionDecl.name).getLast?
  level : record.level = 0

/-- The units of a text are those of a roster, and each agrees with its record. -/
structure Program.AgreesWith (program : Program) (roster : Roster) : Prop where
  paths : program.units.map SourceUnit.path =
    (List.range roster.size).map fun n => "su" ++ toString n ++ ".sol"
  registered : roster.units.map Prod.fst = program.units.map SourceUnit.path
  units : ∀ unit ∈ program.units,
    ∃ record, roster.unit? unit.path = some record ∧ unit.AgreesWith record

theorem Kept.agreesWith {earlier : Nat} {unit : SourceUnit} {u : UnitRecord}
    (kept : Kept earlier unit u) (few : u.contracts ≤ 1) : unit.AgreesWith u where
  imports_nodup := kept.imports ▸ kept.imports_nodup
  imports := fun path => by rw [kept.imports]
  contracts := by
    obtain ⟨inOrder, given⟩ := kept.contracts
    rcases Nat.le_one_iff_eq_zero_or_eq_one.1 few with none | one
    · rw [none] at inOrder
      have empty : unit.contracts = [] := List.map_eq_nil_iff.1 inOrder
      rw [empty] at given
      exact Or.inl ⟨given, empty⟩
    · rw [one] at inOrder
      have named : unit.contracts.map ContractDecl.name = ["C0"] := inOrder
      rw [named] at given
      exact Or.inr ⟨given, named⟩
  functions := ⟨u.functions, kept.functions.inOrder⟩
  function := kept.functions.given
  level := kept.level

theorem KeptEach.paths {units : List SourceUnit} {rs : List UnitRecord}
    (kept : KeptEach units rs) :
    units.map SourceUnit.path = (List.range rs.length).map unitPath := by
  induction kept with
  | nil => rfl
  | snoc before kept few ih => simp [ih, List.range_succ]

theorem KeptEach.length_eq {units : List SourceUnit} {rs : List UnitRecord}
    (kept : KeptEach units rs) : units.length = rs.length := by
  simpa using congrArg List.length kept.paths

theorem KeptEach.agreesWith {units : List SourceUnit} {rs : List UnitRecord}
    (kept : KeptEach units rs) :
    ∀ unit ∈ units, ∃ record,
      (Roster.ofRecords rs).unit? unit.path = some record ∧ unit.AgreesWith record := by
  induction kept with
  | nil =>
    intro unit member
    cases member
  | @snoc units rs items u before kept few ih =>
    intro unit member
    rcases List.mem_append.1 member with known | new
    · obtain ⟨record, found, agrees⟩ := ih unit known
      refine ⟨record, ?_, agrees⟩
      unfold Roster.unit? at found ⊢
      rw [Roster.ofRecords_append, List.lookup_append, found]
      rfl
    · obtain rfl := List.mem_singleton.1 new
      exact ⟨u, Roster.unit?_ofRecords_last rs u, kept.agreesWith few⟩

/-- **What is read agrees with the roster** at the end of the walk that wrote the
text. -/
theorem read_agreesWith_roster (seed : UInt64) (limits : Limits) (accepted : limits.Accepted) :
    ∃ lines walker program,
      ((Grammar.setup {} limits).2.expand .testCase).run (.ofSeed seed) = (.ok lines, walker) ∧
        generateWith seed limits = .ok (Line.textOf lines) ∧
          Program.read (Line.textOf lines) = .ok program ∧ program.AgreesWith walker.roster := by
  obtain ⟨program, rs, dice, ran, kept⟩ := run_testCase (Grammar.setup {} limits).2 seed
  refine ⟨program.lines, _, program, ran, ?_, ?_, ?_⟩
  · rw [generateWith_eq_run accepted, ran]
    rfl
  · rw [program.textOf_lines]
    exact kept.read_text
  constructor
  case paths =>
    rw [kept.paths]
    exact congrArg (fun n => (List.range n).map unitPath) (Roster.size_ofRecords rs).symm
  case registered =>
    rw [kept.paths]
    exact Roster.map_fst_units_ofRecords rs
  case units => exact kept.agreesWith

theorem generate_agreesWith_roster : ({} : Limits).Accepted ∧
    ∃ lines walker program,
      ((Grammar.setup {} {}).2.expand .testCase).run (.ofSeed 5) = (.ok lines, walker) ∧
        generateWith 5 {} = .ok (Line.textOf lines) ∧
          Program.read (Line.textOf lines) = .ok program ∧ program.AgreesWith walker.roster :=
  ⟨by decide, read_agreesWith_roster 5 {} (by decide)⟩

end SeedGrammar
