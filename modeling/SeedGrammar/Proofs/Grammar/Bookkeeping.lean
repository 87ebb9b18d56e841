/-
# SeedGrammar.Proofs.Grammar.Bookkeeping — what is written is what is recorded

Two views of a test case come out of one walk: the lines it ends with, and the
records of its units. `Kept` relates the items of a unit to its record, `KeptEach`
the units of a program to the records on the roster.

* `WritesItem.accounts`: whatever a child of a unit writes is the lines of more
  items, and the record after it is kept for them too. So it is over a whole unit.
* `WritesUnit.renders`: a unit more on the roster is a unit more in the text.
* `built_of_testCase` says it of every run, and that nothing is refused on the way.
-/
import SeedGrammar.Proofs.Grammar.Items
import SeedGrammar.Proofs.Program.Legible
import SeedGrammar.Proofs.Program.Lines
import Mathlib.Data.List.Nodup

namespace SeedGrammar

set_option autoImplicit false

open Layout Text.Reader

/-! ## Numbered names are legible -/

theorem namePart_of_mem_toString {n : Nat} {c : Char} (digit : c ∈ (toString n).toList) :
    NamePart c := by
  have digit : c ∈ Nat.toDigits 10 n := by simpa using digit
  have isDigit := Nat.isDigit_of_mem_toDigits (by decide) (by decide) digit
  exact Or.inr (Or.inl (isDigit_iff.1 isDigit))

theorem name_contractName (n : Nat) : Name (contractName n).toList := by
  rw [contractName, String.toList_append]
  exact .mk (by decide) fun _ digit => namePart_of_mem_toString digit

theorem name_functionName (n : Nat) : Name (functionName n).toList := by
  rw [functionName, String.toList_append]
  exact .mk (by decide) fun _ digit => namePart_of_mem_toString digit

theorem namePart_or_dot_of_mem_unitPath {n : Nat} {c : Char} (member : c ∈ (unitPath n).toList) :
    NamePart c ∨ c = '.' := by
  simp only [unitPath, String.toList_append, List.mem_append] at member
  rcases member with (start | digit) | extension
  · have each : "su".toList.all isNamePart = true := rfl
    exact Or.inl (isNamePart_iff.1 (List.all_eq_true.1 each c start))
  · exact Or.inl (namePart_of_mem_toString digit)
  · have each : ".sol".toList.all (fun d => isNamePart d || d == '.') = true := rfl
    simpa [isNamePart_iff] using List.all_eq_true.1 each c extension

theorem not_mem_unitPath (n : Nat) {c : Char} (part : ¬ NamePart c) (dot : c ≠ '.') :
    c ∉ (unitPath n).toList := by
  intro member
  rcases namePart_or_dot_of_mem_unitPath member with isPart | isDot
  · exact part isPart
  · exact dot isDot

theorem path_unitPath (n : Nat) : Path (unitPath n).toList := by
  have apart : ∀ c ∈ (unitPath n).toList, c ≠ ' ' ∧ c ≠ '\n' := by
    intro c member
    refine ⟨?_, ?_⟩
    · rintro rfl
      exact not_mem_unitPath n (by decide) (by decide) member
    · rintro rfl
      exact not_mem_unitPath n (by decide) (by decide) member
  rw [unitPath, String.append_assoc, String.toList_append] at apart ⊢
  exact .mk (by decide) apart

theorem legible_pragma {directive : String}
    (known : directive ∈ Pragmas.generic ∨ directive ∈ Pragmas.abiCoders) :
    (Item.pragma directive).Legible := by
  simp only [Pragmas.generic, Pragmas.abiCoders, List.mem_cons, List.not_mem_nil, or_false] at known
  rcases known with (rfl | rfl) | rfl | rfl
  · exact ⟨" solidity >= 0.0.0".toList, by decide, rfl⟩
  · exact ⟨" experimental SMTChecker".toList, by decide, rfl⟩
  · exact ⟨" abicoder v1".toList, by decide, rfl⟩
  · exact ⟨" abicoder v2".toList, by decide, rfl⟩

/-! ## Units and their records -/

/-- Names given one after another, and the one given last. -/
structure Numbered (name : Nat → String) (count : Nat) (last : Option String)
    (names : List String) : Prop where
  inOrder : names = (List.range count).map name
  given : last = names.getLast?

theorem Numbered.none (name : Nat → String) : Numbered name 0 none [] :=
  ⟨rfl, rfl⟩

theorem Numbered.one {name : Nat → String} {count : Nat} {last : Option String}
    {names : List String} (numbered : Numbered name count last names) :
    Numbered name (count + 1) (some (name count)) (names ++ [name count]) := by
  refine ⟨?_, ?_⟩
  · rw [numbered.inOrder, List.range_succ, List.map_append]
    rfl
  · simp

/-- Names given to so many functions in a row. -/
theorem Numbered.functions {u : UnitRecord} {names : List String}
    (numbered : Numbered functionName u.functions u.function names) (m : Nat) :
    Numbered functionName (u.nameFunctions m).functions (u.nameFunctions m).function
      (names ++ (List.range' u.functions m).map functionName) := by
  induction m with
  | zero => simpa [u.nameFunctions_zero] using numbered
  | succ m ih =>
    rw [← u.nameFunctions_add m 1, List.range'_concat, List.map_append, ← List.append_assoc,
      Nat.one_mul]
    exact ih.one

/-- The functions of an item, in the order of the text. -/
def Item.functions : Item → List FunctionDecl
  | .contract decl => decl.members
  | .function decl => [decl]
  | .importing _ => []
  | .pragma _ => []

/-- Members and free functions, in the order of the text. -/
def SourceUnit.functions (unit : SourceUnit) : List FunctionDecl :=
  unit.items.flatMap Item.functions

/-- The record of a unit, with `earlier` units before it, has an entry for each of
its items and no others, and the items can be read. -/
structure Kept (earlier : Nat) (unit : SourceUnit) (u : UnitRecord) : Prop where
  legible : ∀ item ∈ unit.items, item.Legible
  imports : unit.imports = u.imports
  imports_earlier : ∀ path ∈ u.imports, ∃ i < earlier, path = unitPath i
  imports_nodup : u.imports.Nodup
  contracts : Numbered contractName u.contracts u.contract (unit.contracts.map ContractDecl.name)
  functions : Numbered functionName u.functions u.function (unit.functions.map FunctionDecl.name)
  level : u.level = 0

theorem Kept.blank (earlier : Nat) (path : String) : Kept earlier ⟨path, []⟩ .blank where
  legible := by simp
  imports := rfl
  imports_earlier := by simp [UnitRecord.blank]
  imports_nodup := List.nodup_nil
  contracts := .none _
  functions := .none _
  level := rfl

theorem Kept.contracts_eq {earlier : Nat} {unit : SourceUnit} {u : UnitRecord}
    (kept : Kept earlier unit u) : unit.contracts.length = u.contracts := by
  simpa using congrArg List.length kept.contracts.inOrder

/-- The lines are those of what an expansion may add to the unit at a path, and the
record accounts for this as well. -/
def Accounts (limit earlier : Nat) (path : String) (p : Production) :
    UnitRecord → List Line → UnitRecord → Prop :=
  RendersAs (fun items u => Kept earlier ⟨path, items⟩ u) Item.lines (OfExpansion limit p)

/-! ## Every item is accounted for -/

variable {limit earlier : Nat} {path : String} {u u' : UnitRecord} {lines : List Line}

theorem WritesImport.accounts (wrote : WritesImport earlier u lines u') :
    Accounts limit earlier path .importDirective u lines u' := by
  rcases wrote with ⟨rfl, rfl⟩ | ⟨i, before, fresh, rfl, rfl⟩
  · intro items kept
    exact ⟨[], Or.inl rfl, rfl, by rwa [List.append_nil]⟩
  · intro items kept
    refine ⟨[.importing (unitPath i)], Or.inr ⟨_, rfl⟩, rfl, ?_⟩
    constructor
    case legible =>
      refine List.forall_mem_append.2 ⟨kept.legible, fun item member => ?_⟩
      obtain rfl := List.mem_singleton.1 member
      exact not_mem_unitPath i (by decide) (by decide)
    case imports =>
      rw [← kept.imports]
      simp [SourceUnit.imports]
    case imports_earlier =>
      intro path member
      rcases List.mem_append.1 member with known | new
      · exact kept.imports_earlier path known
      · exact ⟨i, before, List.mem_singleton.1 new⟩
    case imports_nodup =>
      exact List.nodup_append_comm.2 (List.nodup_cons.2 ⟨fresh, kept.imports_nodup⟩)
    case contracts => simpa [SourceUnit.contracts] using kept.contracts
    case functions => simpa [SourceUnit.functions, Item.functions] using kept.functions
    case level => exact kept.level

theorem WritesPragmas.accounts (wrote : WritesPragmas u lines u') :
    Accounts limit earlier path .pragmaBlock u lines u' := by
  obtain ⟨rfl, generic, coder, some, one, rfl⟩ := wrote
  intro items kept
  refine ⟨(sortPaths (generic ++ [coder])).map .pragma, ⟨generic, coder, some, one, rfl⟩, ?_, ?_⟩
  · rw [List.flatMap_map, List.map_eq_flatMap]
    rfl
  constructor
  case legible =>
    refine List.forall_mem_append.2 ⟨kept.legible, fun item member => ?_⟩
    obtain ⟨directive, known, rfl⟩ := List.mem_map.1 member
    rcases List.mem_append.1 ((List.mergeSort_perm _ _).mem_iff.1 known) with known | known
    · exact legible_pragma (Or.inl (some.subset known))
    · obtain rfl := List.mem_singleton.1 known
      exact legible_pragma (Or.inr one)
  case imports =>
    rw [← kept.imports]
    simp [SourceUnit.imports]
  case imports_earlier => exact kept.imports_earlier
  case imports_nodup => exact kept.imports_nodup
  case contracts => simpa [SourceUnit.contracts, Function.comp_def] using kept.contracts
  case functions =>
    have silent : ((sortPaths (generic ++ [coder])).map Item.pragma).flatMap Item.functions = [] := by
      simp [List.flatMap_map, Item.functions]
    simpa [SourceUnit.functions, silent] using kept.functions
  case level => exact kept.level

theorem WritesFunctions.accounts (wrote : WritesFunctions true 1 u lines u') :
    Accounts limit earlier path .function u lines u' := by
  obtain ⟨rfl, rfl⟩ := wrote
  intro items kept
  refine ⟨[.function ⟨functionName u.functions, true⟩], ⟨_, rfl, rfl⟩, ?_, ?_⟩
  · rw [kept.level]
    rfl
  constructor
  case legible =>
    refine List.forall_mem_append.2 ⟨kept.legible, fun item member => ?_⟩
    obtain rfl := List.mem_singleton.1 member
    exact name_functionName _
  case imports =>
    refine Eq.trans ?_ kept.imports
    simp [SourceUnit.imports]
  case imports_earlier => exact kept.imports_earlier
  case imports_nodup => exact kept.imports_nodup
  case contracts => simpa [SourceUnit.contracts] using kept.contracts
  case functions =>
    simpa [SourceUnit.functions, Item.functions] using kept.functions.functions 1
  case level => exact kept.level

theorem WritesContract.accounts (wrote : WritesContract limit u lines u') :
    Accounts limit earlier path .contract u lines u' := by
  obtain ⟨m, few, rfl, rfl⟩ := wrote
  intro items kept
  refine ⟨[.contract ⟨contractName u.contracts,
    (List.range' u.functions m).map fun n => ⟨functionName n, false⟩⟩], ?_, ?_, ?_⟩
  · refine ⟨_, rfl, by simpa using few, fun member declared => ?_⟩
    obtain ⟨n, -, rfl⟩ := List.mem_map.1 declared
    rfl
  · rw [kept.level]
    simp [Item.lines, ContractDecl.lines, functionLines, FunctionDecl.line, Function.comp_def]
  constructor
  case legible =>
    refine List.forall_mem_append.2 ⟨kept.legible, fun item member => ?_⟩
    obtain rfl := List.mem_singleton.1 member
    refine ⟨name_contractName _, fun member declared => ?_⟩
    obtain ⟨n, -, rfl⟩ := List.mem_map.1 declared
    exact name_functionName n
  case imports =>
    refine Eq.trans ?_ kept.imports
    simp [SourceUnit.imports]
  case imports_earlier => exact kept.imports_earlier
  case imports_nodup => exact kept.imports_nodup
  case contracts =>
    simpa [SourceUnit.contracts, UnitRecord.nameContract] using kept.contracts.one
  case functions =>
    have named : Numbered functionName u.nameContract.2.functions u.nameContract.2.function _ :=
      kept.functions
    simpa [SourceUnit.functions, Item.functions, Function.comp_def] using named.functions m
  case level => exact kept.level

theorem WritesItem.accounts {p : Production} (wrote : WritesItem limit earlier p u lines u') :
    Accounts limit earlier path p u lines u' := by
  cases p with
  | importDirective => exact WritesImport.accounts wrote
  | pragmaBlock => exact WritesPragmas.accounts wrote
  | contract => exact WritesContract.accounts wrote
  | function => exact WritesFunctions.accounts wrote
  | testCase => exact wrote.elim
  | sourceUnit => exact wrote.elim

/-! ## Programs and rosters -/

/-- Units numbered from the first on, each with its record. -/
inductive KeptEach : List SourceUnit → List UnitRecord → Prop where
  | nil : KeptEach [] []
  | snoc {units : List SourceUnit} {rs : List UnitRecord} {items : List Item} {u : UnitRecord}
      (before : KeptEach units rs) (kept : Kept rs.length ⟨unitPath rs.length, items⟩ u)
      (few : u.contracts ≤ 1) : KeptEach (units ++ [⟨unitPath rs.length, items⟩]) (rs ++ [u])

/-- Units of a grammar, each with its record. -/
def BuiltEach (g : Grammar) (units : List SourceUnit) (rs : List UnitRecord) : Prop :=
  KeptEach units rs ∧ ∀ unit ∈ units, unit.Composed g

theorem WritesUnit.renders {g : Grammar} {rs rs' : List UnitRecord}
    (wrote : WritesUnit g rs lines rs') : Renders (BuiltEach g) SourceUnit.lines rs lines rs' := by
  obtain ⟨order, body, u, perm, blocks, rfl, rfl⟩ := wrote
  rintro units ⟨before, composed⟩
  have step {p : Production} {u u' : UnitRecord} {lines : List Line}
      (wrote : WritesItem g.memberLimit rs.length p u lines u') :
      Accounts g.memberLimit rs.length (unitPath rs.length) p u lines u' :=
    WritesItem.accounts wrote
  have accounts := blocks.rendersAs (fun {_ _ _ _} wrote => step wrote)
  obtain ⟨items, ⟨pieces, written, whole⟩, rfl, kept⟩ := accounts [] (.blank _ _)
  have made : SourceUnit.Composed g ⟨unitPath rs.length, items⟩ :=
    ⟨order, pieces, perm, written, whole⟩
  have few : u.contracts ≤ 1 := kept.contracts_eq ▸ made.length_contracts_le
  refine ⟨[⟨unitPath rs.length, items⟩], ?_, .snoc before kept few, ?_⟩
  · simp [SourceUnit.lines]
  · refine List.forall_mem_append.2 ⟨composed, fun unit member => ?_⟩
    obtain rfl := List.mem_singleton.1 member
    exact made

/-- How many units a test case may have. -/
def Grammar.unitLimit (g : Grammar) : Nat :=
  (g.units.map Subtype.val).getD 0

theorem WritesUnit.length_le {g : Grammar} {rs rs' : List UnitRecord}
    (wrote : WritesUnit g rs lines rs') : rs'.length ≤ rs.length + 1 := by
  obtain ⟨order, body, u, -, -, -, rfl⟩ := wrote
  simp

/-- Every run of a test case, from wherever no unit has been added, ends with the
lines of a program, and with records for its units and no others. -/
theorem built_of_testCase (g : Grammar) :
    (g.expand .testCase).Always (.between []) fun lines site' =>
      ∃ program rs, lines = Program.lines program ∧ site' = .between rs ∧
        BuiltEach g program.units rs ∧ rs.length ≤ g.unitLimit := by
  refine (always_testCase g []).mono fun lines site' ended => ?_
  obtain ⟨order, rs, perm, rfl, blocks⟩ := ended
  have renders : Renders (BuiltEach g) SourceUnit.lines [] lines rs :=
    blocks.renders fun {_ _ _ _} wrote => WritesUnit.renders wrote
  obtain ⟨units, rfl, built⟩ := renders [] ⟨.nil, by simp⟩
  refine ⟨⟨units⟩, rs, rfl, rfl, built, ?_⟩
  have bound := blocks.measure_le (fun {_ _ _ _} wrote => WritesUnit.length_le wrote)
  rw [totalCost_perm _ perm] at bound
  have total : totalCost (fun _ => 1) (g.children .testCase) = g.unitLimit := by
    cases wired : g.units <;> simp [Grammar.children, Grammar.unitLimit, wired, totalCost]
  rw [total] at bound
  simpa using bound

theorem kept_of_testCase (g : Grammar) :
    (g.expand .testCase).Always (.between []) fun lines site' =>
      ∃ program rs, lines = Program.lines program ∧ site' = .between rs ∧
        KeptEach program.units rs := by
  refine (built_of_testCase g).mono fun lines site' ended => ?_
  obtain ⟨program, rs, rfl, rfl, ⟨kept, -⟩, -⟩ := ended
  exact ⟨program, rs, rfl, rfl, kept⟩

theorem KeptEach.legible {units : List SourceUnit} {rs : List UnitRecord}
    (kept : KeptEach units rs) : Program.Legible ⟨units⟩ := by
  induction kept with
  | nil =>
    intro unit member
    cases member
  | snoc before kept few ih =>
    intro unit member
    rcases List.mem_append.1 member with known | new
    · exact ih unit known
    · obtain rfl := List.mem_singleton.1 new
      exact ⟨path_unitPath _, kept.legible⟩

end SeedGrammar
