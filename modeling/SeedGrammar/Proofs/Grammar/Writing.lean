/-
# SeedGrammar.Proofs.Grammar.Writing — what each production writes

For every production, the lines that one expansion writes and the record of the
current unit afterwards, as a relation to the record before (`WritesItem`). All
records of earlier units stay as they are, and no expansion is ever refused: a
production inside a unit needs a current unit and nothing else.

A source unit adds a record and then writes blocks of items (`WritesUnit`); a test
case writes source units. `always_testCase` puts them together.
-/
import SeedGrammar.Proofs.Grammar.Descent

namespace SeedGrammar

set_option autoImplicit false

open Walk

variable {rs : List UnitRecord} {u u' : UnitRecord} {s : Scope}

/-! ## Functions in a row -/

/-- The record after `m` more functions have been named. -/
def UnitRecord.nameFunctions (u : UnitRecord) (m : Nat) : UnitRecord :=
  { u with
    functions := u.functions + m
    function := match m with
      | 0 => u.function
      | k + 1 => some (functionName (u.functions + k)) }

@[simp] theorem UnitRecord.functions_nameFunctions (u : UnitRecord) (m : Nat) :
    (u.nameFunctions m).functions = u.functions + m :=
  rfl

@[simp] theorem UnitRecord.contracts_nameFunctions (u : UnitRecord) (m : Nat) :
    (u.nameFunctions m).contracts = u.contracts :=
  rfl

@[simp] theorem UnitRecord.contract_nameFunctions (u : UnitRecord) (m : Nat) :
    (u.nameFunctions m).contract = u.contract :=
  rfl

theorem UnitRecord.nameFunctions_zero (u : UnitRecord) : u.nameFunctions 0 = u :=
  rfl

theorem UnitRecord.nameFunctions_add (u : UnitRecord) (m n : Nat) :
    (u.nameFunctions m).nameFunctions n = u.nameFunctions (m + n) := by
  cases n with
  | zero => rfl
  | succ k => simp [nameFunctions, Nat.add_assoc]

/-- The lines of `m` functions, named from `first` on. -/
def functionLines (level first m : Nat) (isPublic : Bool) : List Line :=
  (List.range' first m).map fun n => .function level (functionName n) isPublic

theorem functionLines_add (level first m n : Nat) (isPublic : Bool) :
    functionLines level first m isPublic ++ functionLines level (first + m) n isPublic =
      functionLines level first (m + n) isPublic := by
  simp [functionLines, ← List.map_append]

/-- So many functions, at the level of the record. -/
def WritesFunctions (isPublic : Bool) (m : Nat) (u : UnitRecord) (lines : List Line)
    (u' : UnitRecord) : Prop :=
  lines = functionLines u.level u.functions m isPublic ∧ u' = u.nameFunctions m

theorem WritesFunctions.onward {isPublic : Bool} {m n : Nat} {u t v : UnitRecord}
    {l l' : List Line} (first : WritesFunctions isPublic m u l t)
    (second : WritesFunctions isPublic n t l' v) :
    WritesFunctions isPublic (m + n) u (l ++ l') v := by
  obtain ⟨rfl, rfl⟩ := first
  obtain ⟨rfl, rfl⟩ := second
  exact ⟨functionLines_add _ _ _ _ _, u.nameFunctions_add m n⟩

theorem always_function :
    Expansion.function.Always (.inUnit rs u s) fun lines site' =>
      ∃ u', site' = .inUnit rs u' s ∧ WritesFunctions (s = .free) 1 u lines u' := by
  refine (always_expanding _).bind fun _ site' ended => ?_
  subst ended
  refine always_nameFunction.bind fun name site' named => ?_
  obtain ⟨rfl, rfl⟩ := named
  refine always_level.bind fun level site' found => ?_
  obtain ⟨rfl, rfl⟩ := found
  refine always_scope.bind fun scope site' found => ?_
  obtain ⟨rfl, rfl⟩ := found
  exact always_pure ⟨_, rfl, rfl, rfl⟩

/-! ## Directives -/

/-- Nothing, or a directive for an earlier unit that was not imported before. -/
def WritesImport (earlier : Nat) (u : UnitRecord) (lines : List Line) (u' : UnitRecord) : Prop :=
  (lines = [] ∧ u' = u) ∨
    ∃ i < earlier, unitPath i ∉ u.imports ∧ lines = [.importing (unitPath i)] ∧
      u' = { u with imports := u.imports ++ [unitPath i] }

theorem always_importDirective :
    Expansion.importDirective.Always (.inUnit rs u s) fun lines site' =>
      ∃ u', site' = .inUnit rs u' s ∧ WritesImport rs.length u lines u' := by
  refine (always_expanding _).bind fun _ site' ended => ?_
  subst ended
  refine always_survey.bind fun roster site' surveyed => ?_
  obtain ⟨rfl, rfl⟩ := surveyed
  have size : (Site.inUnit rs u s).roster.size = rs.length + 1 := by
    simp [Site.inUnit]
  by_cases alone : rs.length + 1 < 2
  · rw [size, if_pos alone]
    exact always_pure ⟨u, rfl, Or.inl ⟨rfl, rfl⟩⟩
  · rw [size, if_neg alone]
    refine (always_otherPath (by omega)).bind fun path site' drawn => ?_
    obtain ⟨⟨i, earlier, rfl⟩, rfl⟩ := drawn
    refine (always_addImport earlier).bind fun isNew site' recorded => ?_
    rcases recorded with ⟨rfl, rfl⟩ | ⟨rfl, fresh, rfl⟩
    · exact always_pure ⟨u, rfl, Or.inl ⟨rfl, rfl⟩⟩
    · exact always_pure ⟨_, rfl, Or.inr ⟨i, earlier, fresh, rfl, rfl⟩⟩

/-- Some generic directives and one for an abi coder, of which nothing is recorded. -/
def WritesPragmas (u : UnitRecord) (lines : List Line) (u' : UnitRecord) : Prop :=
  u' = u ∧ ∃ generic coder, List.Sublist generic Pragmas.generic ∧ coder ∈ Pragmas.abiCoders ∧
    lines = (sortPaths (generic ++ [coder])).map .pragma

theorem always_pragmaBlock :
    Expansion.pragmaBlock.Always (.inUnit rs u s) fun lines site' =>
      ∃ u', site' = .inUnit rs u' s ∧ WritesPragmas u lines u' := by
  refine (always_expanding _).bind fun _ site' ended => ?_
  subst ended
  refine (draws_subset _).bind fun generic some => ?_
  refine (draws_choose _ _).bind fun coder one => ?_
  exact always_pure ⟨u, rfl, rfl, generic, coder, some, one, rfl⟩

/-! ## Contracts -/

/-- How many members a contract may have. -/
def Grammar.memberLimit (g : Grammar) : Nat :=
  (g.members.map Subtype.val).getD 0

/-- A contract with no more than `limit` members, one level deeper. -/
def WritesContract (limit : Nat) (u : UnitRecord) (lines : List Line) (u' : UnitRecord) : Prop :=
  ∃ m ≤ limit,
    lines = .opening u.level (contractName u.contracts) ::
        functionLines (u.level + 1) u.functions m false ++ [.closing u.level] ∧
      u' = u.nameContract.2.nameFunctions m

@[simp] theorem UnitRecord.functions_nameContract (u : UnitRecord) :
    u.nameContract.2.functions = u.functions :=
  rfl

theorem totalCost_members (g : Grammar) :
    totalCost (fun _ => 1) (g.children .contract) = g.memberLimit := by
  cases wired : g.members <;> simp [Grammar.children, Grammar.memberLimit, wired, totalCost]

theorem always_members (g : Grammar) (rs : List UnitRecord) (u : UnitRecord) :
    (descend (g.offers (g.children .contract))).Always (.inUnit rs u .member) fun lines site' =>
      ∃ u', site' = .inUnit rs u' .member ∧
        ∃ m ≤ g.memberLimit, WritesFunctions false m u lines u' := by
  have step : ∀ child ∈ g.children .contract, ∀ u,
      (g.expand child.production).Always (.inUnit rs u .member) fun lines site' =>
        ∃ u', site' = .inUnit rs u' .member ∧ WritesFunctions false 1 u lines u' := by
    intro child declared u
    obtain ⟨weight, -, rfl⟩ := List.mem_map.1 declared
    exact always_function
  refine (always_descend (fun u => Site.inUnit rs u .member) (fun _ => WritesFunctions false 1)
    step u).mono fun lines site' ended => ?_
  obtain ⟨order, u', perm, rfl, blocks⟩ := ended
  have onward {u t v : UnitRecord} {l l' : List Line} (first : ∃ m, WritesFunctions false m u l t)
      (second : ∃ n, WritesFunctions false n t l' v) :
      ∃ m, WritesFunctions false m u (l ++ l') v := by
    obtain ⟨m, first⟩ := first
    obtain ⟨n, second⟩ := second
    exact ⟨m + n, first.onward second⟩
  have written : ∃ m, WritesFunctions false m u lines u' :=
    blocks.closed (fun u l u' => ∃ m, WritesFunctions false m u l u') (fun _ => ⟨0, rfl, rfl⟩)
      onward fun _ _ _ _ _ step => ⟨1, step⟩
  have bound : u'.functions ≤ u.functions + g.memberLimit := by
    rw [← totalCost_members g, ← totalCost_perm _ perm]
    refine blocks.measure_le ?_
    rintro _ _ _ _ ⟨-, rfl⟩
    exact Nat.le_refl _
  obtain ⟨m, rfl, rfl⟩ := written
  have few : m ≤ g.memberLimit := Nat.le_of_add_le_add_left bound
  exact ⟨_, rfl, m, few, rfl, rfl⟩

/-- A contract may stand at any level and in any scope, but it leaves functions
free. -/
theorem always_contract (g : Grammar) :
    g.contract.Always (.inUnit rs u s) fun lines site' =>
      ∃ u', site' = .inUnit rs u' .free ∧ WritesContract g.memberLimit u lines u' := by
  refine (always_expanding _).bind fun _ site' ended => ?_
  subst ended
  refine always_nameContract.bind fun name site' named => ?_
  obtain ⟨rfl, rfl⟩ := named
  refine always_level.bind fun level site' found => ?_
  obtain ⟨rfl, rfl⟩ := found
  have inside := always_members g rs { u.nameContract.2 with level := u.nameContract.2.level + 1 }
  rw [Grammar.offers_contract] at inside
  have membersTaken : (memberScope (descend (g.members.toList.map
      fun weight => ⟨weight, Expansion.function⟩))).Always (.inUnit rs u.nameContract.2 s)
      fun body site' => ∃ u', site' = .inUnit rs u' .free ∧ ∃ m ≤ g.memberLimit,
        body = functionLines (u.level + 1) u.functions m false ∧
          u' = u.nameContract.2.nameFunctions m := by
    refine always_memberScope (inside.mono fun body site' ended => ?_)
    obtain ⟨u', rfl, m, few, rfl, rfl⟩ := ended
    exact ⟨_, rfl, rfl, m, few, rfl, rfl⟩
  refine membersTaken.bind fun body site' ended => ?_
  obtain ⟨u', rfl, m, few, rfl, rfl⟩ := ended
  exact always_pure ⟨_, rfl, m, few, rfl, rfl⟩

/-! ## Units -/

/-- What one expansion of a child of a unit writes, where `earlier` units were
added before the unit. -/
def WritesItem (limit earlier : Nat) : Production → UnitRecord → List Line → UnitRecord → Prop
  | .importDirective => WritesImport earlier
  | .pragmaBlock => WritesPragmas
  | .contract => WritesContract limit
  | .function => WritesFunctions true 1
  | .testCase => fun _ _ _ => False
  | .sourceUnit => fun _ _ _ => False

theorem always_item (g : Grammar) (rs : List UnitRecord) {child : Child}
    (declared : child ∈ g.children .sourceUnit) (u : UnitRecord) :
    (g.expand child.production).Always (.inUnit rs u .free) fun lines site' =>
      ∃ u', site' = .inUnit rs u' .free ∧
        WritesItem g.memberLimit rs.length child.production u lines u' := by
  have lower := Grammar.rank_lt_of_mem_children declared
  cases expanded : child.production with
  | importDirective => exact always_importDirective
  | pragmaBlock => exact always_pragmaBlock
  | contract => exact always_contract g
  | function => exact always_function
  | testCase =>
    rw [expanded] at lower
    exact absurd lower (by decide)
  | sourceUnit =>
    rw [expanded] at lower
    exact absurd lower (by decide)

/-- One more unit, numbered after those before it. -/
def WritesUnit (g : Grammar) (rs : List UnitRecord) (lines : List Line)
    (rs' : List UnitRecord) : Prop :=
  ∃ order body u, order.Perm (g.children .sourceUnit) ∧
    Blocks (WritesItem g.memberLimit rs.length) order .blank body u ∧
      lines = .header (unitPath rs.length) :: body ∧ rs' = rs ++ [u]

/-- Where functions are free and nothing is known but the units added so far. -/
def Site.between (rs : List UnitRecord) : Site :=
  ⟨.ofRecords rs, .free⟩

theorem always_sourceUnit (g : Grammar) (rs : List UnitRecord) :
    g.sourceUnit.Always (.between rs) fun lines site' =>
      ∃ rs', site' = .between rs' ∧ WritesUnit g rs lines rs' := by
  refine (always_expanding _).bind fun _ site' ended => ?_
  subst ended
  refine (always_addUnit rs .free).bind fun path site' added => ?_
  obtain ⟨rfl, rfl⟩ := added
  have inside := always_descend (fun u => Site.inUnit rs u .free)
    (WritesItem g.memberLimit rs.length) (fun _ declared => always_item g rs declared) .blank
  rw [Grammar.offers_sourceUnit] at inside
  refine inside.bind fun body site' ended => ?_
  obtain ⟨order, u, perm, rfl, blocks⟩ := ended
  exact always_pure ⟨rs ++ [u], rfl, order, body, u, perm, blocks, rfl, rfl⟩

/-! ## Test cases -/

/-- A test case is never refused, whatever the dice show, and writes units one
after another. -/
theorem always_testCase (g : Grammar) (rs : List UnitRecord) :
    (g.expand .testCase).Always (.between rs) fun lines site' =>
      ∃ order rs', order.Perm (g.children .testCase) ∧ site' = .between rs' ∧
        Blocks (fun _ => WritesUnit g) order rs lines rs' := by
  refine (always_expanding _).bind fun _ site' ended => ?_
  subst ended
  have units : ∀ child ∈ g.children .testCase, ∀ rs, (g.expand child.production).Always
      (.between rs) fun lines site' => ∃ rs', site' = .between rs' ∧ WritesUnit g rs lines rs' := by
    intro child declared rs
    obtain ⟨weight, -, rfl⟩ := List.mem_map.1 declared
    exact always_sourceUnit g rs
  have inside := always_descend Site.between (fun _ => WritesUnit g) units rs
  rwa [Grammar.offers_testCase] at inside

end SeedGrammar
