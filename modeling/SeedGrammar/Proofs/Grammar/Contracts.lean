/-
# SeedGrammar.Proofs.Grammar.Contracts — what one contract writes, wherever it stands

A contract is never refused inside a unit, at whatever level the unit is, whatever it has
named before and whether functions are free or members. Its text and the record of its
unit are decided by the record before it and one number, that of its members
(`expand_contract_text`).
-/
import SeedGrammar.Proofs.Grammar.Writing
import SeedGrammar.Proofs.Roster.Balance

namespace SeedGrammar

set_option autoImplicit false

open Walk

/-! ## Texts -/

def spaces (n : Nat) : String :=
  String.ofList (List.replicate n ' ')

/-- The members of a contract, named from `first` on, as text. -/
def memberText (level first m : Nat) : String :=
  String.join ((List.range m).map fun i =>
    spaces (4 * level) ++ "function f" ++ toString (first + i) ++ "() pure \x7b\x7d\n")

theorem text_function (level n : Nat) : (Line.function level (functionName n) false).text =
    spaces (4 * level) ++ "function f" ++ toString n ++ "() pure \x7b\x7d\n" := by
  have name : "function f" = "function " ++ "f" := rfl
  have ending : "() pure \x7b\x7d\n" = "()" ++ ("" ++ " pure \x7b\x7d\n") := rfl
  simp only [Line.text, functionName, name, ending, String.append_assoc]
  rfl

theorem textOf_functionLines (level first m : Nat) :
    Line.textOf (functionLines level first m false) = memberText level first m := by
  simp [Line.textOf, functionLines, memberText, List.range'_eq_map_range, Function.comp_def,
    text_function]

namespace UnitRecord

/-- The next contract of the unit, with `m` members, as text. -/
def contractText (u : UnitRecord) (m : Nat) : String :=
  spaces (4 * u.level) ++ "contract C" ++ toString u.contracts ++ " \x7b\n" ++
    memberText (u.level + 1) u.functions m ++
      spaces (4 * u.level) ++ "\x7d\n"

/-- The record after it. -/
def afterContract (u : UnitRecord) (m : Nat) : UnitRecord :=
  { u with
    contracts := u.contracts + 1
    contract := some ("C" ++ toString u.contracts)
    functions := u.functions + m
    function := if m = 0 then u.function else some ("f" ++ toString (u.functions + m - 1)) }

theorem nameFunctions_nameContract (u : UnitRecord) (m : Nat) :
    u.nameContract.2.nameFunctions m = u.afterContract m := by
  cases m with
  | zero => rfl
  | succ k => rfl

end UnitRecord

theorem text_opening (level n : Nat) : (Line.opening level (contractName n)).text =
    spaces (4 * level) ++ "contract C" ++ toString n ++ " \x7b\n" := by
  have name : "contract C" = "contract " ++ "C" := rfl
  simp only [Line.text, contractName, name, String.append_assoc]
  rfl

theorem WritesContract.exists_text {limit : Nat} {u u' : UnitRecord} {lines : List Line}
    (wrote : WritesContract limit u lines u') :
    ∃ m ≤ limit, Line.textOf lines = u.contractText m ∧ u' = u.afterContract m := by
  obtain ⟨m, few, rfl, rfl⟩ := wrote
  refine ⟨m, few, ?_, u.nameFunctions_nameContract m⟩
  have closing : (Line.closing u.level).text = spaces (4 * u.level) ++ "\x7d\n" := rfl
  rw [Line.textOf_append, Line.textOf_cons, Line.textOf_singleton, textOf_functionLines,
    text_opening, closing, ← String.append_assoc]
  rfl

/-! ## Contracts anywhere -/

/-- **A contract is never refused inside a unit**, whatever the scope. It writes an opening
line at the level of the unit, its members one level deeper and none of them public, and a
closing line. They are named on from the counts of the unit, and there are no more of them
than the grammar allows. Only the record of the unit is another one afterwards, at the old
level and with the old imports.

A roster is sound wherever a script can get (`Script.Reached.sound`). -/
theorem expand_contract_text (g : Grammar) {w : Walker} (sound : w.roster.Sound) {path : String}
    {u : UnitRecord} (current : w.roster.current = some path)
    (known : w.roster.unit? path = some u) :
    ∃ m ≤ g.memberLimit, ∃ lines w', (g.expand .contract).run w = (.ok lines, w') ∧
      Line.textOf lines = u.contractText m ∧ w'.roster.current = some path ∧
        w'.roster.unit? path = some (u.afterContract m) ∧
          ∀ other, other ≠ path → w'.roster.unit? other = w.roster.unit? other := by
  obtain ⟨dice, roster, scope⟩ := w
  obtain ⟨rs, rfl, rfl⟩ := sound.exists_records current known
  obtain ⟨lines, site, dice', ran, u', rfl, wrote⟩ := always_contract g (s := scope) dice
  obtain ⟨m, few, text, rfl⟩ := wrote.exists_text
  refine ⟨m, few, lines, _, ran, text, ?current, ?record, fun other apart => ?others⟩
  case current => exact Roster.current_ofRecords_append rs _
  case record => exact Roster.unit?_ofRecords_last rs _
  case others =>
    show (Roster.ofRecords (rs ++ [u.afterContract m])).unit? other = _
    rw [← Roster.put_ofRecords rs u, Roster.unit?_put_of_ne apart]

/-- Two levels deep, behind another contract and a function, with functions as members. -/
theorem expand_contract_text_indented :
    let g := (Grammar.setup {} {}).2
    let roster := (Roster.addUnit (Roster.addUnit {}).2).2.nameContract.2.nameFunction.2
    let w : Walker := ⟨.ofSeed 7, roster.indent.2.indent.2, .member⟩
    let u : UnitRecord := ⟨[], 1, 1, 2, some "C0", some "f0"⟩
    (w.roster.Sound ∧ w.roster.current = some "su1.sol" ∧ w.roster.unit? "su1.sol" = some u) ∧
      ∃ m ≤ 4, ∃ lines w', (g.expand .contract).run w = (.ok lines, w') ∧
        Line.textOf lines = u.contractText m ∧ w'.roster.current = some "su1.sol" ∧
          w'.roster.unit? "su1.sol" = some (u.afterContract m) ∧
            ∀ other, other ≠ "su1.sol" → w'.roster.unit? other = w.roster.unit? other := by
  intro g roster w u
  have sound : w.roster.Sound :=
    Roster.Sound.empty.addUnit.addUnit.nameContract.sound.nameFunction.sound.indent.sound.indent.sound
  have current : w.roster.current = some "su1.sol" := by decide
  have known : w.roster.unit? "su1.sol" = some u := by decide
  exact ⟨⟨sound, current, known⟩, expand_contract_text g sound current known⟩

end SeedGrammar
