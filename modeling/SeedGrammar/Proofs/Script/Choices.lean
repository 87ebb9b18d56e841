/-
# SeedGrammar.Proofs.Script.Choices — each path can be drawn, and by one number

A path is drawn by its place in the sorted list of candidates. As no path is listed twice,
numbers and candidates belong to each other one by one, so none is out of reach and none is
favoured. The candidates are all paths on the roster, or all but the current one, wherever
the current one stands in the list.
-/
import SeedGrammar.Proofs.Script.Reached
import SeedGrammar.Proofs.Walk.Shown
import Mathlib.Data.List.GetD
import Mathlib.Data.List.Nodup
import Mathlib.Order.Interval.Set.Basic

namespace SeedGrammar

set_option autoImplicit false

open Walk

/-! ## Choices by number -/

/-- A walk looks at the roster and draws one number, which decides the path that it comes to:
another one for each number, and each candidate for one number. Nothing is different
afterwards but the dice. -/
structure Walk.PicksFrom (walk : Walk String) (w : Walker) (sides : Positive)
    (candidates : Set String) : Prop where
  trail : walk.trail w = [⟨w, .survey⟩, ⟨w, .roll sides⟩]
  picks : ∃ pick : Nat → String, Set.BijOn pick (Set.Icc 1 sides.val) candidates ∧
    (∀ draws result, walk.IfShown w draws result ↔
      ∃ k ∈ Set.Icc 1 sides.val, draws = [k - 1] ∧ result = (.ok (pick k), w)) ∧
    ∃ k ∈ Set.Icc 1 sides.val, ∃ dice,
      (uniform sides).run w = (.ok k, { w with dice }) ∧
        walk.run w = (.ok (pick k), { w with dice })

/-- The values of a list, counted from `1`. -/
def numbered (xs : List String) (k : Nat) : String := xs.getD (k - 1) ""

theorem numbered_succ (xs : List String) (i : Fin xs.length) :
    numbered xs (i.val + 1) = xs.get i :=
  List.getD_eq_getElem xs "" i.isLt

theorem exists_fin_of_mem_Icc {n k : Nat} (within : k ∈ Set.Icc 1 n) :
    ∃ i : Fin n, k = i.val + 1 := by
  obtain ⟨positive, within⟩ := within
  exact ⟨⟨k - 1, by omega⟩, by show k = k - 1 + 1; omega⟩

/-- If no value is listed twice, numbers and values belong to each other. -/
theorem bijOn_numbered {xs : List String} (nodup : xs.Nodup) :
    Set.BijOn (numbered xs) (Set.Icc 1 xs.length) {x | x ∈ xs} := by
  refine ⟨?mapsTo, ?injOn, ?surjOn⟩
  case mapsTo =>
    intro k within
    obtain ⟨i, rfl⟩ := exists_fin_of_mem_Icc within
    rw [numbered_succ]
    exact List.get_mem xs i
  case injOn =>
    intro k within k' within' same
    obtain ⟨i, rfl⟩ := exists_fin_of_mem_Icc within
    obtain ⟨j, rfl⟩ := exists_fin_of_mem_Icc within'
    rw [numbered_succ, numbered_succ, nodup.get_inj_iff] at same
    rw [same]
  case surjOn =>
    intro x member
    obtain ⟨i, rfl⟩ := List.get_of_mem member
    exact ⟨i.val + 1, ⟨by omega, i.isLt⟩, numbered_succ xs i⟩

/-- A look at the roster, and a choice among the values of a list. -/
theorem picksFrom_of_choose {next : Roster → Walk String} {w : Walker} {xs : List String}
    (nodup : xs.Nodup) (nonempty : 0 < xs.length) (chooses : next w.roster = choose xs nonempty)
    {sides : Positive} (size : sides.val = xs.length) :
    (survey >>= next).PicksFrom w sides {x | x ∈ xs} := by
  obtain rfl : sides = ⟨xs.length, nonempty⟩ := Subtype.ext size
  constructor
  case trail =>
    show ⟨w, .survey⟩ :: (next w.roster).trail w = _
    rw [chooses]
    rfl
  case picks =>
    refine ⟨numbered xs, bijOn_numbered nodup, fun draws result => ?shown, ?run⟩
    case shown =>
      rw [ifShown_survey_iff, chooses, choose, ifShown_roll_iff]
      constructor
      · rintro ⟨i, rest, rfl, shown⟩
        obtain ⟨rfl, rfl⟩ := ifShown_pure_iff.1 shown
        exact ⟨i.val + 1, ⟨by omega, i.isLt⟩, rfl, by rw [numbered_succ]⟩
      · rintro ⟨k, within, rfl, rfl⟩
        obtain ⟨i, rfl⟩ := exists_fin_of_mem_Icc within
        rw [numbered_succ]
        exact ⟨i, [], rfl, ifShown_pure_iff.2 ⟨rfl, rfl⟩⟩
    case run =>
      let drawn := w.dice.roll ⟨xs.length, nonempty⟩
      refine ⟨drawn.1.val + 1, ⟨by omega, drawn.1.isLt⟩, drawn.2, rfl, ?_⟩
      show (next w.roster).run w = _
      rw [chooses, numbered_succ]
      rfl

/-! ## Paths -/

/-- Without the current path there is one candidate less. -/
theorem Roster.length_otherPaths {roster : Roster} {path : String} (sound : roster.Sound)
    (current : roster.current = some path) :
    (roster.paths.filter (· ≠ path)).length = roster.size - 1 := by
  obtain ⟨u, found⟩ := sound.exists_current current
  have listed : path ∈ roster.paths := (roster.mem_paths_iff path).2 ⟨u, found⟩
  have erased : roster.paths.filter (· ≠ path) = roster.paths.erase path := by
    rw [sound.nodup_paths.erase_eq_filter]
    refine List.filter_congr fun other _ => ?_
    by_cases same : other = path
    · simp [same]
    · simp [same]
  rw [erased, List.length_erase_of_mem listed, roster.length_paths]

variable {w : Walker}

theorem somePath_picksFrom (sound : w.roster.Sound) (some : 0 < w.roster.size) :
    somePath.PicksFrom w ⟨w.roster.size, some⟩ {path | ∃ u, w.roster.unit? path = .some u} := by
  have nonempty : 0 < w.roster.paths.length := by rwa [w.roster.length_paths]
  have candidates : {path | ∃ u, w.roster.unit? path = .some u} = {path | path ∈ w.roster.paths} := by
    ext path
    exact (w.roster.mem_paths_iff path).symm
  have chooses : choosePath 1 w.roster.paths = choose w.roster.paths nonempty :=
    dif_pos nonempty
  rw [candidates]
  exact picksFrom_of_choose sound.nodup_paths nonempty chooses w.roster.length_paths.symm

theorem otherPath_picksFrom (sound : w.roster.Sound) (others : 1 < w.roster.size) :
    otherPath.PicksFrom w ⟨w.roster.size - 1, Nat.sub_pos_of_lt others⟩
      {path | (∃ u, w.roster.unit? path = some u) ∧ w.roster.current ≠ some path} := by
  obtain ⟨path, current⟩ : ∃ path, w.roster.current = some path := by
    rw [sound.current]
    cases size : w.roster.size with
    | zero => omega
    | succ n => exact ⟨unitPath n, rfl⟩
  have length := Roster.length_otherPaths sound current
  have nonempty : 0 < (w.roster.paths.filter (· ≠ path)).length := by omega
  have candidates :
      {other | (∃ u, w.roster.unit? other = some u) ∧ w.roster.current ≠ some other} =
        {other | other ∈ w.roster.paths.filter (· ≠ path)} := by
    ext other
    have apart : w.roster.current ≠ some other ↔ other ≠ path := by
      rw [current, ne_eq, Option.some.injEq, eq_comm]
    show _ ∧ _ ↔ other ∈ w.roster.paths.filter (· ≠ path)
    rw [List.mem_filter, w.roster.mem_paths_iff, apart, decide_eq_true_eq]
  have found : w.roster.currentPath = .ok path := by
    unfold Roster.currentPath
    rw [current]
  rw [candidates]
  refine picksFrom_of_choose (sound.nodup_paths.filter _) nonempty ?_ length.symm
  rw [if_neg (by omega), found]
  exact dif_pos nonempty

/-- **Each path is drawn by one number**, whatever the dice are. Where there are units, a draw
from as many numbers picks one of their paths; where there are two or more, a draw from one
number less picks one of those that are not current. There is no other draw. Each candidate
is picked by one of the numbers and by no other, and nothing else than the dice changes. -/
theorem path_of_each_number (reached : Script.Reached w) (dice : Dice) :
    let v : Walker := { w with dice }
    (∀ some : 0 < v.roster.size,
      somePath.PicksFrom v ⟨v.roster.size, some⟩ {path | ∃ u, v.roster.unit? path = .some u}) ∧
      ∀ others : 1 < v.roster.size,
        otherPath.PicksFrom v ⟨v.roster.size - 1, Nat.sub_pos_of_lt others⟩
          {path | (∃ u, v.roster.unit? path = some u) ∧ v.roster.current ≠ some path} := by
  intro v
  have sound : v.roster.Sound := reached.sound
  exact ⟨somePath_picksFrom sound, otherPath_picksFrom sound⟩

/-- With eleven units: the current path stands in the middle of the sorted list. -/
theorem path_of_each_number_among_eleven :
    let add : Walker → Walker := fun w => (Script.Command.addUnit.run {} w).2
    let w : Walker := Nat.iterate add 11 (.ofSeed 5)
    Script.Reached w ∧ 1 < w.roster.size ∧ w.roster.current = some "su10.sol" ∧
      ∀ dice, otherPath.PicksFrom { w with dice } ⟨10, by decide⟩
        {path | (∃ u, w.roster.unit? path = some u) ∧ w.roster.current ≠ some path} := by
  intro add w
  have reached (n : Nat) : Script.Reached (Nat.iterate add n (.ofSeed 5)) := by
    induction n with
    | zero => exact .start _ .free
    | succ n ih =>
      rw [Function.iterate_succ_apply']
      exact .command ih {} .addUnit
  have size : w.roster.size = 11 := by decide +kernel
  have others : 1 < w.roster.size := by omega
  have sides : (⟨w.roster.size - 1, Nat.sub_pos_of_lt others⟩ : Positive) = ⟨10, by decide⟩ :=
    Subtype.ext (by simp only [size])
  refine ⟨reached 11, others, by decide +kernel, fun dice => ?_⟩
  rw [← sides]
  exact (path_of_each_number (reached 11) dice).2 others

end SeedGrammar
