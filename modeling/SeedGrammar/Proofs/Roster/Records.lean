/-
# SeedGrammar.Proofs.Roster.Records — a roster is a row of records

Paths are numbered in the order in which units are added, and the unit added last
is current. So a roster is decided by the records of its units in that order
(`ofRecords`), and what an operation does is said on the row alone:

* adding a unit puts a blank record at its end (`addUnit_ofRecords`);
* an operation on the current unit changes the last record and nothing else
  (`withCurrent_ofRecords`);
* looking up the path numbered `i` finds record `i` (`unit?_ofRecords`), as no two
  numbers give one path.
-/
import SeedGrammar.Roster
import Mathlib.Data.List.Induction

namespace SeedGrammar

set_option autoImplicit false

/-! ## Numbered names -/

theorem toString_nat_injective {m n : Nat} (same : toString m = toString n) : m = n := by
  have digits : Nat.toDigits 10 m = Nat.toDigits 10 n := by
    simpa using congrArg String.toList same
  have value (k : Nat) : Nat.ofDigitChars 10 (Nat.toDigits 10 k) 0 = k :=
    Nat.ofDigitChars_toDigits (by decide) (by decide)
  rw [← value m, digits, value n]

theorem unitPath_injective {m n : Nat} (same : unitPath m = unitPath n) : m = n := by
  have chars := congrArg String.toList same
  simp only [unitPath, String.toList_append, List.append_assoc, List.append_cancel_left_eq,
    List.append_cancel_right_eq] at chars
  exact toString_nat_injective (String.toList_inj.1 chars)

namespace Roster

/-! ## Rows of records -/

/-- The roster of some units, given what is known of each in the order in which
they were added. -/
def ofRecords (records : List UnitRecord) : Roster where
  units := records.zipIdx.map fun (record, i) => (unitPath i, record)
  current := match records.length with
    | 0 => none
    | n + 1 => some (unitPath n)
  minted := records.length

theorem ofRecords_append (rs : List UnitRecord) (u : UnitRecord) :
    ofRecords (rs ++ [u]) =
      ⟨(ofRecords rs).units ++ [(unitPath rs.length, u)], some (unitPath rs.length),
        rs.length + 1⟩ := by
  simp [ofRecords, List.zipIdx_append]

@[simp] theorem size_ofRecords (rs : List UnitRecord) : (ofRecords rs).size = rs.length := by
  simp [size, ofRecords]

theorem map_fst_units_ofRecords (rs : List UnitRecord) :
    (ofRecords rs).units.map Prod.fst = (List.range rs.length).map unitPath := by
  induction rs using List.reverseRecOn with
  | nil => rfl
  | append_singleton rs u ih =>
    rw [ofRecords_append]
    simp [ih, List.range_succ]

theorem paths_ofRecords (rs : List UnitRecord) :
    (ofRecords rs).paths.Perm ((List.range rs.length).map unitPath) := by
  unfold paths
  rw [map_fst_units_ofRecords]
  exact List.mergeSort_perm _ _

theorem unit?_ofRecords (rs : List UnitRecord) (i : Nat) :
    (ofRecords rs).unit? (unitPath i) = rs[i]? := by
  unfold unit?
  induction rs using List.reverseRecOn with
  | nil => rfl
  | append_singleton rs u ih =>
    rw [ofRecords_append, List.lookup_append, ih, List.getElem?_append]
    by_cases known : i < rs.length
    · simp [known]
    · by_cases last : i = rs.length
      · subst last
        simp
      · have apart : unitPath i ≠ unitPath rs.length := fun same => last (unitPath_injective same)
        have none : ([u] : List UnitRecord)[i - rs.length]? = none := by
          rw [List.getElem?_eq_none_iff, List.length_singleton]
          omega
        simp [known, apart, none]

theorem current_ofRecords_append (rs : List UnitRecord) (u : UnitRecord) :
    (ofRecords (rs ++ [u])).current = some (unitPath rs.length) := by
  rw [ofRecords_append]

theorem unit?_ofRecords_last (rs : List UnitRecord) (u : UnitRecord) :
    (ofRecords (rs ++ [u])).unit? (unitPath rs.length) = some u := by
  rw [unit?_ofRecords]
  simp

/-! ## Operations -/

theorem addUnit_ofRecords (rs : List UnitRecord) :
    (ofRecords rs).addUnit = (unitPath rs.length, ofRecords (rs ++ [.blank])) := by
  rw [ofRecords_append]
  rfl

theorem put_ofRecords (rs : List UnitRecord) (u u' : UnitRecord) :
    (ofRecords (rs ++ [u])).put (unitPath rs.length) u' = ofRecords (rs ++ [u']) := by
  have earlier : (ofRecords rs).units.map (fun entry =>
      if entry.1 = unitPath rs.length then (unitPath rs.length, u') else entry) =
        (ofRecords rs).units := by
    conv_rhs => rw [← List.map_id (ofRecords rs).units]
    refine List.map_congr_left fun entry member => if_neg fun same => ?_
    have known : entry.1 ∈ (ofRecords rs).units.map Prod.fst := List.mem_map_of_mem member
    rw [map_fst_units_ofRecords, same, List.mem_map] at known
    obtain ⟨i, below, numbered⟩ := known
    have number := unitPath_injective numbered
    rw [List.mem_range] at below
    omega
  rw [ofRecords_append, ofRecords_append, put]
  simp [earlier]

@[simp] theorem currentPath_ofRecords (rs : List UnitRecord) (u : UnitRecord) :
    (ofRecords (rs ++ [u])).currentPath = .ok (unitPath rs.length) := by
  unfold currentPath
  rw [current_ofRecords_append]

@[simp] theorem currentUnit_ofRecords (rs : List UnitRecord) (u : UnitRecord) :
    (ofRecords (rs ++ [u])).currentUnit = .ok u := by
  unfold currentUnit
  rw [current_ofRecords_append]
  simp only [unit?_ofRecords_last]

@[simp] theorem level_ofRecords (rs : List UnitRecord) (u : UnitRecord) :
    (ofRecords (rs ++ [u])).level = .ok u.level := by
  unfold level
  rw [currentUnit_ofRecords]
  rfl

theorem withCurrent_ofRecords {α : Type} (rs : List UnitRecord) (u : UnitRecord)
    (act : String → UnitRecord → Except Error (α × UnitRecord)) :
    (ofRecords (rs ++ [u])).withCurrent act =
      match act (unitPath rs.length) u with
      | .error e => (.error e, ofRecords (rs ++ [u]))
      | .ok (value, u') => (.ok value, ofRecords (rs ++ [u'])) := by
  unfold withCurrent
  rw [current_ofRecords_append]
  rcases does : act (unitPath rs.length) u with e | ⟨value, u'⟩
  · simp only [unit?_ofRecords_last, does]
  · simp only [unit?_ofRecords_last, does, put_ofRecords]

theorem nameContract_ofRecords (rs : List UnitRecord) (u : UnitRecord) :
    (ofRecords (rs ++ [u])).nameContract =
      (.ok (contractName u.contracts), ofRecords (rs ++ [u.nameContract.2])) :=
  withCurrent_ofRecords rs u _

theorem nameFunction_ofRecords (rs : List UnitRecord) (u : UnitRecord) :
    (ofRecords (rs ++ [u])).nameFunction =
      (.ok (functionName u.functions), ofRecords (rs ++ [u.nameFunction.2])) :=
  withCurrent_ofRecords rs u _

theorem indent_ofRecords (rs : List UnitRecord) (u : UnitRecord) :
    (ofRecords (rs ++ [u])).indent =
      (.ok (), ofRecords (rs ++ [{ u with level := u.level + 1 }])) :=
  withCurrent_ofRecords rs u _

theorem unindent_ofRecords (rs : List UnitRecord) (u : UnitRecord) (level : Nat)
    (inside : u.level = level + 1) :
    (ofRecords (rs ++ [u])).unindent = (.ok (), ofRecords (rs ++ [{ u with level }])) := by
  unfold unindent
  rw [withCurrent_ofRecords, inside]

/-- An import is recorded, unless it was before or is that of the unit itself. -/
theorem addImport_ofRecords_cases (rs : List UnitRecord) (u : UnitRecord) (target : String) :
    (ofRecords (rs ++ [u])).addImport target =
      if target = unitPath rs.length ∨ target ∈ u.imports then
        (.ok false, ofRecords (rs ++ [u]))
      else
        (.ok true, ofRecords (rs ++ [{ u with imports := u.imports ++ [target] }])) := by
  unfold addImport
  rw [current_ofRecords_append]
  by_cases itself : target = unitPath rs.length
  · subst itself
    simp
  · have apart : ¬ some (unitPath rs.length) = some target :=
      fun same => itself (Option.some.inj same).symm
    rw [if_neg apart, withCurrent_ofRecords]
    by_cases known : target ∈ u.imports <;> simp [itself, known]

/-- An import of an earlier unit is recorded, unless it was before. -/
theorem addImport_ofRecords (rs : List UnitRecord) (u : UnitRecord) {i : Nat}
    (earlier : i < rs.length) :
    (ofRecords (rs ++ [u])).addImport (unitPath i) =
      if unitPath i ∈ u.imports then
        (.ok false, ofRecords (rs ++ [u]))
      else
        (.ok true, ofRecords (rs ++ [{ u with imports := u.imports ++ [unitPath i] }])) := by
  have apart : unitPath i ≠ unitPath rs.length := by
    intro same
    have number := unitPath_injective same
    omega
  rw [addImport_ofRecords_cases]
  simp only [apart, false_or]

end Roster

end SeedGrammar
