/-
# SeedGrammar.Proofs.Random.Digits — the draws of a shuffle are rows of digits

The digits of a batch are those of a mixed radix, so a draw below the number of outcomes of
the batch stands for one row of digits, and each row is that of one draw
(`bijOn_digitsFrom`). Batches follow each other without a gap in their moduli, so their digits
put together are a row for all moduli from the first on. It goes from the draws of a shuffle
to all rows of some length, each of them once, and to no other row (`bijOn_places`). That
length is what the last batch ends at, and may be more than there are elements.
-/
import SeedGrammar.Proofs.Random.Batches
import Mathlib.Data.List.Forall2
import Mathlib.Data.Nat.Factorial.Basic
import Mathlib.Data.Set.Card
import Mathlib.Order.Interval.Finset.Nat

namespace SeedGrammar.Shuffle

set_option autoImplicit false

/-! ## Rows of digits -/

/-- Digits for the moduli from `first` on. -/
def Fit (first : Nat) : List Nat → Prop
  | [] => True
  | k :: ks => k < first ∧ Fit (first + 1) ks

/-- All rows of so many digits for the moduli from `first` on. -/
def rows (first count : Nat) : Set (List Nat) :=
  {ks | ks.length = count ∧ Fit first ks}

variable {first count more : Nat} {ks ls : List Nat}

theorem fit_append : Fit first (ks ++ ls) ↔ Fit first ks ∧ Fit (first + ks.length) ls := by
  induction ks generalizing first with
  | nil => simp [Fit]
  | cons k ks ih =>
    have next : first + 1 + ks.length = first + (ks.length + 1) := by omega
    simp only [List.cons_append, Fit, ih, List.length_cons, next, and_assoc]

theorem rows_zero (first : Nat) : rows first 0 = {[]} := by
  ext ks
  constructor
  · rintro ⟨none, -⟩
    exact List.length_eq_zero_iff.1 none
  · rintro rfl
    exact ⟨rfl, trivial⟩

theorem append_mem_rows {count' : Nat} (here : ks ∈ rows first count)
    (later : ls ∈ rows (first + count) count') : ks ++ ls ∈ rows first (count + count') := by
  obtain ⟨rfl, fit⟩ := here
  obtain ⟨rfl, fit'⟩ := later
  exact ⟨List.length_append, fit_append.2 ⟨fit, fit'⟩⟩

theorem exists_append_of_mem_rows {count' : Nat} (row : ks ∈ rows first (count + count')) :
    ∃ here ∈ rows first count, ∃ later ∈ rows (first + count) count', ks = here ++ later := by
  obtain ⟨length, fit⟩ := row
  have cut : (ks.take count).length = count := by
    rw [List.length_take]
    omega
  rw [← List.take_append_drop count ks, fit_append, cut] at fit
  refine ⟨_, ⟨cut, fit.1⟩, ks.drop count, ⟨?_, fit.2⟩, (List.take_append_drop count ks).symm⟩
  rw [List.length_drop]
  omega

/-! ## Digits of one draw -/

/-- The number that digits for the moduli from `first` on stand for. -/
def numberFrom (first : Nat) : List Nat → Nat
  | [] => 0
  | k :: ks => k + first * numberFrom (first + 1) ks

namespace Batch

theorem numberFrom_digitsFrom (first draw more : Nat) :
    numberFrom first (digitsFrom first draw more) = draw := by
  induction more generalizing first draw with
  | zero => simp [digitsFrom, numberFrom]
  | succ more ih =>
    rw [digitsFrom, numberFrom, ih]
    exact Nat.mod_add_div draw first

theorem digitsFrom_mem_rows {draw : Nat} (pos : 0 < first) (below : draw < span first more) :
    digitsFrom first draw more ∈ rows first (more + 1) := by
  induction more generalizing first draw with
  | zero => exact ⟨rfl, below, trivial⟩
  | succ more ih =>
    have rest : draw / first < span (first + 1) more := Nat.div_lt_of_lt_mul below
    obtain ⟨length, fit⟩ := ih (Nat.succ_pos first) rest
    exact ⟨congrArg Nat.succ length, Nat.mod_lt draw pos, fit⟩

/-- The last digit is what is left of the draw, and so it may be any below its modulus. -/
theorem digitsFrom_numberFrom (row : ks ∈ rows first (more + 1)) :
    digitsFrom first (numberFrom first ks) more = ks := by
  obtain ⟨length, fit⟩ := row
  induction more generalizing first ks with
  | zero =>
    obtain ⟨k, rfl⟩ := List.length_eq_one_iff.1 length
    simp [digitsFrom, numberFrom]
  | succ more ih =>
    cases ks with
    | nil => cases length
    | cons k ks =>
      obtain ⟨below, fit⟩ := fit
      have lowest : (k + first * numberFrom (first + 1) ks) % first = k := by
        rw [Nat.add_mul_mod_self_left, Nat.mod_eq_of_lt below]
      have rest : (k + first * numberFrom (first + 1) ks) / first = numberFrom (first + 1) ks := by
        rw [Nat.add_mul_div_left k _ (by omega), Nat.div_eq_of_lt below, Nat.zero_add]
      rw [digitsFrom, numberFrom, lowest, rest, ih (Nat.succ.inj length) fit]

theorem numberFrom_lt (row : ks ∈ rows first (more + 1)) : numberFrom first ks < span first more := by
  obtain ⟨length, fit⟩ := row
  induction more generalizing first ks with
  | zero =>
    obtain ⟨k, rfl⟩ := List.length_eq_one_iff.1 length
    simpa [numberFrom, span] using fit.1
  | succ more ih =>
    cases ks with
    | nil => cases length
    | cons k ks =>
      obtain ⟨below, fit⟩ := fit
      have rest : numberFrom (first + 1) ks + 1 ≤ span (first + 1) more :=
        ih (Nat.succ.inj length) fit
      calc k + first * numberFrom (first + 1) ks
          < first * (numberFrom (first + 1) ks + 1) := by rw [Nat.mul_succ]; omega
        _ ≤ first * span (first + 1) more := Nat.mul_le_mul_left first rest

/-- Every row of digits is that of one draw below the number of outcomes. -/
theorem bijOn_digitsFrom (pos : 0 < first) (more : Nat) :
    Set.BijOn (fun draw => digitsFrom first draw more) (Set.Iio (span first more))
      (rows first (more + 1)) := by
  have inverse : Set.InvOn (numberFrom first) (fun draw => digitsFrom first draw more)
      (Set.Iio (span first more)) (rows first (more + 1)) :=
    ⟨fun draw _ => numberFrom_digitsFrom first draw more, fun _ row => digitsFrom_numberFrom row⟩
  exact inverse.bijOn (fun _ below => digitsFrom_mem_rows pos below) fun _ row => numberFrom_lt row

end Batch

/-! ## Digits of all draws -/

/-- All rows of draws for some batches, each draw in its whole range. -/
def outcomes (batches : List Batch) : Set (List Nat) :=
  {draws | List.Forall₂ (fun sides draw => draw < sides.val) (batches.map Batch.sides) draws}

/-- How many moduli are served by some batches. -/
def digitCount : List Batch → Nat
  | [] => 0
  | batch :: batches => batch.more + 1 + digitCount batches

/-- The digits of all draws, batch by batch. -/
def digitsEach (batches : List Batch) (draws : List Nat) : List Nat :=
  (List.zipWith Batch.digits batches draws).flatten

theorem cons_mem_outcomes_iff {batch : Batch} {batches : List Batch} {draw : Nat}
    {draws : List Nat} :
    draw :: draws ∈ outcomes (batch :: batches) ↔
      draw < batch.sides.val ∧ draws ∈ outcomes batches :=
  List.forall₂_cons

theorem exists_cons_of_mem_outcomes {batch : Batch} {batches : List Batch} {draws : List Nat}
    (drawn : draws ∈ outcomes (batch :: batches)) :
    ∃ draw rest, draws = draw :: rest ∧ draw < batch.sides.val ∧ rest ∈ outcomes batches := by
  cases drawn with
  | cons below rest => exact ⟨_, _, rfl, below, rest⟩

theorem bijOn_digitsEach_nil (first : Nat) :
    Set.BijOn (digitsEach []) (outcomes []) (rows first 0) := by
  have only : outcomes [] = {[]} := by
    ext draws
    exact List.forall₂_nil_left_iff
  rw [rows_zero, only]
  exact Set.bijOn_singleton.2 rfl

/-- One more batch in front of others, with the moduli before theirs. -/
theorem bijOn_digitsEach_cons {batch : Batch} {batches : List Batch}
    (rest : Set.BijOn (digitsEach batches) (outcomes batches)
      (rows (batch.first + (batch.more + 1)) count)) :
    Set.BijOn (digitsEach (batch :: batches)) (outcomes (batch :: batches))
      (rows batch.first (batch.more + 1 + count)) := by
  have here := Batch.bijOn_digitsFrom batch.first_pos batch.more
  refine ⟨?mapsTo, ?injOn, ?surjOn⟩
  case mapsTo =>
    intro draws drawn
    obtain ⟨draw, draws, rfl, below, drawn⟩ := exists_cons_of_mem_outcomes drawn
    exact append_mem_rows (here.mapsTo below) (rest.mapsTo drawn)
  case injOn =>
    intro draws drawn draws' drawn' same
    obtain ⟨draw, draws, rfl, below, drawn⟩ := exists_cons_of_mem_outcomes drawn
    obtain ⟨draw', draws', rfl, below', drawn'⟩ := exists_cons_of_mem_outcomes drawn'
    have lengths : (batch.digits draw).length = (batch.digits draw').length :=
      (here.mapsTo below).1.trans (here.mapsTo below').1.symm
    obtain ⟨digits, others⟩ := List.append_inj same lengths
    rw [here.injOn below below' digits, rest.injOn drawn drawn' others]
  case surjOn =>
    intro ks whole
    obtain ⟨digits, row, others, row', rfl⟩ := exists_append_of_mem_rows whole
    obtain ⟨draw, below, rfl⟩ := here.surjOn row
    obtain ⟨draws, drawn, rfl⟩ := rest.surjOn row'
    exact ⟨draw :: draws, cons_mem_outcomes_iff.2 ⟨below, drawn⟩, rfl⟩

/-- By induction on the batches, each of which starts at the modulus where the one before it
has ended. -/
theorem bijOn_digitsEach (first : Nat) (pos : 0 < first) (last : Nat) :
    Set.BijOn (digitsEach (batchesFrom first pos last)) (outcomes (batchesFrom first pos last))
      (rows first (digitCount (batchesFrom first pos last))) := by
  induction first, pos using batchesFrom.induct last with
  | case1 first pos within next ih =>
    rw [batchesFrom_of_le pos within]
    exact bijOn_digitsEach_cons ih
  | case2 first pos past =>
    rw [batchesFrom_of_lt pos (Nat.lt_of_not_le past)]
    exact bijOn_digitsEach_nil first

theorem lt_add_digitCount (first : Nat) (pos : 0 < first) (last : Nat) :
    last < first + digitCount (batchesFrom first pos last) := by
  induction first, pos using batchesFrom.induct last with
  | case1 first pos within next ih =>
    rw [batchesFrom_of_le pos within]
    show last < first + (next.more + 1 + digitCount (batchesFrom (first + next.more + 1) _ last))
    omega
  | case2 first pos past =>
    rw [batchesFrom_of_lt pos (Nat.lt_of_not_le past), digitCount]
    omega

/-! ## Digits of a shuffle -/

/-- How many places the draws of a shuffle of `n` elements give. -/
def placeCount (n : Nat) : Nat := digitCount (batches n)

/-- All combinations of draws for a shuffle of `n` elements. -/
def combinations (n : Nat) : Set (List Nat) := outcomes (batches n)

theorem bijOn_places (n : Nat) :
    Set.BijOn (places n) (combinations n) (rows 2 (placeCount n)) :=
  bijOn_digitsEach 2 (by omega) n

/-- There is a place for every element after the first. -/
theorem le_placeCount_succ (n : Nat) : n ≤ placeCount n + 1 := by
  have past := lt_add_digitCount 2 (by omega) n
  unfold placeCount batches
  omega

/-! ## How many there are -/

theorem span_eq_ascFactorial (first more : Nat) : span first more = first.ascFactorial (more + 1) := by
  induction more generalizing first with
  | zero => simp [span, Nat.ascFactorial]
  | succ more ih =>
    rw [span, ih, Nat.succ_ascFactorial]
    rfl

theorem ncard_rows (pos : 0 < first) (count : Nat) :
    (rows first count).ncard = first.ascFactorial count := by
  cases count with
  | zero =>
    rw [rows_zero, Set.ncard_singleton]
    rfl
  | succ more =>
    have digits := Batch.bijOn_digitsFrom pos more
    rw [← digits.image_eq, digits.injOn.ncard_image, ← span_eq_ascFactorial, ← Finset.coe_Iio,
      Set.ncard_coe_finset, Nat.card_Iio]

end SeedGrammar.Shuffle
