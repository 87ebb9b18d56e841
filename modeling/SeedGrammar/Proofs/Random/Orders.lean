/-
# SeedGrammar.Proofs.Random.Orders — a shuffle favours no order

What a shuffle draws depends on nothing but the length of the list, and so does the order that
comes of it. Its draws may be any combination at all, each of them in its whole range, and
each combination is one row of places (`bijOn_places`). The first places of a row decide the
order, each order being that of one way to choose them (`bijOn_deal`); the places past the
end of the list do not matter. So as many combinations lead to one order as to any other:
those in which the places past the end are chosen freely (`factorial_mul_ncard_draws`).
-/
import SeedGrammar.Proofs.Random.Dealing
import SeedGrammar.Proofs.Walk.Keeping
import SeedGrammar.Proofs.Walk.Shown

namespace SeedGrammar.Shuffle

set_option autoImplicit false

open Walk

variable {α : Type} {n : Nat} {xs ys : List α} {draws : List Nat}

/-! ## Orders by number -/

/-- The same draws put any list of the same length into the same order. -/
theorem permute_eq_map (draws : List Nat) (size : xs.length = n) :
    permute xs draws = (permute (List.finRange n) draws).map fun i => xs[i] := by
  subst size
  rw [← permute_map]
  congr 1
  exact (List.map_get_finRange xs).symm

theorem permute_cons (x : α) (xs : List α) (draws : List Nat) :
    permute (x :: xs) draws = deal [x] xs (places (xs.length + 1) draws) :=
  rfl

/-- Places past the end of the list do not matter. -/
theorem deal_append {dealt : List α} {ks ls : List Nat} (each : ks.length = xs.length) :
    deal dealt xs (ks ++ ls) = deal dealt xs ks := by
  induction xs generalizing dealt ks with
  | nil =>
    obtain rfl := List.length_eq_zero_iff.1 each
    cases ls <;> rfl
  | cons x xs ih =>
    cases ks with
    | nil => cases each
    | cons k ks => exact ih (Nat.succ.inj each)

/-- The places that decide an order, and the places past the end. -/
theorem exists_places {m : Nat} (drawn : draws ∈ combinations (m + 1)) :
    ∃ ks ∈ rows 2 m, ∃ ls ∈ rows (2 + m) (placeCount (m + 1) - m),
      places (m + 1) draws = ks ++ ls := by
  have enough := le_placeCount_succ (m + 1)
  have row := (bijOn_places (m + 1)).mapsTo drawn
  rw [show placeCount (m + 1) = m + (placeCount (m + 1) - m) by omega] at row
  exact exists_append_of_mem_rows row

/-- A shuffle is one exchange for every element after the first, and each of them is between
positions of the list. -/
theorem exchangeEach_places (drawn : draws ∈ combinations xs.length) :
    exchangeEach xs 1 ((places xs.length draws).take (xs.length - 1)) =
      some (permute xs draws) := by
  cases xs with
  | nil => rfl
  | cons x xs =>
    obtain ⟨ks, row, ls, -, split⟩ := exists_places drawn
    have dealt : exchangeEach ([x] ++ xs) [x].length ks = some (deal [x] xs ks) :=
      exchangeEach_eq_deal row.2 row.1
    have taken : (ks ++ ls).take xs.length = ks := by rw [← row.1, List.take_left]
    rw [permute_cons, List.length_cons, Nat.add_sub_cancel, split, deal_append row.1, taken]
    exact dealt

/-! ## Combinations for one order -/

theorem ncard_combinations (n : Nat) : (combinations n).ncard = (placeCount n + 1).factorial := by
  have places := bijOn_places n
  rw [← places.injOn.ncard_image, places.image_eq, ncard_rows_two]

/-- The combinations for one order are the free choices of the places past the end. -/
theorem exists_image_places {x : α} (nodup : (x :: xs).Nodup) (order : ys ∈ orders (x :: xs)) :
    ∃ ks : List Nat, places (xs.length + 1) ''
        {draws ∈ combinations (xs.length + 1) | permute (x :: xs) draws = ys} =
      (ks ++ ·) '' rows (2 + xs.length) (placeCount (xs.length + 1) - xs.length) := by
  have deals := bijOn_deal nodup
  obtain ⟨ks, row, rfl⟩ := deals.surjOn order
  refine ⟨ks, ?_⟩
  ext places'
  constructor
  · rintro ⟨draws, ⟨drawn, same⟩, rfl⟩
    obtain ⟨ks', row', ls, spare, split⟩ := exists_places drawn
    rw [permute_cons, split, deal_append row'.1] at same
    rw [split, deals.injOn row' row same]
    exact ⟨ls, spare, rfl⟩
  · rintro ⟨ls, spare, rfl⟩
    have enough := le_placeCount_succ (xs.length + 1)
    have whole := append_mem_rows row spare
    rw [show xs.length + (placeCount (xs.length + 1) - xs.length) = placeCount (xs.length + 1) by
      omega] at whole
    obtain ⟨draws, drawn, split⟩ := (bijOn_places (xs.length + 1)).surjOn whole
    refine ⟨draws, ⟨drawn, ?_⟩, split⟩
    rw [permute_cons, split, deal_append row.1]

/-- As many combinations lead to one order of different elements as to any other. -/
theorem factorial_mul_ncard_draws (nodup : xs.Nodup) (order : ys ∈ orders xs) :
    xs.length.factorial * {draws ∈ combinations xs.length | permute xs draws = ys}.ncard =
      (combinations xs.length).ncard := by
  cases xs with
  | nil =>
    obtain rfl : ys = [] := List.perm_nil.1 order
    simp [permute]
  | cons x xs =>
    have enough := le_placeCount_succ (xs.length + 1)
    have injOn := (bijOn_places (xs.length + 1)).injOn
    have some : {draws ∈ combinations (xs.length + 1) | permute (x :: xs) draws = ys} ⊆
        combinations (xs.length + 1) := fun _ drawn => drawn.1
    obtain ⟨ks, image⟩ := exists_image_places nodup order
    rw [List.length_cons, ncard_combinations, ← (injOn.mono some).ncard_image, image,
      Set.ncard_image_of_injective _ (List.append_right_injective ks), ncard_rows (by omega),
      Nat.add_comm 2 xs.length, Nat.factorial_mul_ascFactorial]
    congr 1
    omega

/-! ## Shuffles -/

/-- The draws of a shuffle may be any combination, and decide what it comes to. -/
theorem ifShown_shuffle_iff {w : Walker} {result : Except Error (List α) × Walker} :
    (shuffle xs).IfShown w draws result ↔
      draws ∈ combinations xs.length ∧ result = (.ok (permute xs draws), w) := by
  unfold shuffle
  rw [ifShown_rollEach_iff]
  constructor
  · rintro ⟨first, rest, rfl, inRange, shown⟩
    obtain ⟨rfl, rfl⟩ := ifShown_pure_iff.1 shown
    rw [List.append_nil]
    exact ⟨inRange, rfl⟩
  · rintro ⟨drawn, rfl⟩
    exact ⟨draws, [], (List.append_nil draws).symm, drawn, ifShown_pure_iff.2 ⟨rfl, rfl⟩⟩

/-- Whatever the dice, a combination is drawn, the same one for all lists of a length. -/
theorem exists_run_rollEach (n : Nat) (w : Walker) :
    ∃ draws ∈ combinations n, ∃ dice,
      (rollEach ((batches n).map Batch.sides)).run w = (.ok draws, { w with dice }) := by
  obtain ⟨draws, dice, ran, -⟩ :=
    (draws_rollEach ((batches n).map Batch.sides)).exists_run w
  obtain ⟨drawn, shown⟩ := exists_ifShown_run (rollEach ((batches n).map Batch.sides)) w w.dice
  rw [ran, ← bind_pure (rollEach _), ifShown_rollEach_iff] at shown
  obtain ⟨first, rest, rfl, inRange, shown⟩ := shown
  obtain ⟨rfl, same⟩ := ifShown_pure_iff.1 shown
  cases same
  exact ⟨draws, inRange, dice, ran⟩

theorem run_shuffle {w : Walker} {dice : Dice} (size : xs.length = n)
    (ran : (rollEach ((batches n).map Batch.sides)).run w = (.ok draws, { w with dice })) :
    (shuffle xs).run w = (.ok (permute xs draws), { w with dice }) := by
  unfold shuffle
  rw [size, run_bind, ran]
  rfl

/-- **A shuffle favours no order.** Each of its draws is below a product of moduli that fits a
word, and that would not with one modulus more.

A walker puts all lists of one length into the same order, which dice and length decide, and
no element is lost or comes twice. The draws may be any combination, each of them in its
whole range. Whatever they are, what comes of them are exchanges between positions of the list.
Of all combinations, each of the orders that different elements can be in takes the same share. -/
theorem shuffle_favours_none (word : n < UInt32.size) :
    (∀ batch ∈ batches n, batch.sides.val < UInt32.size ∧
      UInt32.size ≤ span batch.first (batch.more + 1)) ∧
      (∀ w : Walker, ∃ draws ∈ combinations n, ∃ (dice : Dice) (order : List (Fin n)),
        order ∈ orders (List.finRange n) ∧
          ∀ {α : Type} (xs : List α) (size : xs.length = n),
            permute xs draws = (order.map fun i => xs[i]) ∧
              (shuffle xs).run w = (.ok (permute xs draws), { w with dice })) ∧
        0 < (combinations n).ncard ∧
          ∀ {α : Type} (xs : List α), xs.length = n →
            (∀ w draws result, (shuffle xs).IfShown w draws result ↔
              draws ∈ combinations n ∧ result = (.ok (permute xs draws), w)) ∧
              (∀ draws ∈ combinations n, permute xs draws ∈ orders xs ∧
                exchangeEach xs 1 ((places n draws).take (n - 1)) = some (permute xs draws)) ∧
                (xs.Nodup → (orders xs).ncard = n.factorial ∧
                  ∀ ys ∈ orders xs, ∀ w,
                    n.factorial * {draws | (shuffle xs).IfShown w draws (.ok ys, w)}.ncard =
                      (combinations n).ncard) := by
  refine ⟨fun batch member => ?_, fun w => ?_, ?_, fun xs size => ?_⟩
  · obtain ⟨modulus, positive, within, rfl⟩ := mem_batchesFrom member
    exact ⟨sides_startingAt_lt positive (by omega), size_le_span_startingAt positive⟩
  · obtain ⟨draws, drawn, dice, ran⟩ := exists_run_rollEach n w
    exact ⟨draws, drawn, dice, permute (List.finRange n) draws, permute_perm _ draws,
      fun xs size => ⟨permute_eq_map draws size, run_shuffle size ran⟩⟩
  · rw [ncard_combinations]
    exact Nat.factorial_pos _
  · subst size
    refine ⟨fun w draws result => ifShown_shuffle_iff, fun draws drawn => ?_, fun nodup => ?_⟩
    · exact ⟨permute_perm xs draws, exchangeEach_places drawn⟩
    · refine ⟨ncard_orders nodup, fun ys order w => ?_⟩
      have same : {draws | (shuffle xs).IfShown w draws (.ok ys, w)} =
          {draws ∈ combinations xs.length | permute xs draws = ys} := by
        ext draws
        simp [ifShown_shuffle_iff, eq_comm]
      rw [same, factorial_mul_ncard_draws nodup order]

/-- For thirteen elements, the second of two draws serves seven places, of which one is used. -/
theorem shuffle_favours_none_of_thirteen :
    13 < UInt32.size ∧ (List.range 13).Nodup ∧
      (combinations 13).ncard = (19).factorial ∧
        ∀ w, {draws | (shuffle (List.range 13)).IfShown w draws
          (.ok (List.range 13).reverse, w)}.ncard = 19535040 := by
  have places : placeCount 13 = 18 := by
    unfold placeCount batches
    rw [batchesFrom_of_le _ (by decide), batchesFrom_of_le _ (by decide),
      batchesFrom_of_lt _ (by decide)]
    decide
  have all : (combinations 13).ncard = (19).factorial := by rw [ncard_combinations, places]
  have nodup : (List.range 13).Nodup := List.nodup_range
  refine ⟨by decide, nodup, all, fun w => ?_⟩
  have evenly := (shuffle_favours_none (n := 13) (by decide)).2.2.2 (List.range 13)
    List.length_range
  have share := (evenly.2.2 nodup).2 _ (List.reverse_perm _) w
  rw [all] at share
  exact Nat.eq_of_mul_eq_mul_left (Nat.factorial_pos 13) (share.trans (by decide))

end SeedGrammar.Shuffle
