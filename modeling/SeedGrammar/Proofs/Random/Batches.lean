/-
# SeedGrammar.Proofs.Random.Batches — every draw of a shuffle fits a word

A batch is extended as long as the product of its moduli fits a word, so its number of
outcomes does (`sides_startingAt_lt`), unless its first modulus is already too large. With
one modulus more it would not (`size_le_span_startingAt`). The moduli of a shuffle are no
larger than the list (`mem_batchesFrom`).
-/
import SeedGrammar.Random.Shuffle

namespace SeedGrammar.Shuffle

set_option autoImplicit false

/-- The moduli for which there is room fit a word together with the product before them. -/
theorem mul_span_lt_of_room {product next fuel more : Nat}
    (found : room product next fuel = more + 1) : product * span next more < UInt32.size := by
  induction fuel generalizing product next more with
  | zero => cases found
  | succ fuel ih =>
    rw [room] at found
    by_cases fits : product * next < UInt32.size
    · rw [if_pos fits] at found
      cases more with
      | zero => exact fits
      | succ more =>
        rw [span, ← Nat.mul_assoc]
        exact ih (Nat.succ.inj found)
    · rw [if_neg fits] at found
      cases found

theorem sides_startingAt_lt {first : Nat} (pos : 0 < first) (word : first < UInt32.size) :
    (Batch.startingAt first pos).sides.val < UInt32.size := by
  show span first (room first (first + 1) 32) < UInt32.size
  cases found : room first (first + 1) 32 with
  | zero => exact word
  | succ more => exact mul_span_lt_of_room found

/-- The count of moduli is not cut short by its fuel: one modulus more does not fit, as each
of them at least doubles the product. -/
theorem size_le_mul_span_room {product next fuel : Nat} (two : 2 ≤ next)
    (enough : UInt32.size ≤ product * Nat.pow 2 fuel) :
    UInt32.size ≤ product * span next (room product next fuel) := by
  induction fuel generalizing product next with
  | zero => exact Nat.le_trans enough (Nat.mul_le_mul_left product (by show 1 ≤ next; omega))
  | succ fuel ih =>
    rw [room]
    by_cases fits : product * next < UInt32.size
    · rw [if_pos fits, span, ← Nat.mul_assoc]
      apply ih (by omega)
      calc UInt32.size ≤ product * (Nat.pow 2 fuel * 2) := enough
        _ = product * 2 * Nat.pow 2 fuel := by rw [Nat.mul_comm (Nat.pow 2 fuel), Nat.mul_assoc]
        _ ≤ product * next * Nat.pow 2 fuel :=
          Nat.mul_le_mul_right _ (Nat.mul_le_mul_left product two)
    · rw [if_neg fits]
      exact Nat.le_of_not_lt fits

theorem size_le_span_startingAt {first : Nat} (pos : 0 < first) :
    UInt32.size ≤ span first ((Batch.startingAt first pos).more + 1) :=
  size_le_mul_span_room (by omega) (Nat.le_mul_of_pos_left UInt32.size pos)

/-- The batch after the longest one starts where that has ended. -/
theorem batchesFrom_of_le {first last : Nat} (pos : 0 < first) (within : first ≤ last) :
    batchesFrom first pos last =
      Batch.startingAt first pos ::
        batchesFrom (first + (Batch.startingAt first pos).more + 1) (Nat.succ_pos _) last := by
  rw [batchesFrom, if_pos within]

theorem batchesFrom_of_lt {first last : Nat} (pos : 0 < first) (past : last < first) :
    batchesFrom first pos last = [] := by
  rw [batchesFrom, if_neg (Nat.not_le_of_lt past)]

theorem mem_batchesFrom {first last : Nat} {pos : 0 < first} {batch : Batch}
    (member : batch ∈ batchesFrom first pos last) :
    ∃ modulus positive, modulus ≤ last ∧ batch = Batch.startingAt modulus positive := by
  induction first, pos using batchesFrom.induct last with
  | case1 first pos within next ih =>
    rw [batchesFrom_of_le pos within] at member
    rcases List.mem_cons.1 member with rfl | later
    · exact ⟨first, pos, within, rfl⟩
    · exact ih later
  | case2 first pos past =>
    rw [batchesFrom_of_lt pos (Nat.lt_of_not_le past)] at member
    cases member

/-- Shuffles of lists that words can count draw from words. -/
theorem sides_lt_of_mem_batches {n : Nat} (word : n < UInt32.size) :
    ∀ sides ∈ (batches n).map Batch.sides, sides.val < UInt32.size := by
  intro sides drawn
  obtain ⟨batch, member, rfl⟩ := List.mem_map.1 drawn
  obtain ⟨modulus, positive, within, rfl⟩ := mem_batchesFrom member
  exact sides_startingAt_lt positive (Nat.lt_of_le_of_lt within word)

end SeedGrammar.Shuffle
