/-
# SeedGrammar.Proofs.Random.Draws — a bounded draw is a share of two words

Two words of the stream make a number of 64 bits, the first of them its high half. A draw
below `n` is that number scaled down to `n` outcomes: the high half of its product with `n`
(`ofWords_eq`). The carry is what the second word adds to it, and that word is left out only
where it could add nothing. So no draw reaches `n`, whatever the words are; in particular
nothing is carried into a high half that is already the largest outcome.
-/
import SeedGrammar.Walk.Operations

namespace SeedGrammar

set_option autoImplicit false

namespace Dice

/-! ## Two words -/

/-- Two words as one number, the first one high. -/
def joined (first second : Nat) : Nat := first * UInt32.size + second

/-- The number below `n` that two words stand for. The second counts only where the first
leaves room for a carry. -/
def ofWords (n first second : Nat) : Nat :=
  if low n first ≤ UInt32.size - n then high n first else carried n first second

variable {n first second : Nat}

theorem joined_lt (word : first < UInt32.size) (word' : second < UInt32.size) :
    joined first second < UInt32.size * UInt32.size := by
  unfold joined UInt32.size at *
  omega

/-- The product with `n`: the part above both words, the carry into it, and what lies below. -/
theorem joined_mul (n first second : Nat) :
    joined first second * n =
      UInt32.size * UInt32.size * high n first +
        UInt32.size * (low n first + high n second) + low n second := by
  have upper : UInt32.size * high n first + low n first = first * n := Nat.div_add_mod _ _
  have lower : UInt32.size * high n second + low n second = second * n := Nat.div_add_mod _ _
  have product : joined first second * n = UInt32.size * (first * n) + second * n := by
    unfold joined
    rw [Nat.add_mul, Nat.mul_comm first, Nat.mul_assoc]
  rw [product, ← upper, ← lower]
  unfold UInt32.size
  omega

theorem low_lt (n word : Nat) : low n word < UInt32.size :=
  Nat.mod_lt _ (by decide)

/-- With its carry, the high half of the first product is that of the whole product. -/
theorem carried_eq (pos : 0 < n) (word : n < UInt32.size) (word' : second < UInt32.size) :
    carried n first second = joined first second * n / (UInt32.size * UInt32.size) := by
  have first_low := low_lt n first
  have second_low := low_lt n second
  have second_high := high_lt pos word'
  rw [joined_mul]
  unfold carried
  by_cases carry : UInt32.size ≤ low n first + high n second
  · rw [if_pos carry]
    unfold UInt32.size at *
    omega
  · rw [if_neg carry]
    unfold UInt32.size at *
    omega

/-- Where the second word is not looked at, nothing would be carried from it. -/
theorem carried_eq_high (pos : 0 < n) (word : n < UInt32.size) (word' : second < UInt32.size)
    (small : low n first ≤ UInt32.size - n) : carried n first second = high n first := by
  have second_high := high_lt pos word'
  apply if_neg
  omega

/-- A draw is the number of the two words, scaled down to `n` outcomes. -/
theorem ofWords_eq (pos : 0 < n) (word : n < UInt32.size) (word' : second < UInt32.size) :
    ofWords n first second = joined first second * n / (UInt32.size * UInt32.size) := by
  rw [← carried_eq pos word word']
  unfold ofWords
  by_cases small : low n first ≤ UInt32.size - n
  · rw [if_pos small, carried_eq_high pos word word' small]
  · rw [if_neg small]

theorem ofWords_lt (pos : 0 < n) (word : n < UInt32.size) (first_word : first < UInt32.size)
    (second_word : second < UInt32.size) : ofWords n first second < n := by
  rw [ofWords_eq pos word second_word]
  apply Nat.div_lt_of_lt_mul
  exact Nat.mul_lt_mul_of_pos_right (joined_lt first_word second_word) pos

/-- There is no carry into the largest outcome. -/
theorem carried_eq_of_high_eq (pos : 0 < n) (word : n < UInt32.size)
    (first_word : first < UInt32.size) (second_word : second < UInt32.size)
    (largest : high n first = n - 1) : carried n first second = n - 1 := by
  have below := ofWords_lt pos word first_word second_word
  rw [ofWords_eq pos word second_word, ← carried_eq pos word second_word] at below
  unfold carried at below ⊢
  rw [largest] at below ⊢
  by_cases carry : UInt32.size ≤ low n first + high n second
  · rw [if_pos carry] at below
    omega
  · rw [if_neg carry]

/-- A draw takes the next word, and the one after it if that is looked at. -/
theorem fst_below (n : Nat) (dice : Dice) :
    (dice.below n).1 = ofWords n dice.word.1.toNat dice.word.2.word.1.toNat := by
  unfold below ofWords
  exact apply_ite Prod.fst (low n dice.word.1.toNat ≤ UInt32.size - n) _ _

end Dice

/-! ## Draws of a walker -/

open Walk

/-- **A draw stays in its range**, for any range that a word can tell and whatever the words
are. A walker draws a number from `1` to `n`, which is `1` just if something likely once in
`n` times happens, and which picks an element of any list of `n` by the place before it. It
is one more than the number of two words, scaled down to `n` outcomes. So a carry never
takes it past `n`, and there is none where the first word alone gives the largest outcome. -/
theorem uniform_in_range (n : Positive) (word : n.val < UInt32.size) :
    (∀ w : Walker, ∃ k dice,
      (uniform n).run w = (.ok k, { w with dice }) ∧ 1 ≤ k ∧ k ≤ n.val ∧
        (likely n).run w = (.ok (decide (k = 1)), { w with dice }) ∧
          k = Dice.ofWords n.val w.dice.word.1.toNat w.dice.word.2.word.1.toNat + 1 ∧
            ∀ {α : Type} (xs : List α), xs.length = n.val → ∃ x, xs[k - 1]? = some x) ∧
      ∀ first second : UInt32,
        Dice.ofWords n.val first.toNat second.toNat =
            Dice.joined first.toNat second.toNat * n.val / UInt64.size ∧
          Dice.ofWords n.val first.toNat second.toNat < n.val ∧
            (Dice.high n.val first.toNat = n.val - 1 →
              Dice.carried n.val first.toNat second.toNat = n.val - 1) := by
  have each (first second : UInt32) : Dice.ofWords n.val first.toNat second.toNat < n.val :=
    Dice.ofWords_lt n.property word first.toNat_lt second.toNat_lt
  refine ⟨fun w => ?_, fun first second => ⟨?_, each first second, fun largest => ?_⟩⟩
  · have drawn := Dice.fst_below n.val w.dice
    have below := each w.dice.word.1 w.dice.word.2.word.1
    rw [← drawn] at below
    refine ⟨(w.dice.below n.val).1 + 1, (w.dice.below n.val).2, rfl, by omega, by omega, rfl,
      by rw [drawn], fun xs size => ?_⟩
    rw [Nat.add_sub_cancel]
    exact ⟨_, List.getElem?_eq_getElem (by omega)⟩
  · exact Dice.ofWords_eq n.property word second.toNat_lt
  · exact Dice.carried_eq_of_high_eq n.property word first.toNat_lt second.toNat_lt largest

/-- The widest range, and the words that come closest to passing it. -/
theorem uniform_in_range_of_widest :
    let n : Positive := ⟨4294967295, by decide⟩
    n.val < UInt32.size ∧
      (∃ k dice, (uniform n).run (.ofSeed 42) = (.ok k, { Walker.ofSeed 42 with dice }) ∧
        1 ≤ k ∧ k ≤ 4294967295) ∧
        Dice.high n.val 4294967295 = 4294967294 ∧
          Dice.carried n.val 4294967295 4294967295 = 4294967294 := by
  intro n
  have ⟨draws, words⟩ := uniform_in_range n (by decide)
  obtain ⟨k, dice, drawn, positive, within, -⟩ := draws (.ofSeed 42)
  have largest : Dice.high n.val 4294967295 = 4294967294 := by decide
  exact ⟨by decide, ⟨k, dice, drawn, positive, within⟩, largest,
    (words 4294967295 4294967295).2.2 largest⟩

end SeedGrammar
