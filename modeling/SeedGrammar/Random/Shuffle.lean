/-
# SeedGrammar.Random.Shuffle — orders of a list from a few large draws

A shuffle of `n` elements deals them out one after another: the element at
position `i` changes places with one of the positions `0 … i`, which takes a
number below `i + 1`. Several such numbers share one draw. A `Batch` serves the
moduli `first, first + 1, …` as long as their product fits a word, and its draw
is read as a number of mixed radix, lowest digit first; the last digit is what
is left of the draw, with no remainder taken.

`batches n` are the draws that a shuffle of `n` elements makes, and
`permute xs draws` is the order they stand for. `permute_perm` says that it is
an order of the same elements, whatever the draws are. The batch that the list
ends in keeps its full range: the digits past the end are not used.
-/
import SeedGrammar.Random.Dice

namespace SeedGrammar.Shuffle

set_option autoImplicit false

variable {α : Type}

/-! ## Batches of moduli -/

/-- The moduli `first, …, first + more`, served by one draw. -/
structure Batch where
  first : Nat
  more : Nat
  first_pos : 0 < first

/-- The product `first * (first + 1) * … * (first + more)`. -/
def span (first : Nat) : Nat → Nat
  | 0 => first
  | more + 1 => first * span (first + 1) more

theorem span_pos {first : Nat} (more : Nat) (pos : 0 < first) : 0 < span first more := by
  induction more generalizing first with
  | zero => exact pos
  | succ more ih => exact Nat.mul_pos pos (ih (by omega))

/-- How many moduli from `next` on still fit beside a product. Each at least
doubles it, so 32 of them never fit a word and `fuel` does not run out. -/
def room (product next : Nat) : (fuel : Nat) → Nat
  | 0 => 0
  | fuel + 1 =>
    if product * next < UInt32.size then room (product * next) (next + 1) fuel + 1 else 0

namespace Batch

/-- The longest batch from a modulus on. -/
def startingAt (first : Nat) (pos : 0 < first) : Batch :=
  ⟨first, room first (first + 1) 32, pos⟩

/-- The number of outcomes that the batch tells apart. -/
def sides (batch : Batch) : Positive :=
  ⟨span batch.first batch.more, span_pos batch.more batch.first_pos⟩

/-- The lowest digit first; the last one is the quotient left over. -/
def digitsFrom (modulus : Nat) (draw : Nat) : Nat → List Nat
  | 0 => [draw]
  | more + 1 => draw % modulus :: digitsFrom (modulus + 1) (draw / modulus) more

def digits (batch : Batch) (draw : Nat) : List Nat :=
  digitsFrom batch.first draw batch.more

end Batch

/-- Batches for the moduli from `first` to at least `last`. -/
def batchesFrom (first : Nat) (pos : 0 < first) (last : Nat) : List Batch :=
  if first ≤ last then
    let batch := Batch.startingAt first pos
    batch :: batchesFrom (first + batch.more + 1) (by omega) last
  else
    []
termination_by last + 1 - first

/-- The batches that a shuffle of `n` elements draws. The element at position
`0` has nowhere else to go, so the moduli start at `2`. -/
def batches (n : Nat) : List Batch :=
  batchesFrom 2 (by omega) n

/-! ## Dealing -/

/-- Puts `x` at position `k` and what was there at the end; at or past the end,
`x` itself goes to the end. -/
def place (dealt : List α) (x : α) (k : Nat) : List α :=
  match dealt[k]? with
  | some y => dealt.set k x ++ [y]
  | none => dealt ++ [x]

def deal (dealt : List α) : List α → List Nat → List α
  | x :: xs, k :: ks => deal (place dealt x k) xs ks
  | xs, _ => dealt ++ xs

/-- The places that a list of draws gives to the elements after the first. -/
def places (n : Nat) (draws : List Nat) : List Nat :=
  (List.zipWith Batch.digits (batches n) draws).flatten

/-- The order of `xs` that a list of draws, one for each of its batches, stands
for. -/
def permute (xs : List α) (draws : List Nat) : List α :=
  match xs with
  | [] => []
  | x :: rest => deal [x] rest (places xs.length draws)

/-! ## No element is lost -/

theorem place_perm (dealt : List α) (x : α) (k : Nat) :
    (place dealt x k).Perm (dealt ++ [x]) := by
  unfold place
  split
  · rename_i y found
    obtain ⟨bound, rfl⟩ := List.getElem?_eq_some_iff.1 found
    have moved : (dealt.set k x).Perm (x :: dealt.eraseIdx k) := by
      rw [List.set_eq_take_append_cons_drop, if_pos bound, List.eraseIdx_eq_take_drop_succ]
      exact List.perm_middle
    have kept : dealt.Perm (dealt[k] :: dealt.eraseIdx k) := by
      rw [List.eraseIdx_eq_take_drop_succ]
      have middle : (dealt.take k ++ dealt[k] :: dealt.drop (k + 1)).Perm _ := List.perm_middle
      rwa [List.getElem_cons_drop, List.take_append_drop] at middle
    refine (moved.append_right _).trans ?_
    refine (List.perm_append_singleton _ _).trans ?_
    refine (List.Perm.swap _ _ _).trans ?_
    exact (kept.symm.cons x).trans (List.perm_append_singleton x dealt).symm
  · exact List.Perm.refl _

theorem deal_perm (dealt xs : List α) (ks : List Nat) :
    (deal dealt xs ks).Perm (dealt ++ xs) := by
  induction xs generalizing dealt ks with
  | nil => cases ks <;> exact List.Perm.refl _
  | cons x xs ih =>
    cases ks with
    | nil => exact List.Perm.refl _
    | cons k ks =>
      refine (ih (place dealt x k) ks).trans ?_
      simpa using (place_perm dealt x k).append_right xs

theorem permute_perm (xs : List α) (draws : List Nat) : (permute xs draws).Perm xs := by
  cases xs with
  | nil => exact List.Perm.refl _
  | cons x rest => exact deal_perm [x] rest _

/-! ## Elements are not looked at -/

variable {β : Type} (f : α → β)

theorem place_map (dealt : List α) (x : α) (k : Nat) :
    place (dealt.map f) (f x) k = (place dealt x k).map f := by
  unfold place
  rw [List.getElem?_map]
  cases dealt[k]? with
  | none => simp
  | some y => simp

theorem deal_map (dealt xs : List α) (ks : List Nat) :
    deal (dealt.map f) (xs.map f) ks = (deal dealt xs ks).map f := by
  induction xs generalizing dealt ks with
  | nil => cases ks <;> simp [deal]
  | cons x xs ih =>
    cases ks with
    | nil => simp [deal]
    | cons k ks =>
      rw [List.map_cons, deal, place_map]
      exact ih (place dealt x k) ks

theorem permute_map (xs : List α) (draws : List Nat) :
    permute (xs.map f) draws = (permute xs draws).map f := by
  cases xs with
  | nil => rfl
  | cons x rest =>
    show deal [f x] (rest.map f) (places (rest.map f).length.succ draws) = _
    rw [List.length_map]
    exact deal_map f [x] rest _

end SeedGrammar.Shuffle
