/-
# SeedGrammar.Proofs.Random.Dealing — every order is dealt by one row of places

To deal elements out is to exchange each of them with one that stands no further back than
itself, so no exchange ever looks past the end of the list (`exchangeEach_eq_deal`).

The place of the last element can be told from the order that was dealt, and so can the order
before it was placed. Going back like this from the last element to the second, every order
of different elements is found to come from one row of places and from no other
(`bijOn_deal`). The element dealt first has no choice.
-/
import SeedGrammar.Proofs.Random.Digits
import Mathlib.Data.List.Induction
import Mathlib.Data.List.Permutation

namespace SeedGrammar.Shuffle

set_option autoImplicit false

variable {α : Type} {dealt dealt' xs ys : List α} {x : α} {k k' : Nat} {ks : List Nat}

/-! ## Exchanges -/

/-- Two positions of a list change places. There is no outcome if one of them is not in it. -/
def exchange (xs : List α) (i k : Nat) : Option (List α) := do
  let x ← xs[i]?
  let y ← xs[k]?
  return (xs.set i y).set k x

/-- One position after another changes places with one that is given for it. -/
def exchangeEach (xs : List α) (i : Nat) : List Nat → Option (List α)
  | [] => some xs
  | k :: ks => do exchangeEach (← exchange xs i k) (i + 1) ks

/-- The element behind those dealt changes places with one of them, or with itself. -/
theorem exchange_eq_place (within : k ≤ dealt.length) (rest : List α) :
    exchange (dealt ++ x :: rest) dealt.length k = some (place dealt x k ++ rest) := by
  have here : (dealt ++ x :: rest)[dealt.length]? = some x := by simp
  unfold exchange place
  rw [here]
  rcases Nat.lt_or_eq_of_le within with earlier | rfl
  · have there : (dealt ++ x :: rest)[k]? = some dealt[k] := by
      rw [List.getElem?_append_left earlier, List.getElem?_eq_getElem earlier]
    rw [there, List.getElem?_eq_getElem earlier]
    simp [earlier]
  · simp

theorem length_place (dealt : List α) (x : α) (k : Nat) :
    (place dealt x k).length = dealt.length + 1 := by
  simpa using (place_perm dealt x k).length_eq

/-- Where there is a place for each element, dealing them out is a row of exchanges. -/
theorem exchangeEach_eq_deal (fit : Fit (dealt.length + 1) ks) (each : ks.length = xs.length) :
    exchangeEach (dealt ++ xs) dealt.length ks = some (deal dealt xs ks) := by
  induction xs generalizing dealt ks with
  | nil =>
    obtain rfl := List.length_eq_zero_iff.1 each
    simp [exchangeEach, deal]
  | cons x xs ih =>
    cases ks with
    | nil => cases each
    | cons k ks =>
      have first := exchange_eq_place (x := x) (Nat.le_of_lt_succ fit.1) xs
      have later : Fit ((place dealt x k).length + 1) ks := by
        rw [length_place]
        exact fit.2
      have others := ih later (Nat.succ.inj each)
      rw [length_place] at others
      rw [exchangeEach, first]
      exact others

/-! ## The last element -/

theorem place_of_length (dealt : List α) (x : α) : place dealt x dealt.length = dealt ++ [x] := by
  unfold place
  rw [List.getElem?_eq_none (Nat.le_refl _)]

theorem place_of_lt (within : k < dealt.length) (x : α) :
    place dealt x k = dealt.set k x ++ [dealt[k]] := by
  unfold place
  rw [List.getElem?_eq_getElem within]

/-- Whatever order there is, its last element was moved there from where `x` is now, if it is
not `x` itself. -/
theorem exists_place (perm : ys.Perm (xs ++ [x])) :
    ∃ dealt k, dealt.Perm xs ∧ k ≤ dealt.length ∧ place dealt x k = ys := by
  have back {dealt : List α} {k : Nat} (placed : place dealt x k = ys) : dealt.Perm xs := by
    apply (List.perm_append_right_iff [x]).1
    rw [← placed] at perm
    exact (place_perm dealt x k).symm.trans perm
  have member : x ∈ ys := perm.mem_iff.2 (by simp)
  rcases List.eq_nil_or_concat ys with rfl | ⟨init, z, rfl⟩
  · cases member
  rw [List.concat_eq_append] at back member ⊢
  by_cases last : z = x
  · subst last
    have placed := place_of_length init z
    exact ⟨init, init.length, back placed, Nat.le_refl _, placed⟩
  · have earlier : x ∈ init := by simpa [Ne.symm last] using member
    obtain ⟨k, within, rfl⟩ := List.getElem_of_mem earlier
    have placed : place (init.set k z) init[k] k = init ++ [z] := by
      rw [place_of_lt (by simpa using within)]
      simp
    exact ⟨init.set k z, k, back placed, by simpa using Nat.le_of_lt within, placed⟩

theorem deal_concat (dealt : List α) (x : α) (k : Nat) (each : ks.length = xs.length) :
    deal dealt (xs ++ [x]) (ks ++ [k]) = place (deal dealt xs ks) x k := by
  induction xs generalizing dealt ks with
  | nil =>
    obtain rfl := List.length_eq_zero_iff.1 each
    simp [deal]
  | cons y xs ih =>
    cases ks with
    | nil => cases each
    | cons j ks => exact ih (place dealt y j) (Nat.succ.inj each)

/-! ## All orders -/

/-- The orders that elements can be in. -/
def orders (xs : List α) : Set (List α) := {ys | ys.Perm xs}

/-- By induction on the elements, the last one first. -/
theorem surjOn_deal (x : α) (xs : List α) :
    Set.SurjOn (deal [x] xs) (rows 2 xs.length) (orders (x :: xs)) := by
  induction xs using List.reverseRecOn with
  | nil =>
    intro ys perm
    obtain rfl := List.perm_singleton.1 perm
    exact ⟨[], ⟨rfl, trivial⟩, rfl⟩
  | append_singleton xs z ih =>
    intro ys whole
    rw [orders, ← List.cons_append] at whole
    obtain ⟨dealt, k, perm, within, rfl⟩ := exists_place whole
    obtain ⟨ks, row, rfl⟩ := ih perm
    refine ⟨ks ++ [k], ?_, deal_concat [x] z k row.1⟩
    rw [List.length_append, List.length_singleton]
    apply append_mem_rows row
    have length := perm.length_eq
    rw [List.length_cons] at length
    exact ⟨rfl, by omega, trivial⟩

theorem ncard_orders (nodup : xs.Nodup) : (orders xs).ncard = xs.length.factorial := by
  classical
  have listed : orders xs = xs.permutations.toFinset := by
    ext ys
    simp [orders]
  rw [listed, Set.ncard_coe_finset, List.toFinset_card_of_nodup (List.nodup_permutations _ nodup),
    List.length_permutations]

theorem ncard_rows_two (count : Nat) : (rows 2 count).ncard = (count + 1).factorial := by
  have all := Nat.factorial_mul_ascFactorial 1 count
  rw [Nat.factorial_one, Nat.one_mul, Nat.add_comm 1 count] at all
  rw [ncard_rows (by omega), ← all]

/-- There are as many rows of places as there are orders of different elements, so no order is
dealt by two of them. -/
theorem bijOn_deal {x : α} (nodup : (x :: xs).Nodup) :
    Set.BijOn (deal [x] xs) (rows 2 xs.length) (orders (x :: xs)) := by
  have onto := surjOn_deal x xs
  have into : Set.MapsTo (deal [x] xs) (rows 2 xs.length) (orders (x :: xs)) :=
    fun ks _ => deal_perm [x] xs ks
  have count := ncard_rows_two xs.length
  have finite : (rows 2 xs.length).Finite := by
    apply Set.finite_of_ncard_ne_zero
    rw [count]
    exact Nat.factorial_ne_zero _
  refine ⟨into, Set.injOn_of_ncard_image_eq ?_ finite, onto⟩
  rw [onto.image_eq_of_mapsTo into, ncard_orders nodup, count]
  rfl

end SeedGrammar.Shuffle
