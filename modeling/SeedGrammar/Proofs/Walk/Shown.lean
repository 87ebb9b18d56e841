/-
# SeedGrammar.Proofs.Walk.Shown — what a walk comes to, given what the dice show

A walker's dice show one row of draws out of many. `walk.IfShown w draws result` says what a
walk comes to if the draws on its way are these, in this order, each of them any number in its
range. So it tells of all outcomes of a walk, not only of those that some seed leads to.

The draws of a row are all that is made on the way, and nothing else is left to chance. What
the dice of a walker do show is one such row (`exists_ifShown_run`).
-/
import SeedGrammar.Walk.Operations
import Mathlib.Data.List.Forall2

namespace SeedGrammar

set_option autoImplicit false

namespace Walk

variable {α : Type}

/-- If the dice show these draws, the walk comes to the result, with this walker afterwards.
A coin counts as a draw of `1` for heads and of `0` for tails. The walker's own dice are not
looked at. -/
inductive IfShown : Walk α → Walker → List Nat → Except Error α × Walker → Prop where
  | done (value : α) (w : Walker) : IfShown (.done value) w [] (.ok value, w)
  | refuse (e : Error) (w : Walker) : IfShown (.refuse e) w [] (.error e, w)
  | roll {sides : Positive} {next : Fin sides.val → Walk α} {w : Walker} {draws : List Nat}
      {result : Except Error α × Walker} (shown : Fin sides.val)
      (rest : IfShown (next shown) w draws result) :
      IfShown (.act (.roll sides) next) w (shown.val :: draws) result
  | flip {next : Bool → Walk α} {w : Walker} {draws : List Nat}
      {result : Except Error α × Walker} (heads : Bool)
      (rest : IfShown (next heads) w draws result) :
      IfShown (.act .flip next) w (heads.toNat :: draws) result
  | act {action : Action} {next : action.Answer → Walk α} {w : Walker} {draws : List Nat}
      {result : Except Error α × Walker} (noRoll : ∀ sides, action ≠ .roll sides)
      (noFlip : action ≠ .flip)
      (rest : IfShown (next (action.perform w).1) (action.perform w).2 draws result) :
      IfShown (.act action next) w draws result

variable {w : Walker} {draws : List Nat} {result : Except Error α × Walker}

theorem ifShown_pure_iff {value : α} :
    (pure value : Walk α).IfShown w draws result ↔ draws = [] ∧ result = (.ok value, w) := by
  constructor
  · intro shown
    cases shown
    exact ⟨rfl, rfl⟩
  · rintro ⟨rfl, rfl⟩
    exact .done value w

theorem ifShown_roll_iff {sides : Positive} {next : Fin sides.val → Walk α} :
    (roll sides >>= next).IfShown w draws result ↔
      ∃ (k : Fin sides.val) (rest : List Nat), draws = k.val :: rest ∧
        (next k).IfShown w rest result := by
  change (act (.roll sides) next).IfShown w draws result ↔ _
  constructor
  · intro shown
    cases shown with
    | roll k rest => exact ⟨k, _, rfl, rest⟩
    | act noRoll => exact absurd rfl (noRoll sides)
  · rintro ⟨k, rest, rfl, shown⟩
    exact .roll k shown

theorem ifShown_survey_iff {next : Roster → Walk α} :
    (survey >>= next).IfShown w draws result ↔ (next w.roster).IfShown w draws result := by
  change (act .survey next).IfShown w draws result ↔ _
  constructor
  · intro shown
    cases shown with
    | act _ _ rest => exact rest
  · intro shown
    exact .act (by simp) (by simp) shown

/-- One draw after another, each of them in its own range. -/
theorem ifShown_rollEach_iff {sides : List Positive} {next : List Nat → Walk α} :
    (rollEach sides >>= next).IfShown w draws result ↔
      ∃ first rest : List Nat, draws = first ++ rest ∧
        List.Forall₂ (fun n draw => draw < n.val) sides first ∧
          (next first).IfShown w rest result := by
  induction sides generalizing draws next with
  | nil =>
    change (next []).IfShown w draws result ↔ _
    constructor
    · intro shown
      exact ⟨[], draws, rfl, .nil, shown⟩
    · rintro ⟨first, rest, rfl, inRange, shown⟩
      cases inRange
      exact shown
  | cons n sides ih =>
    have parts : (rollEach (n :: sides) >>= next) =
        roll n >>= fun draw => rollEach sides >>= fun others => next (draw.val :: others) := by
      simp only [rollEach, bind_assoc, pure_bind]
    rw [parts, ifShown_roll_iff]
    constructor
    · rintro ⟨draw, behind, rfl, shown⟩
      obtain ⟨first, rest, rfl, inRange, shown⟩ := ih.1 shown
      exact ⟨draw.val :: first, rest, rfl, .cons draw.isLt inRange, shown⟩
    · rintro ⟨first, rest, rfl, inRange, shown⟩
      cases inRange with
      | @cons _ draw _ others here inRange =>
        exact ⟨⟨draw, here⟩, others ++ rest, rfl, ih.2 ⟨others, rest, rfl, inRange, shown⟩⟩

/-- Other dice change nothing but the dice, if nothing is drawn from them. -/
theorem perform_of_dice {action : Action} (noRoll : ∀ sides, action ≠ .roll sides)
    (noFlip : action ≠ .flip) (w : Walker) (dice : Dice) :
    action.perform { w with dice } =
      ((action.perform w).1, { (action.perform w).2 with dice }) := by
  cases action with
  | roll sides => exact absurd rfl (noRoll sides)
  | flip => exact absurd rfl noFlip
  | _ => rfl

/-- The dice of a walker show some row of draws. -/
theorem exists_ifShown_run (walk : Walk α) (w : Walker) (dice : Dice) :
    ∃ draws, walk.IfShown { w with dice } draws
      ((walk.run w).1, { (walk.run w).2 with dice }) := by
  induction walk generalizing w with
  | done value => exact ⟨[], .done value _⟩
  | refuse e => exact ⟨[], .refuse e _⟩
  | act action next ih =>
    obtain ⟨draws, shown⟩ := ih (action.perform w).1 (action.perform w).2
    by_cases rolled : ∃ sides, action = .roll sides
    · obtain ⟨sides, rfl⟩ := rolled
      exact ⟨_, .roll _ shown⟩
    by_cases flipped : action = .flip
    · subst flipped
      exact ⟨_, .flip _ shown⟩
    have noRoll : ∀ sides, action ≠ .roll sides := fun sides same => rolled ⟨sides, same⟩
    refine ⟨draws, .act noRoll flipped ?_⟩
    rw [perform_of_dice noRoll flipped]
    exact shown

end Walk

end SeedGrammar
