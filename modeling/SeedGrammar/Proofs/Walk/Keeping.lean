/-
# SeedGrammar.Proofs.Walk.Keeping — what a walk keeps, refused or not

`walk.Keeps R` says that, wherever the walk starts, its end stands in the relation `R` to
its start, whatever it comes to. A relation is `Lasting` if draws cannot break it and if
it holds of a stretch whose two parts it holds of. Then the steps of a walk are enough,
and of the steps of an expansion those that change a unit (`Lasting.stepwise`).

A member scope is no such sequence, as it is left even if its body is refused. All that
it can come to is listed by `within_cases`, for bodies that do anything to the walker.
-/
import SeedGrammar.Proofs.Roster.Balance
import SeedGrammar.Proofs.Walk.Sound

namespace SeedGrammar

set_option autoImplicit false

open Walk

/-- Between two moments of a walk: draws do not break the relation, and it holds of a
stretch if it holds of both its parts. -/
structure Lasting (R : Walker → Walker → Prop) : Prop where
  dice : ∀ (w : Walker) (dice : Dice), R w { w with dice }
  trans : ∀ {u v w : Walker}, R u v → R v w → R u w

/-- From start to end, for every start and also if the walk is refused. -/
def Walk.Keeps {α : Type} (walk : Walk α) (R : Walker → Walker → Prop) : Prop :=
  ∀ w, R w (walk.run w).2

theorem Walk.Keeps.mono {α : Type} {walk : Walk α} {R S : Walker → Walker → Prop}
    (keeps : walk.Keeps R) (implies : ∀ w w', R w w' → S w w') : walk.Keeps S :=
  fun w => implies w _ (keeps w)

namespace Lasting

variable {α β : Type} {R : Walker → Walker → Prop}

/-! ## Sequences -/

section Sequences

variable (lasting : Lasting R)

include lasting

theorem refl (w : Walker) : R w w :=
  lasting.dice w w.dice

theorem pure (value : α) : (Pure.pure value : Walk α).Keeps R :=
  fun w => lasting.refl w

theorem refuse (e : Error) : (Walk.refuse e : Walk α).Keeps R :=
  fun w => lasting.refl w

theorem ofExcept (result : Except Error α) : (Walk.ofExcept result).Keeps R := by
  intro w
  rw [run_ofExcept]
  exact lasting.refl w

theorem bind {walk : Walk α} {next : α → Walk β} (first : walk.Keeps R)
    (rest : ∀ value, (next value).Keeps R) : (walk >>= next).Keeps R := by
  intro w
  have here := first w
  rw [run_bind]
  rcases ran : walk.run w with ⟨e | value, w'⟩
  all_goals rw [ran] at here
  · exact here
  · exact lasting.trans here (rest value w')

theorem draw {walk : Walk α} {possible : α → Prop} (draws : walk.Draws possible) :
    walk.Keeps R := by
  intro w
  obtain ⟨value, dice, ran, -⟩ := draws.exists_run w
  rw [ran]
  exact lasting.dice w dice

theorem expanding (p : Production) : (Walk.expanding p).Keeps R :=
  fun w => lasting.refl w

theorem survey : Walk.survey.Keeps R :=
  fun w => lasting.refl w

theorem scope : Walk.scope.Keeps R :=
  fun w => lasting.refl w

theorem level : Walk.level.Keeps R :=
  lasting.bind lasting.survey fun _ => lasting.ofExcept _

theorem choosePath (required : Nat) (paths : List String) :
    (Walk.choosePath required paths).Keeps R := by
  unfold Walk.choosePath
  by_cases nonempty : 0 < paths.length
  · rw [dif_pos nonempty]
    exact lasting.draw (draws_choose paths nonempty)
  · rw [dif_neg nonempty]
    exact lasting.refuse _

theorem otherPath : Walk.otherPath.Keeps R := by
  refine lasting.bind lasting.survey fun roster => ?_
  by_cases few : roster.size < 2
  · rw [if_pos few]
    exact lasting.refuse _
  · rw [if_neg few]
    exact lasting.bind (lasting.ofExcept _) fun current => lasting.choosePath 2 _

/-! ## Expansions -/

theorem compositional : Compositional fun {_} walk => walk.Keeps R where
  pure := lasting.pure
  bind := lasting.bind
  roll := fun _ => lasting.draw (draws_roll _)
  flip := lasting.draw draws_flip

/-- The steps that change the current unit are to be looked at one by one. -/
theorem stepwise (addImport : ∀ path, (Walk.addImport path).Keeps R)
    (nameContract : Walk.nameContract.Keeps R) (nameFunction : Walk.nameFunction.Keeps R) :
    Stepwise fun {_} walk => walk.Keeps R where
  toCompositional := lasting.compositional
  expanding := lasting.expanding
  survey := lasting.survey
  scope := lasting.scope
  level := lasting.level
  otherPath := lasting.otherPath
  addImport := addImport
  nameContract := nameContract
  nameFunction := nameFunction

end Sequences

end Lasting

/-! ## Member scopes -/

namespace Walk

variable {α : Type}

/-- A member scope around a body that may do anything to the walker. -/
def within (body : Walker → Except Error α × Walker) (w : Walker) : Except Error α × Walker :=
  match enterMembers.run w with
  | (.error e, w) => (.error e, w)
  | (.ok (), w) =>
    (settle (body w).1 (leaveMembers.run (body w).2).1, (leaveMembers.run (body w).2).2)

theorem run_memberScope_eq_within (body : Walk α) (w : Walker) :
    (memberScope body).run w = within body.run w :=
  run_memberScope body w

theorem run_leaveMembers (w : Walker) :
    leaveMembers.run w =
      (w.roster.unindent.1, { w with roster := w.roster.unindent.2, scope := .free }) :=
  run_ofExcept _ _

theorem run_enterMembers (w : Walker) :
    enterMembers.run w =
      match w.roster.indent with
      | (.error e, roster) => (.error e, { w with roster })
      | (.ok (), roster) => (.ok (), { w with roster, scope := .member }) := by
  have indented : indent.run w = (w.roster.indent.1, { w with roster := w.roster.indent.2 }) :=
    run_ofExcept _ _
  unfold enterMembers
  rw [run_bind, indented]
  rcases w.roster.indent with ⟨e | _, roster⟩
  · rfl
  · rfl

/-- All that a member scope can come to: it is not entered, and nothing has changed; or
its body runs one level deeper, with functions as members, and the scope is left from
wherever the body ended. -/
theorem within_cases (body : Walker → Except Error α × Walker) (w : Walker) :
    (∃ e, within body w = (.error e, w)) ∨
      ∃ inner result ended, w.roster.indent = (.ok (), inner) ∧
        body { w with roster := inner, scope := .member } = (result, ended) ∧
          within body w = (settle result ended.roster.unindent.1,
            { ended with roster := ended.roster.unindent.2, scope := .free }) := by
  unfold within
  rw [run_enterMembers]
  rcases entered : w.roster.indent with ⟨e | _, inner⟩
  · obtain rfl : inner = w.roster := Roster.withCurrent_of_refused entered
    exact Or.inl ⟨e, rfl⟩
  · refine Or.inr ⟨inner, _, _, rfl, rfl, ?_⟩
    dsimp only
    rw [run_leaveMembers]

end Walk

end SeedGrammar
