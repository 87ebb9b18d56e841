/-
# SeedGrammar.Proofs.Walk.Growth — rosters grow along walks

Every action is a stretch of growth of its walker's roster (`grown_perform`), and the names
that it gives out are those in its answer (`Moment.namings`). So a whole walk is one
(`Walk.grown_run`), and so is the rest of a walk from any moment of it (`Walk.grown_from`):
what is counted is at no moment more than it is in the end.
-/
import SeedGrammar.Proofs.Roster.Growth
import SeedGrammar.Proofs.Walk.Sound

namespace SeedGrammar

set_option autoImplicit false

/-- The name that an action gives out, if it does. -/
def Moment.namings (moment : Moment) : List Naming :=
  match moment.action with
  | .nameContract =>
    moment.walker.roster.given .contract moment.walker.roster.nameContract.1
  | .nameFunction =>
    moment.walker.roster.given .function moment.walker.roster.nameFunction.1
  | _ => []

/-- One step lets the roster grow. -/
theorem grown_perform (action : Action) {w : Walker} (sound : w.roster.Sound) :
    w.roster.Grown (Moment.namings ⟨w, action⟩) (action.perform w).2.roster := by
  cases action with
  | expanding p => exact .refl w.roster
  | survey => exact .refl w.roster
  | addUnit => exact .addUnit sound
  | addImport path => exact .addImport sound path
  | nameContract => exact .nameContract sound
  | nameFunction => exact .nameFunction sound
  | indent => exact .indent sound
  | unindent => exact .unindent sound
  | scope => exact .refl w.roster
  | setScope s => exact .refl w.roster
  | roll sides => exact .refl w.roster
  | flip => exact .refl w.roster

namespace Walk

variable {α : Type}

/-- A whole run lets the roster grow, with all names given out on the way, also if it is
refused. -/
theorem grown_run (walk : Walk α) {w : Walker} (sound : w.roster.Sound) :
    w.roster.Grown ((walk.trail w).flatMap Moment.namings) (walk.run w).2.roster := by
  induction walk generalizing w with
  | done value => exact .refl w.roster
  | refuse e => exact .refl w.roster
  | act action next ih =>
    exact (grown_perform action sound).trans (ih _ (sound_perform action sound))

/-- From each moment of a run on, the roster grows to what it is in the end. -/
theorem grown_from (walk : Walk α) {w : Walker} (sound : w.roster.Sound) {moment : Moment}
    (here : moment ∈ walk.trail w) :
    ∃ namings, moment.walker.roster.Grown namings (walk.run w).2.roster := by
  induction walk generalizing w with
  | done value => cases here
  | refuse e => cases here
  | act action next ih =>
    rcases List.mem_cons.1 here with rfl | later
    · exact ⟨_, grown_run (act action next) sound⟩
    · exact ih _ (sound_perform action sound) later

end Walk

end SeedGrammar
