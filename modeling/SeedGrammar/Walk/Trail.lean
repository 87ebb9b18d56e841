/-
# SeedGrammar.Walk.Trail — every moment of a walk

`run` tells how a walk ends. `trail` tells all that happens on the way: each
action, with the walker that is about to perform it. The trail of a sequence is
the trail of its first part, followed by that of its second part if the first
was not refused (`trail_bind`).
-/
import SeedGrammar.Walk.Basic

namespace SeedGrammar

set_option autoImplicit false

/-- A walker about to perform an action. -/
structure Moment where
  walker : Walker
  action : Action
  deriving DecidableEq

namespace Walk

variable {α β : Type}

def trail : Walk α → Walker → List Moment
  | done _, _ => []
  | refuse _, _ => []
  | act action next, w =>
    ⟨w, action⟩ :: (next (action.perform w).1).trail (action.perform w).2

/-- How many productions are expanded along the walk. -/
def expansions (walk : Walk α) (w : Walker) : Nat :=
  (walk.trail w).countP fun moment => moment.action matches .expanding _

@[simp] theorem trail_pure (value : α) (w : Walker) : (pure value : Walk α).trail w = [] :=
  rfl

@[simp] theorem trail_refuse (e : Error) (w : Walker) : (refuse e : Walk α).trail w = [] :=
  rfl

theorem trail_bind (walk : Walk α) (next : α → Walk β) (w : Walker) :
    (walk >>= next).trail w =
      walk.trail w ++
        match walk.run w with
        | (.ok value, w) => (next value).trail w
        | (.error _, _) => [] := by
  induction walk generalizing w with
  | done value => rfl
  | refuse e => rfl
  | act action rest ih => exact congrArg (List.cons _) (ih _ _)

theorem trail_attempt (walk : Walk α) (w : Walker) : walk.attempt.trail w = walk.trail w := by
  induction walk generalizing w with
  | done value => rfl
  | refuse e => rfl
  | act action rest ih => exact congrArg (List.cons _) (ih _ _)

end Walk

end SeedGrammar
