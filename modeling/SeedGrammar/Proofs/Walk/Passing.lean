/-
# SeedGrammar.Proofs.Walk.Passing — what holds at every moment of a walk

`walk.Passes R T` says that, wherever the walk starts, its end stands in the relation `R`
to its start and each of its moments in the relation `T`. As in `Lasting`, the steps of a
walk are enough (`Passing.stepwise`): a moment of the second part of a sequence is related
to the start because the end of the first part is (`Passing.onward`).

Draws are what a moment may have wrong. They are in range (`Action.InRange`) if they fit
words or choose among the units of the roster.
-/
import SeedGrammar.Proofs.Walk.Keeping

namespace SeedGrammar

set_option autoImplicit false

open Walk

/-- A draw has a word's number of outcomes, or no more than there are units. -/
def Action.InRange (w : Walker) : Action → Prop
  | .roll sides => sides.val < UInt32.size ∨ sides.val ≤ w.roster.size
  | _ => True

/-- Between moments of a walk: the relation to moments holds of the moment at hand, if what
is drawn is in range, and of whatever follows after the other relation. -/
structure Passing (R : Walker → Walker → Prop) (T : Walker → Moment → Prop) : Prop
    extends Lasting R where
  here : ∀ (w : Walker) (action : Action), action.InRange w → T w ⟨w, action⟩
  onward : ∀ {u v : Walker} {moment : Moment}, R u v → T v moment → T u moment

namespace Walk

variable {α : Type}

/-- From a start to the end and to all moments between, also if the walk is refused. -/
structure PassesFrom (walk : Walk α) (w : Walker) (R : Walker → Walker → Prop)
    (T : Walker → Moment → Prop) : Prop where
  ends : R w (walk.run w).2
  moments : ∀ moment ∈ walk.trail w, T w moment

def Passes (walk : Walk α) (R : Walker → Walker → Prop) (T : Walker → Moment → Prop) : Prop :=
  ∀ w, walk.PassesFrom w R T

theorem trail_ofExcept (result : Except Error α) (w : Walker) : (ofExcept result).trail w = [] := by
  cases result <;> rfl

/-- A single action whose answer decides whether it is refused. -/
theorem trail_act (action : Action) (answer : action.Answer → Except Error α) (w : Walker) :
    (act action fun a => ofExcept (answer a)).trail w = [⟨w, action⟩] := by
  rw [trail, trail_ofExcept]

end Walk

namespace Passing

variable {α β : Type} {R : Walker → Walker → Prop} {T : Walker → Moment → Prop} {w : Walker}
  (passing : Passing R T)

include passing

/-! ## Sequences -/

theorem pure (value : α) : (Pure.pure value : Walk α).Passes R T :=
  fun w => ⟨passing.refl w, by simp⟩

theorem refuse (e : Error) : (Walk.refuse e : Walk α).Passes R T :=
  fun w => ⟨passing.refl w, by simp⟩

theorem ofExcept (result : Except Error α) : (Walk.ofExcept result).Passes R T := by
  intro w
  refine ⟨passing.toLasting.ofExcept result w, ?_⟩
  simp [trail_ofExcept]

/-- The second part starts where the first has ended. -/
theorem bindFrom {walk : Walk α} {next : α → Walk β} (first : walk.PassesFrom w R T)
    (rest : ∀ value w', walk.run w = (.ok value, w') → (next value).PassesFrom w' R T) :
    (walk >>= next).PassesFrom w R T := by
  have here := first.ends
  refine ⟨?_, ?_⟩
  · rw [run_bind]
    rcases ran : walk.run w with ⟨e | value, w'⟩
    all_goals rw [ran] at here
    · exact here
    · exact passing.trans here (rest value w' ran).ends
  · rw [trail_bind]
    refine List.forall_mem_append.2 ⟨first.moments, ?_⟩
    rcases ran : walk.run w with ⟨e | value, w'⟩
    all_goals rw [ran] at here
    · simp
    · exact fun moment later => passing.onward here ((rest value w' ran).moments moment later)

theorem bind {walk : Walk α} {next : α → Walk β} (first : walk.Passes R T)
    (rest : ∀ value, (next value).Passes R T) : (walk >>= next).Passes R T :=
  fun w => passing.bindFrom (first w) fun value w' _ => rest value w'

/-- A single action. -/
theorem single {walk : Walk α} {action : Action} (trails : walk.trail w = [⟨w, action⟩])
    (inRange : action.InRange w) (ends : R w (walk.run w).2) : walk.PassesFrom w R T := by
  refine ⟨ends, ?_⟩
  rw [trails]
  simpa using passing.here w action inRange

theorem expanding (p : Production) : (Walk.expanding p).Passes R T :=
  fun w => passing.single rfl trivial (passing.refl w)

theorem survey : Walk.survey.Passes R T :=
  fun w => passing.single rfl trivial (passing.refl w)

/-- Whoever looks at the roster sees that of the walker. -/
theorem surveyed {next : Roster → Walk α} (rest : (next w.roster).PassesFrom w R T) :
    (Walk.survey >>= next).PassesFrom w R T := by
  refine passing.bindFrom (passing.survey w) fun roster w' ran => ?_
  cases ran
  exact rest

theorem scope : Walk.scope.Passes R T :=
  fun w => passing.single rfl trivial (passing.refl w)

theorem level : Walk.level.Passes R T :=
  passing.bind passing.survey fun _ => passing.ofExcept _

/-! ## Draws -/

theorem flip : Walk.flip.Passes R T :=
  fun w => passing.single rfl trivial (passing.draw draws_flip w)

theorem rollFrom {sides : Positive} (inRange : (Action.roll sides).InRange w) :
    (Walk.roll sides).PassesFrom w R T :=
  passing.single rfl inRange (passing.draw (draws_roll sides) w)

theorem roll {sides : Positive} (word : sides.val < UInt32.size) : (Walk.roll sides).Passes R T :=
  fun _ => passing.rollFrom (Or.inl word)

theorem chooseFrom {xs : List α} {nonempty : 0 < xs.length}
    (inRange : (Action.roll ⟨xs.length, nonempty⟩).InRange w) :
    (Walk.choose xs nonempty).PassesFrom w R T :=
  passing.bindFrom (passing.rollFrom inRange) fun _ w' _ => passing.pure _ w'

/-- A path is chosen among no more paths than there are units. -/
theorem otherPath : Walk.otherPath.Passes R T := by
  intro w
  refine passing.surveyed ?_
  by_cases few : w.roster.size < 2
  · rw [if_pos few]
    exact passing.refuse _ w
  · rw [if_neg few]
    refine passing.bindFrom (passing.ofExcept _ w) fun current w' found => ?_
    rw [run_ofExcept] at found
    obtain ⟨-, rfl⟩ := Prod.mk.inj found
    have among : (w.roster.paths.filter (· ≠ current)).length ≤ w.roster.size :=
      w.roster.length_paths ▸ List.length_filter_le _ _
    unfold choosePath
    by_cases nonempty : 0 < (w.roster.paths.filter (· ≠ current)).length
    · rw [dif_pos nonempty]
      exact passing.chooseFrom (Or.inr among)
    · rw [dif_neg nonempty]
      exact passing.refuse _ w

/-! ## Expansions -/

theorem stepwise (addImport : ∀ path, (Walk.addImport path).Passes R T)
    (nameContract : Walk.nameContract.Passes R T) (nameFunction : Walk.nameFunction.Passes R T) :
    Stepwise fun {_} walk => walk.Passes R T where
  pure := passing.pure
  bind := passing.bind
  roll := passing.roll
  flip := passing.flip
  expanding := passing.expanding
  survey := passing.survey
  scope := passing.scope
  level := passing.level
  otherPath := passing.otherPath
  addImport := addImport
  nameContract := nameContract
  nameFunction := nameFunction

end Passing

end SeedGrammar
