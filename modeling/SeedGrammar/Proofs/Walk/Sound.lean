/-
# SeedGrammar.Proofs.Walk.Sound — walks keep a roster sound

Every action keeps the roster of its walker sound (`sound_perform`), so every walk
does, up to its end (`sound_run`) and at each moment on the way (`sound_trail`),
whether or not it is refused.

A walk could still be refused for a unit that is not on the roster. That no operation
is, nor any expansion, is `Walk.Knows`: of sequences because the first part keeps the
roster sound for the second one, of expansions by induction (`knows_expand`).
-/
import SeedGrammar.Proofs.Roster.Sound
import SeedGrammar.Proofs.Walk.Always
import SeedGrammar.Proofs.Walk.Induction
import SeedGrammar.Walk.Trail

namespace SeedGrammar

set_option autoImplicit false

/-! ## Steps and runs -/

/-- One step keeps the roster sound. -/
theorem sound_perform (action : Action) {w : Walker} (sound : w.roster.Sound) :
    (action.perform w).2.roster.Sound := by
  cases action with
  | expanding p => exact sound
  | survey => exact sound
  | addUnit => exact sound.addUnit
  | addImport path => exact (sound.addImport path).sound
  | nameContract => exact sound.nameContract.sound
  | nameFunction => exact sound.nameFunction.sound
  | indent => exact sound.indent.sound
  | unindent => exact sound.unindent.sound
  | scope => exact sound
  | setScope s => exact sound
  | roll sides => exact sound
  | flip => exact sound

namespace Walk

variable {α β : Type}

/-- A whole run keeps the roster sound, also if it is refused. -/
theorem sound_run (walk : Walk α) {w : Walker} (sound : w.roster.Sound) :
    (walk.run w).2.roster.Sound := by
  induction walk generalizing w with
  | done value => exact sound
  | refuse e => exact sound
  | act action next ih => exact ih _ (sound_perform action sound)

/-- At each moment of a run the roster is sound. -/
theorem sound_trail (walk : Walk α) {w : Walker} (sound : w.roster.Sound) :
    ∀ moment ∈ walk.trail w, moment.walker.roster.Sound := by
  induction walk generalizing w with
  | done value => simp [trail]
  | refuse e => simp [trail]
  | act action next ih =>
    refine List.forall_mem_cons.2 ⟨sound, ?_⟩
    exact ih _ (sound_perform action sound)

/-! ## Walks that know their units -/

/-- From a sound roster, the walk is not refused for a unit that is not on it. -/
def Knows (walk : Walk α) : Prop :=
  ∀ w : Walker, w.roster.Sound → Known (walk.run w).1

theorem knows_pure (value : α) : (pure value : Walk α).Knows :=
  fun _ _ => known_ok value

theorem knows_refuse {e : Error} (other : ∀ path, e ≠ .unknownUnit path) :
    (refuse e : Walk α).Knows :=
  fun _ _ => known_error other

theorem knows_ofExcept {result : Except Error α} (known : Known result) :
    (ofExcept result).Knows := by
  intro w _
  rw [run_ofExcept]
  exact known

/-- The second part starts from a roster that the first one has kept sound. -/
theorem Knows.bind {walk : Walk α} {next : α → Walk β} (first : walk.Knows)
    (rest : ∀ value, (next value).Knows) : (walk >>= next).Knows := by
  intro w sound
  have known := first w sound
  have still := walk.sound_run sound
  rw [run_bind]
  rcases ran : walk.run w with ⟨e | value, w'⟩
  all_goals rw [ran] at known still
  · exact known.error
  · exact rest value w' still

/-- Whoever looks at the roster sees that it is sound. -/
theorem knows_survey_bind {next : Roster → Walk β}
    (rest : ∀ roster : Roster, roster.Sound → (next roster).Knows) :
    (survey >>= next).Knows :=
  fun w sound => rest w.roster sound w sound

/-- An action that is answered whatever happens. -/
theorem knows_act (action : Action) : (act action done).Knows :=
  fun w _ => known_ok (action.perform w).1

/-! ## Operations -/

/-- A walk that carries out one operation on the roster. -/
theorem knows_operation {walk : Walk α} (operation : Roster → Except Error α × Roster)
    (runs : ∀ w, walk.run w = ((operation w.roster).1, { w with roster := (operation w.roster).2 }))
    (safe : ∀ roster : Roster, roster.Sound → Roster.Safe (operation roster)) : walk.Knows := by
  intro w sound
  rw [runs]
  exact (safe w.roster sound).known

theorem knows_addImport (path : String) : (addImport path).Knows :=
  knows_operation (Roster.addImport · path) (fun _ => run_ofExcept _ _) fun _ sound =>
    sound.addImport path

theorem knows_nameContract : nameContract.Knows :=
  knows_operation Roster.nameContract (fun _ => run_ofExcept _ _) fun _ sound => sound.nameContract

theorem knows_nameFunction : nameFunction.Knows :=
  knows_operation Roster.nameFunction (fun _ => run_ofExcept _ _) fun _ sound => sound.nameFunction

theorem knows_indent : indent.Knows :=
  knows_operation Roster.indent (fun _ => run_ofExcept _ _) fun _ sound => sound.indent

theorem knows_unindent : unindent.Knows :=
  knows_operation Roster.unindent (fun _ => run_ofExcept _ _) fun _ sound => sound.unindent

theorem knows_currentPath : currentPath.Knows :=
  knows_survey_bind fun roster _ => knows_ofExcept roster.known_currentPath

theorem knows_currentUnit : currentUnit.Knows :=
  knows_survey_bind fun _ sound => knows_ofExcept sound.known_currentUnit

theorem knows_level : level.Knows :=
  knows_survey_bind fun _ sound => knows_ofExcept sound.known_level

/-! ## Draws -/

/-- Nothing drawn is refused. -/
theorem Draws.knows {walk : Walk α} {possible : α → Prop} (draws : walk.Draws possible) :
    walk.Knows := by
  intro w _
  obtain ⟨value, dice, ran, -⟩ := draws.exists_run w
  rw [ran]
  exact known_ok value

theorem knows_choosePath (required : Nat) (paths : List String) :
    (choosePath required paths).Knows := by
  unfold choosePath
  by_cases nonempty : 0 < paths.length
  · rw [dif_pos nonempty]
    exact (draws_choose paths nonempty).knows
  · rw [dif_neg nonempty]
    exact knows_refuse (by simp)

theorem knows_somePath : somePath.Knows :=
  knows_survey_bind fun roster _ => knows_choosePath 1 roster.paths

theorem knows_otherPath : otherPath.Knows := by
  refine knows_survey_bind fun roster _ => ?_
  by_cases few : roster.size < 2
  · rw [if_pos few]
    exact knows_refuse (by simp)
  · rw [if_neg few]
    exact (knows_ofExcept roster.known_currentPath).bind fun current => knows_choosePath 2 _

/-! ## Member scopes -/

theorem knows_enterMembers : enterMembers.Knows :=
  knows_indent.bind fun _ => knows_act _

theorem knows_leaveMembers : leaveMembers.Knows :=
  (knows_act _).bind fun _ => knows_unindent

theorem known_settle {body : Except Error α} {left : Except Error Unit} (first : Known body)
    (second : Known left) : Known (settle body left) := by
  cases body with
  | error e => exact first
  | ok value =>
    cases left with
    | error e => exact second.error
    | ok _ => exact first

theorem Knows.memberScope {body : Walk α} (inside : body.Knows) : (memberScope body).Knows := by
  intro w sound
  have entered := knows_enterMembers w sound
  have within := enterMembers.sound_run sound
  rw [run_memberScope]
  rcases ran : enterMembers.run w with ⟨e | _, w'⟩
  all_goals rw [ran] at entered within
  · exact entered.error
  · exact known_settle (inside w' within) (knows_leaveMembers _ (body.sound_run within))

/-! ## Expansions -/

theorem stepwise_knows : Stepwise @Knows where
  pure := knows_pure
  bind := Knows.bind
  roll := fun _ => knows_act _
  flip := knows_act _
  expanding := fun _ => knows_act _
  survey := knows_act _
  scope := knows_act _
  level := knows_level
  otherPath := knows_otherPath
  addImport := knows_addImport
  nameContract := knows_nameContract
  nameFunction := knows_nameFunction

theorem knows_expand (g : Grammar) (p : Production) : (g.expand p).Knows :=
  stepwise_knows.expand g (stepwise_knows.members g).memberScope (knows_act .addUnit) p

theorem knows_descend (g : Grammar) (children : List Child) :
    (descend (g.offers children)).Knows :=
  stepwise_knows.descend_offers (draws_rollEach _).knows fun child _ =>
    knows_expand g child.production

end Walk

end SeedGrammar
