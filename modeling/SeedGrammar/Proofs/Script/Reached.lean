/-
# SeedGrammar.Proofs.Script.Reached — all that a script can reach

Whatever commands a walker carries out, in whatever order and however deep in member
scopes, its roster stays sound, and no command is refused for a unit that is not on it
(`reached_sound`). It does not matter which commands are refused, tolerated or end a
scope early.

One command is a step (`Command.sound_run`), by cases on the command; it goes together
with the same for the commands of a scope (`Commands.sound_run`), as they contain each
other.
-/
import SeedGrammar.Proofs.Walk.Sound
import SeedGrammar.Script

namespace SeedGrammar.Script

set_option autoImplicit false

open Walk

/-! ## Reports -/

/-- A report made by a walker with a sound roster, on a command that was not refused for
a unit that is not on it, and so with all reports from inside of it. -/
inductive Report.Sound : Report → Prop where
  | mk {outcome : Outcome} {body : Option (List Report)} (w : Walker) (sound : w.roster.Sound)
      (known : Known outcome.toExcept)
      (inside : ∀ reports, body = some reports → ∀ report ∈ reports, Report.Sound report) :
      Report.Sound (.mk outcome (.of w) body)

theorem Report.Sound.known_outcome {report : Report} (sound : report.Sound) :
    Known report.outcome.toExcept := by
  cases sound with
  | mk w sound known inside => exact known

theorem known_ofExcept {result : Except Error Reply} (known : Known result) :
    Known (Outcome.ofExcept result).toExcept := by
  cases result with
  | ok reply => exact known_ok ()
  | error e => exact known.error

/-! ## Single commands -/

/-- A report and the walker after it. -/
structure Safe (done : Report × Walker) : Prop where
  report : done.1.Sound
  sound : done.2.roster.Sound

theorem safe_report {outcome : Outcome} {w : Walker} (known : Known outcome.toExcept)
    (sound : w.roster.Sound) : Safe (Command.run.report (outcome, w)) where
  report := .mk w sound known (by simp)
  sound := sound

variable {α : Type} {w : Walker}

theorem safe_tell {walk : Walk α} (knows : walk.Knows) (reply : α → Reply)
    (sound : w.roster.Sound) : Safe (Command.run.report (tell walk reply w)) :=
  safe_report (known_ofExcept ((knows w sound).map reply)) (walk.sound_run sound)

theorem safe_tellDraw {n : Nat} {walk : Positive → Walk α} (knows : ∀ n, (walk n).Knows)
    (reply : α → Reply) (sound : w.roster.Sound) :
    Safe (Command.run.report (tellDraw n walk reply w)) := by
  unfold tellDraw
  by_cases positive : 0 < n
  · rw [dif_pos positive]
    exact safe_tell (knows _) reply sound
  · rw [dif_neg positive]
    exact safe_report (known_ok ()) sound

theorem known_declare (parent production : Production) (weight : Nat) :
    Known (Child.declare parent production weight) := by
  unfold Child.declare
  split_ifs
  · exact known_error (by simp)
  · exact known_error (by simp)
  · exact known_ok _

theorem known_declareAll (parent : Production) (children : List (Production × Nat)) :
    Known (declareAll parent children) := by
  induction children with
  | nil => exact known_ok []
  | cons first rest ih =>
    refine (known_declare parent first.1 first.2).bind fun child => ?_
    exact ih.bind fun others => known_ok (child :: others)

/-! ## Scripts -/

/-- What a script came to. -/
structure SafeAll (done : List Report × Except Error Unit × Walker) : Prop where
  reports : ∀ report ∈ done.1, report.Sound
  known : Known done.2.1
  sound : done.2.2.roster.Sound

mutual

/-- One command keeps the roster sound. -/
theorem Command.sound_run (g : Grammar) (command : Command) {w : Walker} (sound : w.roster.Sound) :
    Safe (command.run g w) := by
  cases command with
  | addUnit => exact safe_tell (knows_act .addUnit) _ sound
  | currentPath => exact safe_tell knows_currentPath _ sound
  | level => exact safe_tell knows_level _ sound
  | paths => exact safe_tell (knows_act .survey) _ sound
  | size => exact safe_tell (knows_act .survey) _ sound
  | unit path => exact safe_tell (knows_act .survey) _ sound
  | currentUnit => exact safe_tell knows_currentUnit _ sound
  | somePath => exact safe_tell knows_somePath _ sound
  | otherPath => exact safe_tell knows_otherPath _ sound
  | addImport path => exact safe_tell (knows_addImport path) _ sound
  | isImported path => exact safe_tell knows_currentUnit _ sound
  | nameContract => exact safe_tell knows_nameContract _ sound
  | nameFunction => exact safe_tell knows_nameFunction _ sound
  | indent => exact safe_tell knows_indent _ sound
  | unindent => exact safe_tell knows_unindent _ sound
  | describe => exact safe_tell (knows_act .survey) _ sound
  | uniform n => exact safe_tellDraw (fun n => (draws_uniform n).knows) _ sound
  | likely n => exact safe_tellDraw (fun n => (draws_likely n).knows) _ sound
  | subset count =>
    cases count with
    | zero => exact safe_report (known_ok ()) sound
    | succ count => exact safe_tell (draws_subset _).knows _ sound
  | shuffle count => exact safe_tell (draws_shuffle _).knows _ sound
  | setScope scope => exact safe_tell (knows_act (.setScope scope)) _ sound
  | reseed seed => exact safe_report (known_ok ()) sound
  | clear => exact safe_report (known_ok ()) .empty
  | production p => exact safe_report (known_ok ()) sound
  | children p => exact safe_report (known_ok ()) sound
  | expand p => exact safe_tell (knows_expand g p) _ sound
  | descend parent children =>
    have declared := known_declareAll parent children
    unfold Command.run
    cases result : declareAll parent children with
    | error e =>
      rw [result] at declared
      exact safe_report (known_ofExcept declared.error) sound
    | ok children => exact safe_tell (knows_descend g children) _ sound
  | memberScope body =>
    have entered := knows_enterMembers w sound
    have within := enterMembers.sound_run sound
    unfold Command.run
    rcases ran : enterMembers.run w with ⟨e | _, w'⟩
    all_goals rw [ran] at entered within
    · exact ⟨.mk w' within (known_ofExcept entered.error) (by simp), within⟩
    · have inside := Commands.sound_run g body within
      have left := knows_leaveMembers _ inside.sound
      have after := leaveMembers.sound_run inside.sound
      have settled := (known_settle inside.known left).map fun _ => Reply.nothing
      refine ⟨.mk _ after (known_ofExcept settled) ?_, after⟩
      intro reports same
      cases same
      exact inside.reports

theorem Commands.sound_run (g : Grammar) (commands : Commands) {w : Walker}
    (sound : w.roster.Sound) : SafeAll (commands.run g w) := by
  cases commands with
  | nil => exact ⟨by simp [Commands.run], known_ok (), sound⟩
  | cons tolerated command rest =>
    have first := Command.sound_run g command sound
    have others := Commands.sound_run g rest first.sound
    have known := first.report.known_outcome
    unfold Commands.run
    rcases ran : command.run g w with ⟨report, w'⟩
    rw [ran] at first others known
    dsimp only
    split
    case h_1 e refused =>
      rw [refused] at known
      exact ⟨by simpa using first.report, known.error, first.sound⟩
    case h_2 =>
      exact ⟨List.forall_mem_cons.2 ⟨first.report, others.reports⟩, others.known, others.sound⟩

end

/-! ## Reachable walkers -/

/-- Where a walker with an empty roster can get, by any commands in any grammars, one
after another, and in the middle of any walk. -/
inductive Reached : Walker → Prop where
  | start (dice : Dice) (scope : Scope) : Reached ⟨dice, {}, scope⟩
  | command {w : Walker} (before : Reached w) (g : Grammar) (command : Command) :
      Reached (command.run g w).2
  | during {α : Type} {w : Walker} (before : Reached w) (walk : Walk α) {moment : Moment}
      (here : moment ∈ walk.trail w) : Reached moment.walker

theorem Reached.sound {w : Walker} (reached : Reached w) : w.roster.Sound := by
  induction reached with
  | start dice scope => exact .empty
  | command before g command ih => exact (command.sound_run g ih).sound
  | during before walk here ih => exact walk.sound_trail ih _ here

/-- **The roster is always sound**: its paths are numbered without gaps, the last one
is current and on the roster, and the path given out next is new. From there, no command
is refused for a unit that is not on the roster, and no command inside of it. -/
theorem reached_sound (w : Walker) (reached : Reached w) :
    w.roster.Sound ∧ (∀ path, w.roster.current = some path → ∃ u, w.roster.unit? path = some u) ∧
      w.roster.unit? w.roster.addUnit.1 = none ∧
        ∀ (g : Grammar) (command : Command), (command.run g w).1.Sound := by
  have sound := reached.sound
  exact ⟨sound, fun _ current => sound.exists_current current, sound.fresh,
    fun g command => (command.sound_run g sound).report⟩

/-- After a member scope that was ended by a refusal. -/
theorem reached_sound_after_refusal :
    let w := ((Command.memberScope (.cons false .otherPath .nil)).run {}
      (Command.addUnit.run {} (.ofSeed 0)).2).2
    Reached w ∧ w.roster.Sound ∧
      (∀ path, w.roster.current = some path → ∃ u, w.roster.unit? path = some u) ∧
        w.roster.unit? w.roster.addUnit.1 = none ∧
          ∀ (g : Grammar) (command : Command), (command.run g w).1.Sound := by
  intro w
  have reached : Reached w := .command (.command (.start _ .free) {} .addUnit) {} _
  exact ⟨reached, reached_sound w reached⟩

end SeedGrammar.Script
