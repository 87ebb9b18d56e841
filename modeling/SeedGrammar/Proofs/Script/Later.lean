/-
# SeedGrammar.Proofs.Script.Later — what is true of a roster from then on

One roster leads to another if walks can go from the one to the other, any walks, one after
another, each with dice and a scope of its own (`Roster.Leads`). A walk may consist of any
operations, expansions, descents and member scopes, and may go on after a refusal. What a
script does leads from roster to roster too, as long as it does not forget the units
(`Script.Commands.leads`).

Whatever leads from a roster to a later one lets it grow (`Roster.Leads.grown`), so the
units that are not current are closed for good, and names are never given out again
(`Roster.Leads.closed_and_numbered`).
-/
import SeedGrammar.Proofs.Walk.Growth
import SeedGrammar.Script

namespace SeedGrammar

set_option autoImplicit false

open Walk

/-! ## Later rosters -/

/-- Walks lead from a roster to a later one, with the names given out on the way. -/
inductive Roster.Leads : Roster → List Naming → Roster → Prop where
  | stay (roster : Roster) : Leads roster [] roster
  | walk {before mid : Roster} {namings : List Naming} (first : Leads before namings mid)
      {α : Type} (walk : Walk α) (dice : Dice) (scope : Scope) :
      Leads before (namings ++ (walk.trail ⟨dice, mid, scope⟩).flatMap Moment.namings)
        (walk.run ⟨dice, mid, scope⟩).2.roster

namespace Roster.Leads

variable {before mid after : Roster} {namings others : List Naming}

theorem trans (first : before.Leads namings mid) (second : mid.Leads others after) :
    before.Leads (namings ++ others) after := by
  induction second with
  | stay => rwa [List.append_nil]
  | walk _ walk dice scope ih =>
    rw [← List.append_assoc]
    exact .walk ih walk dice scope

theorem of_run {α : Type} (walk : Walk α) (w : Walker) :
    w.roster.Leads ((walk.trail w).flatMap Moment.namings) (walk.run w).2.roster :=
  .walk (.stay w.roster) walk w.dice w.scope

theorem sound (leads : before.Leads namings after) (sound : before.Sound) : after.Sound := by
  induction leads with
  | stay => exact sound
  | walk _ walk dice scope ih => exact walk.sound_run ih

theorem grown (leads : before.Leads namings after) (sound : before.Sound) :
    before.Grown namings after := by
  induction leads with
  | stay => exact .refl before
  | walk first walk dice scope ih =>
    exact ih.trans (walk.grown_run (w := ⟨dice, _, scope⟩) (first.sound sound))

end Roster.Leads

/-! ## Scripts -/

namespace Script

mutual

/-- The command does not forget the units, nor does any inside of it. -/
def Command.KeepsUnits : Command → Prop
  | .clear => False
  | .memberScope body => body.KeepsUnits
  | _ => True

def Commands.KeepsUnits : Commands → Prop
  | .nil => True
  | .cons _ command rest => command.KeepsUnits ∧ rest.KeepsUnits

end

theorem leads_report {α : Type} (walk : Walk α) (reply : α → Reply) (w : Walker) :
    ∃ namings, w.roster.Leads namings (Command.run.report (tell walk reply w)).2.roster :=
  ⟨_, .of_run walk w⟩

theorem leads_draw {α : Type} (n : Nat) (walk : Positive → Walk α) (reply : α → Reply)
    (w : Walker) :
    ∃ namings, w.roster.Leads namings (Command.run.report (tellDraw n walk reply w)).2.roster := by
  unfold tellDraw
  by_cases positive : 0 < n
  · rw [dif_pos positive]
    exact leads_report _ reply w
  · rw [dif_neg positive]
    exact ⟨_, .stay w.roster⟩

mutual

theorem Command.leads (g : Grammar) (command : Command) (keeps : command.KeepsUnits) (w : Walker) :
    ∃ namings, w.roster.Leads namings (command.run g w).2.roster := by
  cases command with
  | addUnit => exact leads_report _ _ w
  | currentPath => exact leads_report _ _ w
  | level => exact leads_report _ _ w
  | paths => exact leads_report _ _ w
  | size => exact leads_report _ _ w
  | unit path => exact leads_report _ _ w
  | currentUnit => exact leads_report _ _ w
  | somePath => exact leads_report _ _ w
  | otherPath => exact leads_report _ _ w
  | addImport path => exact leads_report _ _ w
  | isImported path => exact leads_report _ _ w
  | nameContract => exact leads_report _ _ w
  | nameFunction => exact leads_report _ _ w
  | indent => exact leads_report _ _ w
  | unindent => exact leads_report _ _ w
  | describe => exact leads_report _ _ w
  | uniform n => exact leads_draw n _ _ w
  | likely n => exact leads_draw n _ _ w
  | subset count =>
    cases count with
    | zero => exact ⟨_, .stay w.roster⟩
    | succ count => exact leads_report _ _ w
  | shuffle count => exact leads_report _ _ w
  | setScope scope => exact leads_report _ _ w
  | reseed seed => exact ⟨_, .stay w.roster⟩
  | clear => exact keeps.elim
  | production p => exact ⟨_, .stay w.roster⟩
  | children p => exact ⟨_, .stay w.roster⟩
  | expand p => exact leads_report _ _ w
  | descend parent children =>
    unfold Command.run
    cases declareAll parent children with
    | error e => exact ⟨_, .stay w.roster⟩
    | ok children => exact leads_report _ _ w
  | memberScope body =>
    have entering := Roster.Leads.of_run enterMembers w
    unfold Command.run
    rcases ran : enterMembers.run w with ⟨e | _, w'⟩
    all_goals rw [ran] at entering
    · exact ⟨_, entering⟩
    · obtain ⟨namings, inside⟩ := Commands.leads g body keeps w'
      exact ⟨_, (entering.trans inside).trans (.of_run leaveMembers _)⟩

/-- What a script does leads from roster to roster. -/
theorem Commands.leads (g : Grammar) (commands : Commands) (keeps : commands.KeepsUnits)
    (w : Walker) : ∃ namings, w.roster.Leads namings (commands.run g w).2.2.roster := by
  cases commands with
  | nil => exact ⟨_, .stay w.roster⟩
  | cons tolerated command rest =>
    obtain ⟨namings, first⟩ := Command.leads g command keeps.1 w
    obtain ⟨others, onward⟩ := Commands.leads g rest keeps.2 (command.run g w).2
    unfold Commands.run
    rcases ran : command.run g w with ⟨report, w'⟩
    rw [ran] at first onward
    dsimp only
    split
    · exact ⟨_, first⟩
    · exact ⟨_, first.trans onward⟩

end

end Script

/-! ## What stays true -/

/-- **Units are closed behind the current one, and no unit gives a name twice.** Whatever
leads from a sound roster to a later one, every unit is still on it, with all its imports
and, unless it was current, as it was. The names that each unit gave out meanwhile are
numbered on from its count, contracts and functions each for themselves.

A roster is sound wherever a script can get (`Script.Reached.sound`). -/
theorem Roster.Leads.closed_and_numbered {before after : Roster} {namings : List Naming}
    (leads : before.Leads namings after) (sound : before.Sound) :
    (∀ path u, before.unit? path = some u → ∃ u', after.unit? path = some u' ∧
      u.imports ⊆ u'.imports ∧ (before.current ≠ some path → u' = u)) ∧
      (∀ path kind, ∃ n, namesIn namings path kind =
        (List.range' (before.count path kind) n).map kind.name ∧
          after.count path kind = before.count path kind + n) ∧
        ∀ path, ((namings.filter fun naming => naming.path = path).map Naming.name).Nodup := by
  have grown := leads.grown sound
  refine ⟨fun path u known => ?_, grown.numbered, grown.nodup_names⟩
  obtain ⟨u', found, more⟩ := grown.kept known
  refine ⟨u', found, more, fun apart => ?_⟩
  rw [grown.closed apart known] at found
  exact (Option.some.inj found).symm

/-- Names given by hand, in a member scope that was left by a refusal, and in another unit
added meanwhile. -/
theorem Roster.Leads.closed_and_numbered_after_refusal :
    let before := (Roster.addUnit (Roster.addUnit {}).2).2.nameFunction.2
    let named : Walk Unit := do
      let _ ← Walk.nameFunction
      let _ ← (memberScope (do let _ ← Walk.nameFunction; refuse .noUnit : Walk Unit)).attempt
      let _ ← Walk.nameContract
      let _ ← Walk.addUnit
      let _ ← Walk.nameFunction
    let namings : List Naming := [⟨"su1.sol", .function, "f1"⟩, ⟨"su1.sol", .function, "f2"⟩,
      ⟨"su1.sol", .contract, "C0"⟩, ⟨"su2.sol", .function, "f0"⟩]
    let after := (named.run ⟨.ofSeed 0, before, .free⟩).2.roster
    before.Leads namings after ∧ before.Sound ∧
      (∀ path u, before.unit? path = some u → ∃ u', after.unit? path = some u' ∧
        u.imports ⊆ u'.imports ∧ (before.current ≠ some path → u' = u)) ∧
        (∀ path kind, ∃ n, namesIn namings path kind =
          (List.range' (before.count path kind) n).map kind.name ∧
            after.count path kind = before.count path kind + n) ∧
          ∀ path, ((namings.filter fun naming => naming.path = path).map Naming.name).Nodup := by
  intro before named namings after
  have sound : before.Sound := Roster.Sound.empty.addUnit.addUnit.nameFunction.sound
  have given : (named.trail ⟨.ofSeed 0, before, .free⟩).flatMap Moment.namings = namings := by
    decide +kernel
  have leads : before.Leads namings after := given ▸ .of_run named ⟨.ofSeed 0, before, .free⟩
  exact ⟨leads, sound, Roster.Leads.closed_and_numbered leads sound⟩

end SeedGrammar
