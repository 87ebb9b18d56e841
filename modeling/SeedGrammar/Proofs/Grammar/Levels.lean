/-
# SeedGrammar.Proofs.Grammar.Levels — how deep units get while they are written

Expansions leave levels as they found them (`keeps_expand`), but on the way a unit may be
deeper. `walk.Rises k` says that at no moment of the walk any unit is more than `k` levels
deeper than it was at the start, and that whatever is drawn is in range. Only a member
scope adds a level, to the one that its body adds (`Rises.memberScope`), and the members of
a contract add none: one level is all that any expansion adds (`rises_expand`).
-/
import SeedGrammar.Proofs.Grammar.Balance
import SeedGrammar.Proofs.Walk.Passing

namespace SeedGrammar

set_option autoImplicit false

open Walk

/-! ## Levels -/

/-- The level of the unit at a path; a unit still to be added is at the margin. -/
def Roster.levelAt (roster : Roster) (path : String) : Nat :=
  ((roster.unit? path).map UnitRecord.level).getD 0

theorem Roster.levelAt_of_known {roster : Roster} {path : String} {u : UnitRecord}
    (known : roster.unit? path = some u) : roster.levelAt path = u.level := by
  rw [levelAt, known]
  rfl

theorem Roster.Balanced.levelAt_eq {before after : Roster} (balanced : before.Balanced after)
    (path : String) : after.levelAt path = before.levelAt path := by
  cases known : before.unit? path with
  | some u =>
    obtain ⟨u', found, same⟩ := balanced.level known
    rw [levelAt_of_known known, levelAt_of_known found, same]
  | none =>
    have margin : before.levelAt path = 0 := by rw [levelAt, known]; rfl
    rw [margin]
    cases found : after.unit? path with
    | some u => rw [levelAt_of_known found, balanced.added known found]
    | none =>
      rw [levelAt, found]
      rfl

theorem Roster.levelAt_indent_le {roster inner : Roster} (sound : roster.Sound)
    (entered : roster.indent = (.ok (), inner)) (path : String) :
    inner.levelAt path ≤ roster.levelAt path + 1 := by
  obtain ⟨current, u, -, known, rfl⟩ := Roster.Steady.exists_of_indent sound entered
  by_cases here : path = current
  · subst here
    exact Nat.le_of_eq (by rw [levelAt_of_known (unit?_put_self known), levelAt_of_known known])
  · rw [levelAt, unit?_put_of_ne here]
    exact Nat.le_succ _

/-! ## Rising -/

/-- At a moment after the start, from where units are at most `k` levels deeper, and with
what is drawn in range. -/
structure Walker.Amid (k : Nat) (w : Walker) (moment : Moment) : Prop where
  level : ∀ path, moment.walker.roster.levelAt path ≤ w.roster.levelAt path + k
  inRange : moment.action.InRange moment.walker

theorem passing_amid (k : Nat) : Passing (Walker.Ends Roster.Balanced)
    fun w moment => w.roster.Sound → w.Amid k moment where
  toLasting := lasting_balanced
  here := fun _ _ inRange _ => ⟨fun _ => Nat.le_add_right _ k, inRange⟩
  onward := fun ends amid sound => {
    level := fun path => (ends.roster sound).levelAt_eq path ▸ (amid (ends.sound sound)).level path
    inRange := (amid (ends.sound sound)).inRange }

/-- At no moment of the walk is a unit more than `k` levels deeper than at the start. -/
def Walk.Rises {α : Type} (walk : Walk α) (k : Nat) : Prop :=
  walk.Passes (Walker.Ends Roster.Balanced) fun w moment => w.roster.Sound → w.Amid k moment

/-- One action that leaves levels as they are. -/
theorem rises_single {α : Type} {k : Nat} {walk : Walk α} {action : Action}
    (trails : ∀ w, walk.trail w = [⟨w, action⟩]) (inRange : ∀ w, action.InRange w)
    (keeps : walk.Keeps (Walker.Ends Roster.Balanced)) : walk.Rises k :=
  fun w => (passing_amid k).single (trails w) (inRange w) (keeps w)

theorem stepwise_rises (k : Nat) : Stepwise fun {_} walk => walk.Rises k :=
  (passing_amid k).stepwise
    (fun path => rises_single (trail_act (.addImport path) id) (fun _ => trivial)
      (stepwise_balanced.addImport path))
    (rises_single (trail_act .nameContract id) (fun _ => trivial) stepwise_balanced.nameContract)
    (rises_single (trail_act .nameFunction id) (fun _ => trivial) stepwise_balanced.nameFunction)

/-! ## Member scopes -/

section MemberScopes

variable {α : Type} {k : Nat} {body : Walk α}

theorem trail_enterMembers (w : Walker) :
    enterMembers.trail w = ⟨w, .indent⟩ :: match w.roster.indent with
      | (.error _, _) => []
      | (.ok (), roster) => [⟨{ w with roster }, .setScope .member⟩] := by
  have indented : indent.run w = (w.roster.indent.1, { w with roster := w.roster.indent.2 }) :=
    run_ofExcept _ _
  have single : indent.trail w = [⟨w, .indent⟩] := trail_act .indent id w
  unfold enterMembers
  rw [trail_bind, indented, single]
  rcases w.roster.indent with ⟨e | _, roster⟩
  · rfl
  · rfl

theorem trail_leaveMembers (w : Walker) :
    leaveMembers.trail w = [⟨w, .setScope .free⟩, ⟨{ w with scope := .free }, .unindent⟩] :=
  congrArg (List.cons _) (trail_act .unindent id _)

/-- Each moment of a member scope: before it is entered, as it is entered, inside, or on the
way out. -/
theorem mem_trail_memberScope {w : Walker} {moment : Moment}
    (here : moment ∈ (memberScope body).trail w) :
    moment = ⟨w, .indent⟩ ∨ ∃ inner, w.roster.indent = (.ok (), inner) ∧
      (moment = ⟨{ w with roster := inner }, .setScope .member⟩ ∨
        moment ∈ body.trail { w with roster := inner, scope := .member } ∨
          ∃ scope, ∃ action ∈ [.setScope .free, .unindent], moment =
            ⟨{ (body.run { w with roster := inner, scope := .member }).2 with scope }, action⟩) := by
  unfold memberScope at here
  rw [trail_bind, run_enterMembers, trail_enterMembers] at here
  rcases entered : w.roster.indent with ⟨e | ⟨⟩, inner⟩
  all_goals rw [entered] at here; dsimp only at here
  · exact Or.inl (by simpa using here)
  · rw [trail_bind, run_attempt, trail_attempt] at here
    dsimp only at here
    rw [trail_bind, trail_attempt, run_attempt, trail_leaveMembers] at here
    dsimp only at here
    rw [trail_ofExcept, List.append_nil, List.cons_append, List.singleton_append] at here
    rcases List.mem_cons.1 here with before | here
    · exact Or.inl before
    · refine Or.inr ⟨inner, rfl, ?_⟩
      rcases List.mem_cons.1 here with entering | here
      · exact Or.inl entering
      · rcases List.mem_append.1 here with inside | leaving
        · exact Or.inr (Or.inl inside)
        · refine Or.inr (Or.inr ?_)
          simp only [List.mem_cons, List.not_mem_nil, or_false] at leaving
          rcases leaving with rfl | rfl
          · exact ⟨_, _, by simp, rfl⟩
          · exact ⟨_, _, by simp, rfl⟩

/-- A member scope is one level deeper than its body, if this stays in the unit. -/
theorem Walk.Rises.memberScope (rises : body.Rises k)
    (steady : body.Keeps (Walker.Ends Roster.Steady)) : (memberScope body).Rises (k + 1) := by
  intro w
  refine ⟨?_, fun moment here sound => ?_⟩
  · exact (keeps_memberScope steady w).mono fun _ _ steady => steady.toBalanced
  rcases mem_trail_memberScope here with rfl | ⟨inner, entered, here⟩
  · exact ⟨fun _ => Nat.le_add_right _ _, trivial⟩
  have deeper := Roster.levelAt_indent_le sound entered
  have innerSound : inner.Sound := by
    have entering := sound.indent.sound
    rwa [entered] at entering
  rcases here with rfl | inside | ⟨scope, action, leaving, rfl⟩
  · refine ⟨fun path => ?_, trivial⟩
    exact Nat.le_trans (deeper path) (by omega)
  · have amid := (rises _).moments moment inside innerSound
    refine ⟨fun path => ?_, amid.inRange⟩
    have level := amid.level path
    have outer := deeper path
    dsimp only at level
    omega
  · refine ⟨fun path => ?_, ?_⟩
    · have same := ((rises ⟨w.dice, inner, .member⟩).ends.roster innerSound).levelAt_eq path
      have outer := deeper path
      dsimp only at same ⊢
      omega
    · simp only [List.mem_cons, List.not_mem_nil, or_false] at leaving
      rcases leaving with rfl | rfl
      · trivial
      · trivial

end MemberScopes

/-! ## Expansions -/

/-- One level is all that an expansion adds on the way. -/
theorem rises_expand (g : Grammar) (p : Production) : (g.expand p).Rises 1 := by
  have members := (stepwise_rises 0).members g
  have addUnit : addUnit.Rises 1 :=
    rises_single (fun _ => rfl) (fun _ => trivial) keeps_addUnit
  exact (stepwise_rises 1).expand g (members.memberScope (stepwise_steady.members g)) addUnit p

end SeedGrammar
