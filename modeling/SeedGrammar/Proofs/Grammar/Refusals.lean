/-
# SeedGrammar.Proofs.Grammar.Refusals — what is refused, and that nothing comes of it

For each operation that may be refused there is one thing that it is refused for, which can
be told from the roster beforehand (`Operation.refusal`). Almost always it is that there is
no unit; the margin cannot be passed, and a path is only chosen among enough of them. What
is refused leaves no mark: units, dice and scope are those before it, so whatever is drawn
next is what would have been drawn without it (`Operation.refused_or_done`).

A sound roster has no units, or it has a last one, which is current. In the first case each
operation is refused by the first thing it asks for, and in the second none finds anything
missing.
-/
import SeedGrammar.Proofs.Grammar.Writing
import SeedGrammar.Proofs.Roster.Sound
import SeedGrammar.Proofs.Walk.Keeping
import SeedGrammar.Walk.Trail

namespace SeedGrammar

set_option autoImplicit false

open Walk

/-! ## Operations and their refusals -/

/-- What a walker may be refused. -/
inductive Operation where
  | currentPath
  | currentUnit
  | level
  | addImport (path : String)
  | nameContract
  | nameFunction
  | indent
  | unindent
  | enterMembers
  | somePath
  | otherPath
  | expandContract
  | expandFunction

namespace Operation

abbrev Answer : Operation → Type
  | currentPath => String
  | currentUnit => UnitRecord
  | level => Nat
  | addImport _ => Bool
  | nameContract => String
  | nameFunction => String
  | indent => Unit
  | unindent => Unit
  | enterMembers => Unit
  | somePath => String
  | otherPath => String
  | expandContract => List Line
  | expandFunction => List Line

def walk (g : Grammar) : (op : Operation) → Walk op.Answer
  | currentPath => Walk.currentPath
  | currentUnit => Walk.currentUnit
  | level => Walk.level
  | addImport path => Walk.addImport path
  | nameContract => Walk.nameContract
  | nameFunction => Walk.nameFunction
  | indent => Walk.indent
  | unindent => Walk.unindent
  | enterMembers => Walk.enterMembers
  | somePath => Walk.somePath
  | otherPath => Walk.otherPath
  | expandContract => g.expand .contract
  | expandFunction => g.expand .function

/-- What the operation is refused with on a roster, if it is. -/
def refusal (roster : Roster) : Operation → Option Error
  | somePath => if roster.size = 0 then some (.tooFewUnits 1 0) else none
  | otherPath => if roster.size < 2 then some (.tooFewUnits 2 roster.size) else none
  | unindent =>
    if roster.size = 0 then some .noUnit
    else
      match roster.current, roster.level with
      | some path, .ok 0 => some (.atMargin path)
      | _, _ => none
  | _ => if roster.size = 0 then some .noUnit else none

end Operation

/-- The walk is refused with the error, with everything as it was, or it is answered if
there is none. -/
def Walk.SucceedsUnless {α : Type} (walk : Walk α) (w : Walker) : Option Error → Prop
  | some e => walk.run w = (.error e, w)
  | none => ∃ answer w', walk.run w = (.ok answer, w')

theorem Walk.Always.succeeds {α : Type} {walk : Walk α} {site : Site} {post : α → Site → Prop}
    (always : walk.Always site post) (dice : Dice) :
    walk.SucceedsUnless (site.walker dice) none := by
  obtain ⟨answer, site', dice', ran, -⟩ := always dice
  exact ⟨answer, _, ran⟩

/-! ## Without units -/

theorem Operation.refused_of_empty (g : Grammar) (op : Operation) (dice : Dice) (scope : Scope) :
    (op.walk g).SucceedsUnless ⟨dice, {}, scope⟩ (op.refusal {}) := by
  cases op with
  | somePath =>
    have paths : Roster.paths {} = [] := List.mergeSort_nil
    show (choosePath 1 (Roster.paths {})).run _ = _
    rw [paths]
    rfl
  | _ => rfl

/-! ## Inside a unit -/

section InUnit

variable (rs : List UnitRecord) (u : UnitRecord) (scope : Scope)

/-- A look at the roster that finds what it is after. -/
theorem Walk.always_look {α : Type} {site : Site} (look : Roster → Except Error α) {value : α}
    (found : look site.roster = .ok value) :
    (survey >>= fun roster => ofExcept (look roster)).Always site fun v site' =>
      v = value ∧ site' = site := by
  refine always_survey.bind fun roster site' surveyed => ?_
  obtain ⟨rfl, rfl⟩ := surveyed
  rw [found]
  exact always_pure ⟨rfl, rfl⟩

theorem Walk.always_somePath :
    somePath.Always (.inUnit rs u scope) fun _ site' => site' = .inUnit rs u scope := by
  refine always_survey.bind fun roster site' surveyed => ?_
  obtain ⟨rfl, rfl⟩ := surveyed
  have listed : unitPath rs.length ∈ (Roster.ofRecords (rs ++ [u])).paths := by
    rw [(Roster.paths_ofRecords _).mem_iff]
    exact List.mem_map_of_mem (by simp)
  exact (draws_choosePath 1 (List.length_pos_of_mem listed) _).mono fun _ _ drawn => drawn.2

theorem Walk.always_addImport_cases (target : String) :
    (addImport target).Always (.inUnit rs u scope) fun isNew site' =>
      if target = unitPath rs.length ∨ target ∈ u.imports then
        isNew = false ∧ site' = .inUnit rs u scope
      else
        isNew = true ∧ site' = .inUnit rs { u with imports := u.imports ++ [target] } scope := by
  have does := Roster.addImport_ofRecords_cases rs u target
  by_cases known : target = unitPath rs.length ∨ target ∈ u.imports
  · rw [if_pos known] at does
    simp only [if_pos known]
    exact always_operation (Roster.addImport · target) (fun _ => run_ofExcept _ _) does
  · rw [if_neg known] at does
    simp only [if_neg known]
    exact always_operation (Roster.addImport · target) (fun _ => run_ofExcept _ _) does

theorem Roster.unindent_ofRecords_of_margin (margin : u.level = 0) :
    (ofRecords (rs ++ [u])).unindent =
      (.error (.atMargin (unitPath rs.length)), ofRecords (rs ++ [u])) := by
  unfold unindent
  rw [withCurrent_ofRecords, margin]

namespace Operation

theorem unindent_inUnit (dice : Dice) :
    Walk.unindent.SucceedsUnless ((Site.inUnit rs u scope).walker dice)
      (unindent.refusal (.ofRecords (rs ++ [u]))) := by
  have level := Roster.level_ofRecords rs u
  cases deep : u.level with
  | zero =>
    have refused : unindent.refusal (.ofRecords (rs ++ [u])) =
        some (.atMargin (unitPath rs.length)) := by
      simp [refusal, level, deep, Roster.current_ofRecords_append]
    have ran : Walk.unindent.run ((Site.inUnit rs u scope).walker dice) =
        ((Roster.ofRecords (rs ++ [u])).unindent.1,
          ⟨dice, (Roster.ofRecords (rs ++ [u])).unindent.2, scope⟩) := run_ofExcept _ _
    rw [refused]
    show Walk.unindent.run _ = _
    rw [ran, Roster.unindent_ofRecords_of_margin rs u deep]
    rfl
  | succ n =>
    have none : unindent.refusal (.ofRecords (rs ++ [u])) = none := by
      simp [refusal, level, deep]
    rw [none]
    exact (always_unindent deep).succeeds dice

theorem otherPath_inUnit (dice : Dice) :
    Walk.otherPath.SucceedsUnless ((Site.inUnit rs u scope).walker dice)
      (otherPath.refusal (.ofRecords (rs ++ [u]))) := by
  cases rs with
  | nil => rfl
  | cons r rs =>
    have none : otherPath.refusal (.ofRecords (r :: rs ++ [u])) = none := by simp [refusal]
    rw [none]
    exact (always_otherPath (by simp)).succeeds dice

/-- In a unit an operation is only refused for the margin, or for want of another unit. -/
theorem refusal_inUnit {op : Operation} (free : op ≠ .unindent) (alone : op ≠ .otherPath) :
    op.refusal (.ofRecords (rs ++ [u])) = none := by
  cases op with
  | unindent => exact absurd rfl free
  | otherPath => exact absurd rfl alone
  | _ => simp [refusal]

theorem done_inUnit (g : Grammar) (op : Operation) (dice : Dice) :
    (op.walk g).SucceedsUnless ((Site.inUnit rs u scope).walker dice)
      (op.refusal (.ofRecords (rs ++ [u]))) := by
  cases op
  case unindent => exact unindent_inUnit rs u scope dice
  case otherPath => exact otherPath_inUnit rs u scope dice
  all_goals rw [refusal_inUnit rs u (by simp) (by simp)]
  case currentPath =>
    exact (always_look Roster.currentPath (Roster.currentPath_ofRecords rs u)).succeeds dice
  case currentUnit =>
    exact (always_look Roster.currentUnit (Roster.currentUnit_ofRecords rs u)).succeeds dice
  case level => exact always_level.succeeds dice
  case addImport path => exact (always_addImport_cases rs u scope path).succeeds dice
  case nameContract => exact always_nameContract.succeeds dice
  case nameFunction => exact always_nameFunction.succeeds dice
  case indent => exact always_indent.succeeds dice
  case enterMembers => exact always_enterMembers.succeeds dice
  case somePath => exact (always_somePath rs u scope).succeeds dice
  case expandContract => exact (always_contract g).succeeds dice
  case expandFunction => exact always_function.succeeds dice

end Operation

end InUnit

/-! ## On any sound roster -/

/-- An operation is refused as the roster tells, or it is done. -/
theorem Operation.refused_or_done (g : Grammar) (op : Operation) {w : Walker}
    (sound : w.roster.Sound) : (op.walk g).SucceedsUnless w (op.refusal w.roster) := by
  obtain ⟨dice, roster, scope⟩ := w
  rcases sound.empty_or_inUnit with rfl | ⟨rs, u, rfl⟩
  · exact refused_of_empty g op dice scope
  · exact done_inUnit rs u scope g op dice

theorem Walk.addImport_answers_false (target : String) {w : Walker} (sound : w.roster.Sound) :
    (((addImport target).run w).1 = .ok false ↔
      w.roster.current = some target ∨ ∃ u, w.roster.currentUnit = .ok u ∧ target ∈ u.imports) ∧
      (((addImport target).run w).1 = .ok false → ((addImport target).run w).2 = w) := by
  obtain ⟨dice, roster, scope⟩ := w
  rw [run_addImport]
  rcases sound.empty_or_inUnit with rfl | ⟨rs, u, rfl⟩
  · simp [Roster.addImport, Roster.withCurrent, Roster.currentUnit]
  · rw [Roster.addImport_ofRecords_cases, Roster.currentUnit_ofRecords,
      Roster.current_ofRecords_append]
    by_cases known : target = unitPath rs.length ∨ target ∈ u.imports
    · simp [known, eq_comm]
    · simp [known, eq_comm]

/-- **What is refused leaves no mark.** Every operation is refused exactly as documented, and
then units, dice and scope are those before it: for want of a unit, at the margin, for want
of a path to choose. Where there are no units, a member scope is not entered and its body is
not run. An import is answered with `false` exactly if it is that of the unit itself or
recorded already, and then everything is as it was too.

A roster is sound wherever a script can get (`Script.Reached.sound`). -/
theorem refused_without_mark (g : Grammar) {w : Walker} (sound : w.roster.Sound) :
    (∀ op : Operation, (op.walk g).SucceedsUnless w (op.refusal w.roster)) ∧
      (w.roster.size = 0 → ∀ {α : Type},
        (∀ body : Walker → Except Error α × Walker, within body w = (.error .noUnit, w)) ∧
          ∀ body : Walk α, (memberScope body).run w = (.error .noUnit, w) ∧
            (memberScope body).trail w = [⟨w, .indent⟩]) ∧
        ∀ path : String,
          (((addImport path).run w).1 = .ok false ↔
            w.roster.current = some path ∨
              ∃ u, w.roster.currentUnit = .ok u ∧ path ∈ u.imports) ∧
            (((addImport path).run w).1 = .ok false → ((addImport path).run w).2 = w) := by
  refine ⟨fun op => op.refused_or_done g sound, fun none {α} => ?_,
    fun path => addImport_answers_false path sound⟩
  obtain ⟨dice, roster, scope⟩ := w
  rcases sound.empty_or_inUnit with rfl | ⟨rs, u, rfl⟩
  · exact ⟨fun body => rfl, fun body => ⟨rfl, rfl⟩⟩
  · simp at none

/-- Before the first unit, and in the first unit, at its margin. -/
theorem refused_without_mark_at_first :
    let start := Walker.ofSeed 5
    let first : Walker := { start with roster := start.roster.addUnit.2 }
    (start.roster.Sound ∧ start.roster.size = 0 ∧
      (∀ op : Operation, (op.walk {}).SucceedsUnless start (op.refusal start.roster)) ∧
      ∀ body : Walk Unit, (memberScope body).run start = (.error .noUnit, start) ∧
        (memberScope body).trail start = [⟨start, .indent⟩]) ∧
      first.roster.Sound ∧ unindent.run first = (.error (.atMargin "su0.sol"), first) ∧
        otherPath.run first = (.error (.tooFewUnits 2 1), first) ∧
          ((addImport "su0.sol").run first).1 = .ok false ∧
            ((addImport "su0.sol").run first).2 = first := by
  intro start first
  have sound : first.roster.Sound := Roster.Sound.empty.addUnit
  have atStart := refused_without_mark {} (w := start) .empty
  have atFirst := refused_without_mark {} sound
  have margin : Operation.unindent.refusal first.roster = some (.atMargin "su0.sol") := by decide
  have unindented := atFirst.1 .unindent
  rw [margin] at unindented
  have itself := atFirst.2.2 "su0.sol"
  have answered : ((addImport "su0.sol").run first).1 = .ok false := itself.1.2 (Or.inl (by decide))
  exact ⟨⟨.empty, rfl, atStart.1, (atStart.2.1 rfl).2⟩, sound, unindented, atFirst.1 .otherPath,
    answered, itself.2 answered⟩

end SeedGrammar
