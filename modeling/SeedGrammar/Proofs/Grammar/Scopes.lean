/-
# SeedGrammar.Proofs.Grammar.Scopes — what a member scope undoes, and what it does not

The body of a member scope may do almost anything: expand productions, add and name, draw,
enter further member scopes. `Walker.Roams` is what may become of a walker meanwhile, with
the single actions limited to those that some predicate allows and with the member scopes
counted. Expansions are among what may happen (`roaming_expand`).

Leaving a scope frees functions, whatever they were before it. So a scope inside another
one makes what remains of the outer one public (`scope_of_within`).

Entering a scope indents the unit that is current then, and leaving it unindents the one
that is current in the end. While nothing but member scopes moves levels, a unit that has
become current since is at the margin (`Roster.Nested`). So the scope is undone if its unit
is still current, and refused with the old unit one level too deep if it is not
(`level_of_within`).
-/
import SeedGrammar.Proofs.Grammar.Levels
import SeedGrammar.Proofs.Grammar.Writing
import SeedGrammar.Proofs.Walk.Growth

namespace SeedGrammar

set_option autoImplicit false

open Walk

/-! ## Entering a scope -/

/-- From a roster to the one inside a member scope, which is entered in the unit at a path. -/
structure Roster.Enters (roster : Roster) (path : String) (inner : Roster) : Prop where
  indent : roster.indent = (.ok (), inner)
  sound : inner.Sound
  grown : roster.Grown [] inner
  outer : roster.current = some path
  current : inner.current = some path
  level : inner.levelAt path = roster.levelAt path + 1

theorem Roster.Sound.enters {roster inner : Roster} (sound : roster.Sound)
    (indent : roster.indent = (.ok (), inner)) : ∃ path, roster.Enters path inner := by
  have innerSound := sound.indent.sound
  have grown := Roster.Grown.indent sound
  rw [indent] at innerSound grown
  obtain ⟨path, u, current, known, rfl⟩ := Roster.Steady.exists_of_indent sound indent
  refine ⟨path, indent, innerSound, grown, current, current, ?_⟩
  rw [Roster.levelAt_of_known (Roster.unit?_put_self known), Roster.levelAt_of_known known]

/-- A scope can be entered in every unit, and only in one. -/
theorem Roster.Sound.enters_cases {roster : Roster} (sound : roster.Sound) :
    (roster.current = none ∧ roster.indent = (.error .noUnit, roster)) ∨
      ∃ path inner, roster.Enters path inner := by
  cases current : roster.current with
  | none =>
    refine Or.inl ⟨rfl, ?_⟩
    unfold Roster.indent Roster.withCurrent
    rw [current]
  | some path =>
    obtain ⟨u, known⟩ := sound.exists_current current
    obtain ⟨path, enters⟩ := sound.enters (Roster.withCurrent_of_current current known)
    exact Or.inr ⟨path, _, enters⟩

/-- There is still a unit inside, be it another one. -/
theorem Roster.Enters.exists_current {roster inner ended : Roster} {path : String}
    {namings : List Naming} (enters : roster.Enters path inner)
    (grown : inner.Grown namings ended) : ∃ last, ended.current = some last := by
  rcases grown.moved with same | ⟨new, added, -⟩
  · exact ⟨path, same.trans enters.current⟩
  · exact ⟨new, added⟩

/-! ## What may happen in a body -/

/-- What may become of a walker while `n` member scopes are entered and left. Between
them, only such actions are taken as `may` allows, and dice may be exchanged. -/
inductive Walker.Roams (may : Action → Prop) : Nat → Walker → Walker → Prop where
  | stay (w : Walker) : Roams may 0 w w
  | act {n : Nat} {w v : Walker} (before : Roams may n w v) {action : Action}
      (allowed : may action) : Roams may n w (action.perform v).2
  | dice {n : Nat} {w v : Walker} (before : Roams may n w v) (dice : Dice) :
      Roams may n w { v with dice }
  | scope {m n : Nat} {w v ended : Walker} {inner : Roster} (before : Roams may n w v)
      (entered : v.roster.indent = (.ok (), inner))
      (inside : Roams may m { v with roster := inner, scope := .member } ended) :
      Roams may (n + 1) w { ended with roster := ended.roster.unindent.2, scope := .free }

namespace Action

/-- Does not set the scope of functions. -/
def KeepsScope : Action → Prop
  | .setScope _ => False
  | _ => True

/-- Does not change the level of a unit. -/
def KeepsLevel : Action → Prop
  | .indent => False
  | .unindent => False
  | _ => True

/-- Is none of those that make up the entry and the exit of a member scope. -/
def Plain (action : Action) : Prop := action.KeepsScope ∧ action.KeepsLevel

end Action

namespace Walker.Roams

variable {may : Action → Prop} {m n : Nat} {u v w : Walker}

theorem trans (first : u.Roams may m v) (second : v.Roams may n w) : u.Roams may (m + n) w := by
  induction second with
  | stay => exact first
  | act before allowed ih => exact (ih first).act allowed
  | dice before dice ih => exact (ih first).dice dice
  | scope before entered inside ih _ => exact (ih first).scope entered inside

theorem sound (roams : w.Roams may n v) (sound : w.roster.Sound) : v.roster.Sound := by
  induction roams with
  | stay => exact sound
  | act before allowed ih => exact sound_perform _ (ih sound)
  | dice before dice ih => exact ih sound
  | scope before entered inside ih inside_ih =>
    obtain ⟨path, enters⟩ := (ih sound).enters entered
    exact (inside_ih enters.sound).unindent.sound

theorem grown (roams : w.Roams may n v) (sound : w.roster.Sound) :
    ∃ namings, w.roster.Grown namings v.roster := by
  induction roams with
  | stay w => exact ⟨[], .refl w.roster⟩
  | @act n w v before action allowed ih =>
    obtain ⟨namings, grown⟩ := ih sound
    exact ⟨_, grown.trans (grown_perform action (before.sound sound))⟩
  | dice before dice ih => exact ih sound
  | @scope m n w v ended inner before entered inside ih inside_ih =>
    obtain ⟨namings, grown⟩ := ih sound
    obtain ⟨path, enters⟩ := (before.sound sound).enters entered
    obtain ⟨others, deeper⟩ := inside_ih enters.sound
    have left := Roster.Grown.unindent (inside.sound enters.sound)
    exact ⟨_, ((grown.trans enters.grown).trans deeper).trans left⟩

end Walker.Roams

/-- What may become of a walker with whatever number of scopes on the way. -/
def Walker.Roaming (may : Action → Prop) (w v : Walker) : Prop :=
  ∃ n, w.Roams may n v

theorem lasting_roaming (may : Action → Prop) : Lasting (Walker.Roaming may) where
  dice := fun w dice => ⟨0, (Walker.Roams.stay w).dice dice⟩
  trans := by
    rintro u v w ⟨m, first⟩ ⟨n, second⟩
    exact ⟨m + n, first.trans second⟩

/-! ## Expansions may happen in a body -/

section Expansions

variable {α : Type} {may : Action → Prop}

/-- A single action. -/
theorem roaming_act {walk : Walk α} (action : Action) (allowed : may action)
    (runs : ∀ w, (walk.run w).2 = (action.perform w).2) : walk.Keeps (Walker.Roaming may) := by
  intro w
  rw [runs]
  exact ⟨0, (Walker.Roams.stay w).act allowed⟩

theorem roaming_memberScope {body : Walk α} (inside : body.Keeps (Walker.Roaming may)) :
    (memberScope body).Keeps (Walker.Roaming may) := by
  intro w
  rw [run_memberScope_eq_within]
  rcases within_cases body.run w with ⟨e, refused⟩ | ⟨inner, result, ended, entered, ran, left⟩
  · rw [refused]
    exact (lasting_roaming may).refl w
  · rw [left]
    obtain ⟨m, within⟩ := inside { w with roster := inner, scope := .member }
    rw [ran] at within
    exact ⟨0 + 1, (Walker.Roams.stay w).scope entered within⟩

variable (plain : ∀ action : Action, action.Plain → may action)

include plain

theorem stepwise_roaming : Stepwise fun {_} walk => walk.Keeps (Walker.Roaming may) :=
  (lasting_roaming may).stepwise
    (fun path => roaming_act (.addImport path) (plain _ ⟨trivial, trivial⟩)
      fun _ => congrArg Prod.snd (run_ofExcept _ _))
    (roaming_act .nameContract (plain _ ⟨trivial, trivial⟩)
      fun _ => congrArg Prod.snd (run_ofExcept _ _))
    (roaming_act .nameFunction (plain _ ⟨trivial, trivial⟩)
      fun _ => congrArg Prod.snd (run_ofExcept _ _))

/-- Whatever is expanded, nothing but plain actions and member scopes happens. -/
theorem roaming_expand (g : Grammar) (p : Production) :
    (g.expand p).Keeps (Walker.Roaming may) :=
  (stepwise_roaming plain).expand g (roaming_memberScope ((stepwise_roaming plain).members g))
    (roaming_act .addUnit (plain _ ⟨trivial, trivial⟩) fun _ => rfl) p

end Expansions

/-! ## The scope of functions -/

namespace Walker.Roams

variable {may : Action → Prop} {n : Nat} {v w : Walker}

/-- As long as nothing else sets it, functions are free after the first member scope. -/
theorem scope_eq (roams : w.Roams may n v) (keeps : ∀ action, may action → action.KeepsScope) :
    v.scope = if n = 0 then w.scope else .free := by
  induction roams with
  | stay => rfl
  | @act n w v before action allowed ih =>
    rw [← ih]
    cases action with
    | setScope s => exact (keeps _ allowed).elim
    | _ => rfl
  | dice before dice ih => exact ih
  | scope before entered inside ih _ => rfl

end Walker.Roams

/-! ## Leaving a scope -/

section Leaving

variable {α : Type} (body : Walker → Except Error α × Walker) {w : Walker}

theorem within_of_entered {inner : Roster} (entered : w.roster.indent = (.ok (), inner)) :
    within body w =
      let ended := body { w with roster := inner, scope := .member }
      (settle ended.1 ended.2.roster.unindent.1,
        { ended.2 with roster := ended.2.roster.unindent.2, scope := .free }) := by
  unfold within
  rw [run_enterMembers, entered]
  dsimp only
  rw [run_leaveMembers]

theorem within_of_refused {e : Error} (refused : w.roster.indent = (.error e, w.roster)) :
    within body w = (.error e, w) := by
  unfold within
  rw [run_enterMembers, refused]

end Leaving

/-- **A member scope leaves functions free**, whatever they were before it. So the scope is
what it was only if functions were free, or if there was no unit in which to enter it. Inside,
a function is a member up to the first member scope that is entered and left there, be it of a
contract, and public from then on.

The body is any function of the walker (`run_memberScope_eq_within`). A roster is sound
wherever a script can get (`Script.Reached.sound`). -/
theorem scope_of_within (w : Walker) (sound : w.roster.Sound) :
    (∀ {α : Type} (body : Walker → Except Error α × Walker),
      (within body w).2.scope = w.scope ↔ w.scope = .free ∨ w.roster.current = none) ∧
      ∀ inner, w.roster.indent = (.ok (), inner) → ∀ n v,
        Walker.Roams Action.KeepsScope n { w with roster := inner, scope := .member } v →
          ∃ level name w', Expansion.function.run v = (.ok [.function level name (n ≠ 0)], w') := by
  refine ⟨fun body => ?_, fun inner entered n v roams => ?_⟩
  · rcases sound.enters_cases with ⟨none, refused⟩ | ⟨path, inner, enters⟩
    · rw [within_of_refused body refused]
      simp [none]
    · rw [within_of_entered body enters.indent]
      simp [enters.outer, eq_comm]
  · obtain ⟨path, enters⟩ := sound.enters entered
    have free : v.scope = .free ↔ n ≠ 0 := by
      rw [roams.scope_eq fun _ => id]
      by_cases first : n = 0
      · simp [first]
      · simp [first]
    obtain ⟨namings, grown⟩ := roams.grown enters.sound
    obtain ⟨last, isLast⟩ := enters.exists_current grown
    obtain ⟨u, known⟩ := (roams.sound enters.sound).exists_current isLast
    obtain ⟨dice, roster, scope⟩ := v
    obtain ⟨rs, rfl, -⟩ := (roams.sound enters.sound).exists_records isLast known
    have named : Expansion.function.Always (.inUnit rs u scope) _ := always_function
    obtain ⟨lines, site, dice', ran, u', -, rfl, -⟩ := named dice
    refine ⟨u.level, functionName u.functions, site.walker dice', ?_⟩
    rw [← decide_eq_decide.2 free]
    exact ran

/-- Where functions are members in the only unit. -/
theorem scope_of_within_member :
    let w : Walker := ⟨.ofSeed 5, (Roster.addUnit {}).2, .member⟩
    w.roster.Sound ∧
      (∀ {α : Type} (body : Walker → Except Error α × Walker),
        (within body w).2.scope = w.scope ↔ w.scope = .free ∨ w.roster.current = none) ∧
        ∀ inner, w.roster.indent = (.ok (), inner) → ∀ n v,
          Walker.Roams Action.KeepsScope n { w with roster := inner, scope := .member } v →
            ∃ level name w', Expansion.function.run v =
              (.ok [.function level name (n ≠ 0)], w') := by
  intro w
  have sound : w.roster.Sound := Roster.Sound.empty.addUnit
  exact ⟨sound, scope_of_within w sound⟩

/-- The scope before and after a nested member scope, and a function after it. -/
theorem public_function_in_member_scope :
    let w : Walker := ⟨.ofSeed 5, (Roster.addUnit {}).2, .free⟩
    let body : Walk (Scope × Scope × List Line) := do
      let before ← Walk.scope
      memberScope (pure ())
      let after ← Walk.scope
      let lines ← Expansion.function
      return (before, after, lines)
    ((memberScope body).run w).1 = .ok (.member, .free, [.function 1 "f0" true]) := by
  decide +kernel

/-! ## Levels of units -/

namespace Roster

variable {roster inner : Roster} {path : String}

/-- A unit that is indented goes back one level, and no other unit has changed. At the margin
nothing has. -/
theorem unindent_cases (sound : roster.Sound) (current : roster.current = some path) :
    (∃ level, roster.levelAt path = level + 1 ∧ roster.unindent.1 = .ok () ∧
      roster.unindent.2.current = some path ∧ roster.unindent.2.levelAt path = level ∧
        ∀ other, other ≠ path → roster.unindent.2.unit? other = roster.unit? other) ∨
      roster.levelAt path = 0 ∧ roster.unindent = (.error (.atMargin path), roster) := by
  obtain ⟨u, known⟩ := sound.exists_current current
  rw [levelAt_of_known known]
  unfold unindent
  rw [withCurrent_of_current current known]
  cases deep : u.level with
  | zero => exact Or.inr ⟨rfl, rfl⟩
  | succ level =>
    refine Or.inl ⟨level, rfl, rfl, current, ?_, fun other apart => unit?_put_of_ne apart⟩
    exact levelAt_of_known (unit?_put_self known)

/-- What becomes of levels while nothing but member scopes moves them. -/
structure Nested (before after : Roster) : Prop where
  /-- The unit is at its old level if it is still current. -/
  level : ∀ path, before.current = some path → after.current = some path →
    after.levelAt path = before.levelAt path
  /-- It is no less deep if it is not. -/
  deeper : ∀ path, before.current = some path → before.levelAt path ≤ after.levelAt path
  /-- Another unit is current at the margin. -/
  margin : ∀ path, before.current ≠ some path → after.current = some path →
    after.levelAt path = 0

namespace Nested

variable {before mid after : Roster} {namings others : List Naming}

theorem refl (roster : Roster) : roster.Nested roster where
  level := fun _ _ _ => rfl
  deeper := fun _ _ => Nat.le_refl _
  margin := fun _ apart current => absurd current apart

/-- Other units than the current one are closed for good. -/
theorem trans (sound : before.Sound) (grown : before.Grown namings mid)
    (grown' : mid.Grown others after) (first : before.Nested mid) (second : mid.Nested after) :
    before.Nested after := by
  have closed {path : String} (current : before.current = some path)
      (moved : mid.current ≠ some path) :
      after.current ≠ some path ∧ after.levelAt path = mid.levelAt path := by
    obtain ⟨u, known⟩ := sound.exists_current current
    obtain ⟨u', found, -⟩ := grown.kept known
    refine ⟨grown'.not_current found moved, ?_⟩
    rw [levelAt_of_known found, levelAt_of_known (grown'.closed moved found)]
  constructor
  case level =>
    intro path current still
    by_cases amid : mid.current = some path
    · rw [second.level path amid still, first.level path current amid]
    · exact absurd still (closed current amid).1
  case deeper =>
    intro path current
    have deep := first.deeper path current
    by_cases amid : mid.current = some path
    · exact Nat.le_trans deep (second.deeper path amid)
    · rwa [(closed current amid).2]
  case margin =>
    intro path apart current
    by_cases amid : mid.current = some path
    · rw [second.level path amid current]
      exact first.margin path apart amid
    · exact second.margin path amid current

/-- Leaving a member scope, from wherever its body has ended. -/
theorem leave {ended : Roster} (enters : roster.Enters path inner) (sound : ended.Sound)
    (grown : inner.Grown namings ended) (nested : inner.Nested ended) :
    (ended.current = some path ∧ ended.unindent.1 = .ok () ∧
      ended.unindent.2.current = some path ∧ ended.unindent.2.levelAt path = roster.levelAt path ∧
        ∀ other, other ≠ path → ended.unindent.2.unit? other = ended.unit? other) ∨
      ∃ new, ended.current = some new ∧ new ≠ path ∧ ended.levelAt new = 0 ∧
        ended.unindent = (.error (.atMargin new), ended) ∧
          roster.levelAt path < ended.levelAt path := by
  have raised := enters.level
  obtain ⟨last, isLast⟩ := enters.exists_current grown
  by_cases here : last = path
  · subst here
    have level := nested.level last enters.current isLast
    rcases unindent_cases sound isLast with ⟨n, deep, done, after, left, others⟩ | ⟨margin, -⟩
    · exact Or.inl ⟨isLast, done, after, by omega, others⟩
    · omega
  · have apart : inner.current ≠ some last := by
      rw [enters.current]
      exact fun same => here (Option.some.inj same).symm
    have margin := nested.margin last apart isLast
    have deep := nested.deeper path enters.current
    rcases unindent_cases sound isLast with ⟨n, indented, -⟩ | ⟨-, refused⟩
    · omega
    · exact Or.inr ⟨last, isLast, here, margin, refused, by omega⟩

/-- A member scope, whose body keeps the levels but for nested scopes, keeps them too. -/
theorem scope {ended : Roster} (enters : roster.Enters path inner) (sound : ended.Sound)
    (grown : inner.Grown namings ended) (nested : inner.Nested ended) :
    roster.Nested ended.unindent.2 := by
  have only {other : String} (isCurrent : roster.current = some other) : other = path :=
    Option.some.inj (isCurrent.symm.trans enters.outer)
  rcases leave enters sound grown nested with
    ⟨-, -, still, level, -⟩ | ⟨new, last, apart, margin, refused, deep⟩
  · constructor
    case level =>
      intro other isCurrent _
      rw [only isCurrent, level]
    case deeper =>
      intro other isCurrent
      rw [only isCurrent]
      exact Nat.le_of_eq level.symm
    case margin =>
      intro other isOther isCurrent
      exact absurd (enters.outer.trans (still.symm.trans isCurrent)) isOther
  · rw [refused]
    constructor
    case level =>
      intro other isCurrent isLast
      exact absurd ((Option.some.inj (last.symm.trans isLast)).trans (only isCurrent)) apart
    case deeper =>
      intro other isCurrent
      rw [only isCurrent]
      exact Nat.le_of_lt deep
    case margin =>
      intro other _ isLast
      rwa [← Option.some.inj (last.symm.trans isLast)]

theorem of_balanced (balanced : before.Balanced after) : before.Nested after where
  level := fun path _ _ => balanced.levelAt_eq path
  deeper := fun path _ => Nat.le_of_eq (balanced.levelAt_eq path).symm
  margin := fun path apart current => by
    rw [balanced.levelAt_eq path]
    rcases balanced.moved with same | ⟨new, last, missing⟩
    · exact absurd (same.symm.trans current) apart
    · obtain rfl : new = path := Option.some.inj (last.symm.trans current)
      rw [levelAt, missing]
      rfl

end Nested

end Roster

/-- One action that does not move levels by itself. -/
theorem nested_perform {action : Action} (keeps : action.KeepsLevel) {w : Walker}
    (sound : w.roster.Sound) : w.roster.Nested (action.perform w).2.roster := by
  apply Roster.Nested.of_balanced
  cases action with
  | indent => exact keeps.elim
  | unindent => exact keeps.elim
  | addUnit => exact .addUnit sound
  | addImport path => exact (Roster.Steady.addImport sound path).toBalanced
  | nameContract => exact (Roster.Steady.nameContract sound).toBalanced
  | nameFunction => exact (Roster.Steady.nameFunction sound).toBalanced
  | _ => exact .refl w.roster

theorem Walker.Roams.nested {may : Action → Prop} {n : Nat} {v w : Walker}
    (roams : w.Roams may n v) (keeps : ∀ action, may action → action.KeepsLevel)
    (sound : w.roster.Sound) : w.roster.Nested v.roster := by
  induction roams with
  | stay w => exact .refl w.roster
  | @act n w v before action allowed ih =>
    obtain ⟨namings, grown⟩ := before.grown sound
    have still := before.sound sound
    exact (ih sound).trans sound grown (grown_perform action still)
      (nested_perform (keeps action allowed) still)
  | dice before dice ih => exact ih sound
  | @scope m n w v ended inner before entered inside ih inside_ih =>
    obtain ⟨namings, grown⟩ := before.grown sound
    obtain ⟨path, enters⟩ := (before.sound sound).enters entered
    obtain ⟨others, deeper⟩ := inside.grown enters.sound
    have ended := inside.sound enters.sound
    exact (ih sound).trans sound grown ((enters.grown.trans deeper).trans (.unindent ended))
      (.scope enters ended deeper (inside_ih enters.sound))

/-- **A member scope undoes its indentation exactly if its unit is still current** when the body
has ended, for every body that does not move levels but by member scopes of its own. Then the
scope comes to what its body came to, and no other unit is changed by leaving it. If another
unit has become current, the level of the old one stays raised, and a body that succeeded is
refused, as the new unit is at the margin.

A roster is sound wherever a script can get (`Script.Reached.sound`). -/
theorem level_of_within {α : Type} {w : Walker} (sound : w.roster.Sound) {path : String}
    (current : w.roster.current = some path) (body : Walker → Except Error α × Walker)
    (roams : Walker.Roaming Action.KeepsLevel
      { w with roster := w.roster.indent.2, scope := .member }
      (body { w with roster := w.roster.indent.2, scope := .member }).2) :
    let ended := body { w with roster := w.roster.indent.2, scope := .member }
    let left := within body w
    ((left.2.roster.levelAt path = w.roster.levelAt path ∧
      (∀ other, other ≠ path → left.2.roster.unit? other = ended.2.roster.unit? other) ∧
        left.1 = ended.1) ↔ ended.2.roster.current = some path) ∧
      (ended.2.roster.current ≠ some path → ∃ new, ended.2.roster.current = some new ∧
        left.2.roster = ended.2.roster ∧ w.roster.levelAt path < left.2.roster.levelAt path ∧
          left.1 = settle ended.1 (.error (.atMargin new))) := by
  obtain ⟨n, roams⟩ := roams
  obtain ⟨none, -⟩ | ⟨path', inner, enters⟩ := sound.enters_cases
  · cases none.symm.trans current
  obtain rfl : path' = path := Option.some.inj (enters.outer.symm.trans current)
  have came := within_of_entered body enters.indent
  rw [enters.indent] at roams ⊢
  intro ended left
  have endedSound : ended.2.roster.Sound := roams.sound enters.sound
  obtain ⟨namings, grown⟩ := roams.grown enters.sound
  have nested := roams.nested (fun _ => id) enters.sound
  have result : left.1 = settle ended.1 ended.2.roster.unindent.1 := congrArg Prod.fst came
  have after : left.2.roster = ended.2.roster.unindent.2 := congrArg (·.2.roster) came
  rw [result, after]
  rcases Roster.Nested.leave enters endedSound grown nested with
    ⟨still, done, -, level, others⟩ | ⟨new, last, apart, -, refused, deep⟩
  · refine ⟨⟨fun _ => still, fun _ => ⟨level, others, ?_⟩⟩, fun moved => absurd still moved⟩
    rw [done]
    cases ended.1 <;> rfl
  · rw [refused]
    refine ⟨⟨fun kept => ?_, fun still => ?_⟩, fun _ => ⟨new, last, rfl, deep, rfl⟩⟩
    · exact absurd kept.1 (Nat.ne_of_gt deep)
    · exact absurd (Option.some.inj (last.symm.trans still)) apart

/-- A test case inside a member scope of the second unit adds a third one. -/
theorem level_of_within_testCase :
    let g := (Grammar.setup {} { units := 1, imports := 0 }).2
    let w : Walker := ⟨.ofSeed 5, (Roster.addUnit (Roster.addUnit {}).2).2, .free⟩
    let inside : Walker := { w with roster := w.roster.indent.2, scope := .member }
    let ended := g.testCase.run inside
    let left := within g.testCase.run w
    (w.roster.Sound ∧ w.roster.current = some "su1.sol" ∧
      Walker.Roaming Action.KeepsLevel inside ended.2) ∧
      ((left.2.roster.levelAt "su1.sol" = w.roster.levelAt "su1.sol" ∧
        (∀ other, other ≠ "su1.sol" → left.2.roster.unit? other = ended.2.roster.unit? other) ∧
          left.1 = ended.1) ↔ ended.2.roster.current = some "su1.sol") ∧
        ended.2.roster.current = some "su2.sol" ∧ left.2.roster = ended.2.roster ∧
          w.roster.levelAt "su1.sol" < left.2.roster.levelAt "su1.sol" ∧
            left.1 = settle ended.1 (.error (.atMargin "su2.sol")) := by
  intro g w inside ended left
  have sound : w.roster.Sound := Roster.Sound.empty.addUnit.addUnit
  have current : w.roster.current = some "su1.sol" := by decide
  have roams : Walker.Roaming Action.KeepsLevel inside ended.2 :=
    roaming_expand (fun _ plain => plain.2) g .testCase inside
  have moved : ended.2.roster.current = some "su2.sol" := by decide +kernel
  have apart : ended.2.roster.current ≠ some "su1.sol" := moved ▸ by decide
  obtain ⟨undone, raised⟩ := level_of_within sound current g.testCase.run roams
  obtain ⟨new, same, left, level, result⟩ := raised apart
  obtain rfl : "su2.sol" = new := Option.some.inj (moved.symm.trans same)
  exact ⟨⟨sound, current, roams⟩, undone, moved, left, level, result⟩

/-- A body that adds a unit succeeds by itself, and its scope is refused. -/
theorem level_raised_by_member_scope :
    let w : Walker := ⟨.ofSeed 5, (Roster.addUnit {}).2, .free⟩
    let left := (memberScope Walk.addUnit).run w
    (Walk.addUnit.run w).1 = .ok "su1.sol" ∧ left.1 = .error (.atMargin "su1.sol") ∧
      w.roster.levelAt "su0.sol" = 0 ∧ left.2.roster.levelAt "su0.sol" = 1 := by
  decide +kernel

end SeedGrammar
