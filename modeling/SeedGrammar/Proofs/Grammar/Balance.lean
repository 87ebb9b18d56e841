/-
# SeedGrammar.Proofs.Grammar.Balance — expansions leave levels as they found them

Whatever is expanded or descended into, from wherever and whatever the dice show, the
walker ends with its units at their old levels, new units at the margin, and functions
free where they were free (`Walker.Settled`). This does not depend on whether the walk is
refused.

Every step but those of a member scope keeps the levels by itself, and induction over
expansions carries them along. The scope of a contract is the one place where a level is
raised, and its members cannot leave the unit that they are in (`keeps_members`), so the
level is lowered again where it was raised. Three relations between rosters say more and
more of the productions: `Balanced` of all, `Steady` of those inside a unit, `Intact` of
those that add units.
-/
import SeedGrammar.Proofs.Walk.Keeping

namespace SeedGrammar

set_option autoImplicit false

open Walk

/-! ## Ends of walks -/

/-- Functions are free at the end where they were at the start, and the rosters are in a
relation. -/
structure Walker.Ends (Q : Roster → Roster → Prop) (w w' : Walker) : Prop where
  free : w.scope = .free → w'.scope = .free
  sound : w.roster.Sound → w'.roster.Sound
  roster : w.roster.Sound → Q w.roster w'.roster

theorem Walker.Ends.mono {Q Q' : Roster → Roster → Prop}
    (implies : ∀ before after, Q before after → Q' before after) {w w' : Walker}
    (ends : w.Ends Q w') : w.Ends Q' w' where
  free := ends.free
  sound := ends.sound
  roster := fun sound => implies _ _ (ends.roster sound)

section Relations

variable {α : Type} {Q : Roster → Roster → Prop}

theorem lasting_ends (refl : ∀ roster, Q roster roster)
    (trans : ∀ {a b c}, Q a b → Q b c → Q a c) : Lasting (Walker.Ends Q) where
  dice := fun w _ => ⟨id, id, fun _ => refl w.roster⟩
  trans := fun first second => {
    free := fun free => second.free (first.free free)
    sound := fun sound => second.sound (first.sound sound)
    roster := fun sound => trans (first.roster sound) (second.roster (first.sound sound)) }

theorem lasting_balanced : Lasting (Walker.Ends Roster.Balanced) :=
  lasting_ends .refl .trans

theorem lasting_steady : Lasting (Walker.Ends Roster.Steady) :=
  lasting_ends .refl .trans

theorem lasting_intact : Lasting (Walker.Ends Roster.Intact) :=
  lasting_ends .refl .trans

/-- A walk that carries out one operation on the roster. -/
theorem keeps_operation {walk : Walk α} (operation : Roster → Except Error α × Roster)
    (runs : ∀ w, walk.run w = ((operation w.roster).1, { w with roster := (operation w.roster).2 }))
    (related : ∀ roster : Roster, roster.Sound → Q roster (operation roster).2) :
    walk.Keeps (Walker.Ends Q) := by
  intro w
  have sound := fun start : w.roster.Sound => walk.sound_run start
  rw [runs] at sound ⊢
  exact ⟨id, sound, related w.roster⟩

end Relations

/-! ## Inside a unit -/

theorem stepwise_steady : Stepwise fun {_} walk => walk.Keeps (Walker.Ends Roster.Steady) :=
  lasting_steady.stepwise
    (fun path => keeps_operation (Roster.addImport · path) (fun _ => run_ofExcept _ _)
      fun _ sound => .addImport sound path)
    (keeps_operation Roster.nameContract (fun _ => run_ofExcept _ _) fun _ => .nameContract)
    (keeps_operation Roster.nameFunction (fun _ => run_ofExcept _ _) fun _ => .nameFunction)

/-- A member scope lowers the level that it raised, if its body stays in the unit.
Functions are free after the scope, or as they were if it was not entered. -/
theorem keeps_memberScope {α : Type} {body : Walk α}
    (inside : body.Keeps (Walker.Ends Roster.Steady)) :
    (memberScope body).Keeps (Walker.Ends Roster.Steady) := by
  intro w
  have sound := fun start : w.roster.Sound => (memberScope body).sound_run start
  rw [run_memberScope_eq_within] at sound ⊢
  rcases within_cases body.run w with ⟨e, refused⟩ | ⟨inner, result, ended, entered, ran, left⟩
  · rw [refused]
    exact lasting_steady.refl w
  · rw [left] at sound ⊢
    refine ⟨fun _ => rfl, sound, fun start => ?_⟩
    have within := inside { w with roster := inner, scope := .member }
    rw [ran] at within
    have innerSound : inner.Sound := by
      have entering := start.indent.sound
      rwa [entered] at entering
    exact (Roster.Steady.inside start entered (within.roster innerSound)).2

/-- The members of a contract do not leave its unit. -/
theorem keeps_members (g : Grammar) :
    (memberScope (descend (g.offers (g.children .contract)))).Keeps (Walker.Ends Roster.Steady) :=
  keeps_memberScope (stepwise_steady.members g)

/-- Productions that a unit is made of do not leave it. -/
theorem keeps_expand_inside (g : Grammar) {p : Production} (inside : p.rank ≤ 1) :
    (g.expand p).Keeps (Walker.Ends Roster.Steady) :=
  stepwise_steady.expand_inside g (keeps_members g) inside

/-! ## Whatever is expanded -/

theorem Walk.Keeps.toBalanced {α : Type} {walk : Walk α}
    (keeps : walk.Keeps (Walker.Ends Roster.Steady)) :
    walk.Keeps (Walker.Ends Roster.Balanced) :=
  keeps.mono fun _ _ => Walker.Ends.mono fun _ _ steady => steady.toBalanced

theorem stepwise_balanced : Stepwise fun {_} walk => walk.Keeps (Walker.Ends Roster.Balanced) :=
  lasting_balanced.stepwise (fun path => (stepwise_steady.addImport path).toBalanced)
    stepwise_steady.nameContract.toBalanced stepwise_steady.nameFunction.toBalanced

theorem keeps_addUnit : addUnit.Keeps (Walker.Ends Roster.Balanced) :=
  fun _ => ⟨id, fun sound => sound.addUnit, .addUnit⟩

theorem keeps_expand (g : Grammar) (p : Production) :
    (g.expand p).Keeps (Walker.Ends Roster.Balanced) :=
  stepwise_balanced.expand g (keeps_members g).toBalanced keeps_addUnit p

theorem keeps_descend (g : Grammar) (children : List Child) :
    (descend (g.offers children)).Keeps (Walker.Ends Roster.Balanced) :=
  stepwise_balanced.descend_offers (lasting_balanced.draw (draws_rollEach _)) fun child _ =>
    keeps_expand g child.production

/-! ## Whole units -/

/-- The unit that was current is not the one that is written. -/
theorem keeps_sourceUnit (g : Grammar) :
    (g.expand .sourceUnit).Keeps (Walker.Ends Roster.Intact) := by
  intro w
  have items := keeps_descend g (g.children .sourceUnit)
  have rest := stepwise_balanced.bind items
    (fun body => lasting_balanced.pure (Line.header w.roster.addUnit.1 :: body))
    { w with roster := w.roster.addUnit.2 }
  rw [g.expand_eq]
  exact {
    free := rest.free
    sound := fun sound => rest.sound sound.addUnit
    roster := fun sound => .addUnit sound (rest.roster sound.addUnit) }

/-- Productions that add units leave the others alone. -/
theorem keeps_expand_outside (g : Grammar) {p : Production} (outside : 1 < p.rank) :
    (g.expand p).Keeps (Walker.Ends Roster.Intact) := by
  cases p with
  | testCase =>
    rw [g.expand_eq]
    refine lasting_intact.bind (lasting_intact.expanding _) fun _ => ?_
    refine lasting_intact.compositional.descend_children g fun child declared => ?_
    obtain ⟨weight, -, rfl⟩ := List.mem_map.1 declared
    exact keeps_sourceUnit g
  | sourceUnit => exact keeps_sourceUnit g
  | pragmaBlock => exact absurd outside (by decide)
  | importDirective => exact absurd outside (by decide)
  | contract => exact absurd outside (by decide)
  | function => exact absurd outside (by decide)

/-! ## What has become of a walker -/

/-- What has become of a walker's units and of its scope by the end of a walk. -/
structure Walker.Settled (w w' : Walker) : Prop where
  /-- The unit that was current is at its old level. -/
  level : ∀ path, w.roster.current = some path → ∃ u u', w.roster.unit? path = some u ∧
    w'.roster.unit? path = some u' ∧ u'.level = u.level
  /-- All other units are as they were. -/
  others : ∀ path u, w.roster.current ≠ some path → w.roster.unit? path = some u →
    w'.roster.unit? path = some u
  /-- New units are at the margin. -/
  added : ∀ path u, w.roster.unit? path = none → w'.roster.unit? path = some u → u.level = 0
  /-- Functions are free where they were free. -/
  free : w.scope = .free → w'.scope = .free

theorem Walker.Ends.settled {w w' : Walker} (ends : w.Ends Roster.Balanced w')
    (sound : w.roster.Sound) : w.Settled w' where
  level := fun path current => by
    obtain ⟨u, known⟩ := sound.exists_current current
    obtain ⟨u', found, same⟩ := (ends.roster sound).level known
    exact ⟨u, u', known, found, same⟩
  others := fun _ _ => (ends.roster sound).others
  added := fun _ _ => (ends.roster sound).added
  free := ends.free

/-- **Expansions leave levels as they found them**, and so do descents into any children,
wherever the walk starts, whatever the dice show, and also if it is refused. Units are
written without a change to those before them, and the parts of a unit without leaving it.

A roster is sound wherever a script can get (`Script.Reached.sound`). -/
theorem run_settled (g : Grammar) (w : Walker) (sound : w.roster.Sound) :
    (∀ p, w.Settled ((g.expand p).run w).2) ∧
      (∀ children, w.Settled ((descend (g.offers children)).run w).2) ∧
        (∀ p ∈ [.testCase, .sourceUnit], ∀ path u, w.roster.unit? path = some u →
          ((g.expand p).run w).2.roster.unit? path = some u) ∧
          ∀ p ∈ [.pragmaBlock, .importDirective, .contract, .function],
            ((g.expand p).run w).2.roster.current = w.roster.current := by
  refine ⟨fun p => (keeps_expand g p w).settled sound,
    fun children => (keeps_descend g children w).settled sound, fun p outside path u known => ?_,
    fun p inside => ?_⟩
  · have rank : 1 < p.rank := by
      simp only [List.mem_cons, List.not_mem_nil, or_false] at outside
      rcases outside with rfl | rfl <;> decide
    exact ((keeps_expand_outside g rank w).roster sound).all known
  · have rank : p.rank ≤ 1 := by
      simp only [List.mem_cons, List.not_mem_nil, or_false] at inside
      rcases inside with rfl | rfl | rfl | rfl <;> decide
    exact ((keeps_expand_inside g rank w).roster sound).current

/-- From a unit one level deep, behind another one, with functions as members. -/
theorem run_settled_indented :
    let g := (Grammar.setup {} {}).2
    let w : Walker := ⟨.ofSeed 7, (Roster.addUnit (Roster.addUnit {}).2).2.indent.2, .member⟩
    w.roster.Sound ∧ (∀ p, w.Settled ((g.expand p).run w).2) ∧
      (∀ children, w.Settled ((descend (g.offers children)).run w).2) ∧
        (∀ p ∈ [.testCase, .sourceUnit], ∀ path u, w.roster.unit? path = some u →
          ((g.expand p).run w).2.roster.unit? path = some u) ∧
          ∀ p ∈ [.pragmaBlock, .importDirective, .contract, .function],
            ((g.expand p).run w).2.roster.current = w.roster.current := by
  intro g w
  have sound : w.roster.Sound := Roster.Sound.empty.addUnit.addUnit.indent.sound
  exact ⟨sound, run_settled g w sound⟩

end SeedGrammar
