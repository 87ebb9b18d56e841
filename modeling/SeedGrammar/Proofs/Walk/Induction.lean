/-
# SeedGrammar.Proofs.Walk.Induction — induction over expansions

An expansion is made of steps, draws and descents into the children that are wired, one after
another, and a contract has a member scope around its descent. So there is an induction for
properties of walks: one that sequences keep and that draws have (`Walk.Compositional`) holds
of descents if it holds of the parts, and one that the steps have as well (`Walk.Stepwise`)
holds of every expansion. The productions are gone through here, once for all properties.

Two things depend on the property and are asked for on their own. A member scope may need
more of its body than the property, or come to something else than its body; and what adds
a unit leaves the one that was current. Productions inside a unit need no more than the
member scope (`Stepwise.expand_inside`), all of them need both (`Stepwise.expand`).

Draws are from words. Weights and the batches of short lists see to that.
-/
import SeedGrammar.Grammar.Expansion
import SeedGrammar.Proofs.Random.Batches

namespace SeedGrammar

set_option autoImplicit false

theorem Grammar.length_children_lt (g : Grammar) (p : Production) :
    (g.children p).length < UInt32.size := by
  cases p with
  | testCase => cases wired : g.units <;> simp [children, wired, UInt32.size]
  | sourceUnit => cases wired : g.items <;> simp [children, unitChildren, wired, UInt32.size]
  | contract => cases wired : g.members <;> simp [children, wired, UInt32.size]
  | pragmaBlock => simp [children, UInt32.size]
  | importDirective => simp [children, UInt32.size]
  | function => simp [children, UInt32.size]

namespace Walk

/-- A property that sequences keep, and that draws from words have. -/
structure Compositional (P : ∀ {α : Type}, Walk α → Prop) : Prop where
  pure : ∀ {α : Type} (value : α), P (Pure.pure value : Walk α)
  bind : ∀ {α β : Type} {walk : Walk α} {next : α → Walk β},
    P walk → (∀ value, P (next value)) → P (walk >>= next)
  roll : ∀ {sides : Positive}, sides.val < UInt32.size → P (Walk.roll sides)
  flip : P Walk.flip

/-- The steps that are taken inside a unit have the property as well. -/
structure Stepwise (P : ∀ {α : Type}, Walk α → Prop) : Prop extends Compositional @P where
  expanding : ∀ p, P (Walk.expanding p)
  survey : P Walk.survey
  scope : P Walk.scope
  level : P Walk.level
  otherPath : P Walk.otherPath
  addImport : ∀ path, P (Walk.addImport path)
  nameContract : P Walk.nameContract
  nameFunction : P Walk.nameFunction

variable {P : ∀ {α : Type}, Walk α → Prop}

namespace Compositional

variable {α : Type} (composes : Compositional @P)

include composes

/-! ## Draws -/

theorem uniform {n : Positive} (word : n.val < UInt32.size) : P (Walk.uniform n) :=
  composes.bind (composes.roll word) fun _ => composes.pure _

theorem likely {n : Positive} (word : n.val < UInt32.size) : P (Walk.likely n) :=
  composes.bind (composes.uniform word) fun _ => composes.pure _

theorem subset (xs : List α) : P (Walk.subset xs) := by
  induction xs with
  | nil => exact composes.pure _
  | cons x xs ih =>
    exact composes.bind composes.flip fun kept => composes.bind ih fun rest => composes.pure _

theorem rollEach {sides : List Positive} (words : ∀ n ∈ sides, n.val < UInt32.size) :
    P (Walk.rollEach sides) := by
  induction sides with
  | nil => exact composes.pure _
  | cons n sides ih =>
    refine composes.bind (composes.roll (words n (by simp))) fun draw => ?_
    refine composes.bind (ih fun m member => words m (by simp [member])) fun draws => ?_
    exact composes.pure _

theorem choose {xs : List α} (nonempty : 0 < xs.length) (word : xs.length < UInt32.size) :
    P (Walk.choose xs nonempty) :=
  composes.bind (composes.roll word) fun _ => composes.pure _

/-! ## Descents -/

theorem repeated {walk : Walk (List Line)} (each : P walk) (n : Nat) : P (walk.repeated n) := by
  induction n with
  | zero => exact composes.pure _
  | succ n ih =>
    exact composes.bind each fun first => composes.bind ih fun rest => composes.pure _

theorem take {offer : Offer} (each : P offer.expansion) : P offer.take := by
  have room := offer.weight.property.2
  refine composes.bind (composes.likely room) fun included => ?_
  cases included with
  | false => exact composes.pure _
  | true =>
    exact composes.bind (composes.uniform (Nat.lt_of_succ_lt room)) fun n =>
      composes.repeated each n

theorem takeEach {offers : List Offer} (each : ∀ offer ∈ offers, P offer.expansion) :
    P (Offer.takeEach offers) := by
  induction offers with
  | nil => exact composes.pure _
  | cons offer offers ih =>
    refine composes.bind (composes.take (each offer (by simp))) fun first => ?_
    refine composes.bind (ih fun other member => each other (by simp [member])) fun rest => ?_
    exact composes.pure _

/-- Whatever order the draws put the parts in. -/
theorem descend {offers : List Offer}
    (draws : P (Walk.rollEach ((Shuffle.batches offers.length).map Shuffle.Batch.sides)))
    (each : ∀ offer ∈ offers, P offer.expansion) : P (SeedGrammar.descend offers) := by
  unfold SeedGrammar.descend Walk.shuffle
  rw [bind_assoc]
  refine composes.bind draws fun draws => composes.takeEach fun offer member => ?_
  exact each offer ((Shuffle.permute_perm offers draws).mem_iff.1 member)

theorem descend_offers {g : Grammar} {children : List Child}
    (draws : P (Walk.rollEach ((Shuffle.batches children.length).map Shuffle.Batch.sides)))
    (each : ∀ child ∈ children, P (g.expand child.production)) :
    P (SeedGrammar.descend (g.offers children)) := by
  refine composes.descend (by simpa [Grammar.offers] using draws) fun offer member => ?_
  obtain ⟨child, declared, rfl⟩ := List.mem_map.1 member
  exact each child declared

/-- No production has more children than a word can count. -/
theorem descend_children (g : Grammar) {p : Production}
    (each : ∀ child ∈ g.children p, P (g.expand child.production)) :
    P (SeedGrammar.descend (g.offers (g.children p))) :=
  composes.descend_offers
    (composes.rollEach (Shuffle.sides_lt_of_mem_batches (g.length_children_lt p))) each

end Compositional

namespace Stepwise

variable (steps : Stepwise @P)

include steps

/-! ## Productions without parts -/

theorem function : P Expansion.function := by
  refine steps.bind (steps.expanding _) fun _ => ?_
  refine steps.bind steps.nameFunction fun name => ?_
  refine steps.bind steps.level fun level => ?_
  exact steps.bind steps.scope fun scope => steps.pure _

theorem importDirective : P Expansion.importDirective := by
  refine steps.bind (steps.expanding _) fun _ => ?_
  refine steps.bind steps.survey fun (roster : Roster) => ?_
  by_cases few : roster.size < 2
  · rw [if_pos few]
    exact steps.pure _
  · rw [if_neg few]
    refine steps.bind steps.otherPath fun path => ?_
    refine steps.bind (steps.addImport path) fun isNew => ?_
    cases isNew with
    | false => exact steps.pure _
    | true => exact steps.pure _

theorem pragmaBlock : P Expansion.pragmaBlock := by
  refine steps.bind (steps.expanding _) fun _ => ?_
  refine steps.bind (steps.subset _) fun generic => ?_
  exact steps.bind (steps.choose _ (by decide)) fun coder => steps.pure _

/-! ## Productions with parts -/

variable (g : Grammar)

/-- The members of a contract are functions. -/
theorem members : P (SeedGrammar.descend (g.offers (g.children .contract))) := by
  refine steps.descend_children g fun child declared => ?_
  obtain ⟨weight, -, rfl⟩ := List.mem_map.1 declared
  exact steps.function

/-- Parts of units, if the property holds of the member scope of a contract. -/
theorem expand_inside
    (members : P (memberScope (SeedGrammar.descend (g.offers (g.children .contract)))))
    {p : Production} (inside : p.rank ≤ 1) : P (g.expand p) := by
  rw [g.expand_eq p]
  cases p with
  | testCase => exact absurd inside (by decide)
  | sourceUnit => exact absurd inside (by decide)
  | contract =>
    refine steps.bind (steps.expanding _) fun _ => ?_
    refine steps.bind steps.nameContract fun name => ?_
    refine steps.bind steps.level fun level => ?_
    exact steps.bind members fun body => steps.pure _
  | pragmaBlock => exact steps.pragmaBlock
  | importDirective => exact steps.importDirective
  | function => exact steps.function

/-- **Induction over expansions**, storey by storey: a property of the steps, of what adds a
unit and of the member scope of a contract is one of everything that is expanded. -/
theorem expand (members : P (memberScope (SeedGrammar.descend (g.offers (g.children .contract)))))
    (addUnit : P addUnit) (p : Production) : P (g.expand p) := by
  have sourceUnit : P (g.expand .sourceUnit) := by
    rw [g.expand_eq]
    refine steps.bind (steps.expanding _) fun _ => steps.bind addUnit fun path => ?_
    refine steps.bind (steps.descend_children g fun child declared => ?_) fun body => steps.pure _
    have lower : child.production.rank < 2 := Grammar.rank_lt_of_mem_children declared
    exact steps.expand_inside g members (by omega)
  cases p with
  | testCase =>
    rw [g.expand_eq]
    refine steps.bind (steps.expanding _) fun _ => steps.descend_children g fun child declared => ?_
    obtain ⟨weight, -, rfl⟩ := List.mem_map.1 declared
    exact sourceUnit
  | sourceUnit => exact sourceUnit
  | contract => exact steps.expand_inside g members (by decide)
  | pragmaBlock => exact steps.pragmaBlock
  | importDirective => exact steps.importDirective
  | function => exact steps.function

end Stepwise

end Walk

end SeedGrammar
