/-
# SeedGrammar.Proofs.Grammar.Extent — how deep and how far expansions go

An expansion calls for expansions of the children that are wired, whichever they are, and
each of these for its own. Nothing in this bounds the calls but the storeys: children stand
on a lower one than their parent, however a grammar was wired. So calls are never nested
deeper than the storey of the production they start from (`Grammar.expandTo_eq`).

`walk.ExpandsAtMost n` bounds how many productions a walk expands, from any walker and also
if it is refused. There is one rule for each way to build a walk; in a descent each child
counts as often as its weight allows (`expandsAtMost_descend`). Storey by storey this gives
a bound for every production (`Grammar.expandsAtMost_most`).
-/
import SeedGrammar.Proofs.Grammar.Calls
import SeedGrammar.Proofs.Grammar.Descent

namespace SeedGrammar

set_option autoImplicit false

open Walk

/-! ## Calls nested to some depth -/

namespace Grammar

variable (g : Grammar)

/-- One expansion, where `inner` expands the children that it calls for. -/
def expandWith (inner : Production → Walk (List Line)) (p : Production) : Walk (List Line) :=
  let body := descend ((g.children p).map fun child => ⟨child.weight, inner child.production⟩)
  match p with
  | .testCase => do
    expanding .testCase
    body
  | .sourceUnit => do
    expanding .sourceUnit
    let path ← addUnit
    return .header path :: (← body)
  | .contract => do
    expanding .contract
    let name ← nameContract
    let level ← level
    return .opening level name :: (← memberScope body) ++ [.closing level]
  | .pragmaBlock => Expansion.pragmaBlock
  | .importDirective => Expansion.importDirective
  | .function => Expansion.function

/-- Calls nested no deeper than `depth`, and `beyond` in place of those that would be. -/
def expandTo (beyond : Production → Walk (List Line)) : Nat → Production → Walk (List Line)
  | 0 => beyond
  | depth + 1 => g.expandWith (expandTo beyond depth)

theorem expandWith_expand (p : Production) : g.expandWith g.expand p = g.expand p := by
  rw [g.expand_eq p]
  cases p <;> rfl

/-- Only the children of the production are called for. -/
theorem expandWith_congr {inner other : Production → Walk (List Line)} {p : Production}
    (same : ∀ child ∈ g.children p, inner child.production = other child.production) :
    g.expandWith inner p = g.expandWith other p := by
  have parts : ((g.children p).map fun child => Offer.mk child.weight (inner child.production)) =
      (g.children p).map fun child => ⟨child.weight, other child.production⟩ :=
    List.map_congr_left fun child declared => by rw [same child declared]
  unfold expandWith
  rw [parts]

/-- Calls are nested no deeper than the storey that they start from, so what would happen
beyond it does not matter. -/
theorem expandTo_eq (beyond : Production → Walk (List Line)) {depth : Nat} {p : Production}
    (deep : p.rank < depth) : g.expandTo beyond depth p = g.expand p := by
  induction depth generalizing p with
  | zero => exact absurd deep (Nat.not_lt_zero _)
  | succ depth ih =>
    rw [expandTo, ← expandWith_expand]
    -- a child stands lower, so that one storey less is deep enough for it
    apply expandWith_congr
    intro child declared
    have lower : child.production.rank < p.rank := rank_lt_of_mem_children declared
    exact ih (by omega)

end Grammar

/-! ## Counting expansions -/

namespace Walk

variable {α β : Type} {m n : Nat}

/-- No more than `n` productions are expanded along the walk, whoever walks it. -/
def ExpandsAtMost (walk : Walk α) (n : Nat) : Prop :=
  ∀ w, walk.expansions w ≤ n

theorem expansions_bind (walk : Walk α) (next : α → Walk β) (w : Walker) :
    (walk >>= next).expansions w =
      walk.expansions w +
        match walk.run w with
        | (.ok value, w) => (next value).expansions w
        | (.error _, _) => 0 := by
  unfold expansions
  rw [trail_bind, List.countP_append]
  rcases walk.run w with ⟨_ | _, _⟩ <;> rfl

namespace ExpandsAtMost

theorem mono {walk : Walk α} (bound : walk.ExpandsAtMost m) (le : m ≤ n) : walk.ExpandsAtMost n :=
  fun w => Nat.le_trans (bound w) le

theorem pure (value : α) : (Pure.pure value : Walk α).ExpandsAtMost 0 :=
  fun _ => Nat.le_refl 0

theorem refuse (e : Error) : (Walk.refuse e : Walk α).ExpandsAtMost 0 :=
  fun _ => Nat.le_refl 0

theorem ofExcept (result : Except Error α) : (Walk.ofExcept result).ExpandsAtMost 0 := by
  cases result with
  | ok value => exact pure value
  | error e => exact refuse e

/-- The second part may depend on the value of the first. -/
theorem bind {walk : Walk α} {next : α → Walk β} (first : walk.ExpandsAtMost m)
    (rest : ∀ value, (next value).ExpandsAtMost n) : (walk >>= next).ExpandsAtMost (m + n) := by
  intro w
  have here := first w
  rw [expansions_bind]
  rcases walk.run w with ⟨e | value, w'⟩
  · show walk.expansions w + 0 ≤ m + n
    omega
  · have later := rest value w'
    show walk.expansions w + (next value).expansions w' ≤ m + n
    omega

/-- As for `bind`, with a first part that expands nothing. -/
theorem after {walk : Walk α} {next : α → Walk β} (silent : walk.ExpandsAtMost 0)
    (rest : ∀ value, (next value).ExpandsAtMost n) : (walk >>= next).ExpandsAtMost n :=
  (silent.bind rest).mono (Nat.le_of_eq (Nat.zero_add n))

/-- What is drawn may be any possible value, and nothing is expanded by it. -/
theorem drawn {walk : Walk α} {possible : α → Prop} {next : α → Walk β}
    (draws : walk.Draws possible) (silent : walk.ExpandsAtMost 0)
    (rest : ∀ value, possible value → (next value).ExpandsAtMost n) :
    (walk >>= next).ExpandsAtMost n := by
  intro w
  obtain ⟨value, dice, ran, holds⟩ := draws.exists_run w
  have here := silent w
  have later := rest value holds { w with dice }
  rw [expansions_bind, ran]
  show walk.expansions w + (next value).expansions { w with dice } ≤ n
  omega

theorem attempt {walk : Walk α} (bound : walk.ExpandsAtMost n) : walk.attempt.ExpandsAtMost n := by
  intro w
  unfold expansions
  rw [trail_attempt]
  exact bound w

/-! ### Steps that expand nothing -/

theorem act (action : Action) {next : action.Answer → Walk α} (other : ∀ p, action ≠ .expanding p)
    (rest : ∀ answer, (next answer).ExpandsAtMost n) : (Walk.act action next).ExpandsAtMost n := by
  intro w
  have later := rest (action.perform w).1 (action.perform w).2
  unfold expansions at *
  rw [trail, List.countP_cons_of_neg]
  · exact later
  · cases action with
    | expanding p => exact absurd rfl (other p)
    | _ => exact Bool.false_ne_true

theorem expanding (p : Production) : (Walk.expanding p).ExpandsAtMost 1 :=
  fun _ => Nat.le_refl 1

theorem survey : Walk.survey.ExpandsAtMost 0 :=
  act .survey (by simp) pure

theorem level : Walk.level.ExpandsAtMost 0 :=
  survey.after fun _ => ofExcept _

theorem roll (sides : Positive) : (Walk.roll sides).ExpandsAtMost 0 :=
  act (.roll sides) (by simp) pure

theorem uniform (n : Positive) : (Walk.uniform n).ExpandsAtMost 0 :=
  (roll n).after fun _ => pure _

theorem likely (n : Positive) : (Walk.likely n).ExpandsAtMost 0 :=
  (uniform n).after fun _ => pure _

theorem subset (xs : List α) : (Walk.subset xs).ExpandsAtMost 0 := by
  induction xs with
  | nil => exact pure _
  | cons x xs ih => exact (act .flip (by simp) pure).after fun _ => ih.after fun _ => pure _

theorem rollEach (sides : List Positive) : (Walk.rollEach sides).ExpandsAtMost 0 := by
  induction sides with
  | nil => exact pure _
  | cons n sides ih => exact (roll n).after fun _ => ih.after fun _ => pure _

theorem shuffle (xs : List α) : (Walk.shuffle xs).ExpandsAtMost 0 :=
  (rollEach _).after fun _ => pure _

theorem choose (xs : List α) (nonempty : 0 < xs.length) :
    (Walk.choose xs nonempty).ExpandsAtMost 0 :=
  (roll _).after fun _ => pure _

theorem choosePath (required : Nat) (paths : List String) :
    (Walk.choosePath required paths).ExpandsAtMost 0 := by
  unfold Walk.choosePath
  split
  · exact choose paths _
  · exact refuse _

theorem otherPath : Walk.otherPath.ExpandsAtMost 0 := by
  refine survey.after fun roster => ?_
  split
  · exact refuse _
  · exact (ofExcept _).after fun _ => choosePath 2 _

/-- The steps in and out of the scope expand nothing. -/
theorem memberScope {body : Walk α} (inside : body.ExpandsAtMost n) :
    (Walk.memberScope body).ExpandsAtMost n := by
  have enters : enterMembers.ExpandsAtMost 0 :=
    (act .indent (by simp) ofExcept).after fun _ => act (.setScope .member) (by simp) pure
  have leaves : leaveMembers.ExpandsAtMost 0 :=
    (act (.setScope .free) (by simp) pure).after fun _ => act .unindent (by simp) ofExcept
  refine enters.after fun _ => ?_
  exact inside.attempt.bind fun _ => leaves.attempt.after fun _ => ofExcept _

/-! ### Descents -/

theorem repeated {walk : Walk (List Line)} (each : walk.ExpandsAtMost m) (n : Nat) :
    (walk.repeated n).ExpandsAtMost (n * m) := by
  induction n with
  | zero => exact (pure _).mono (Nat.zero_le _)
  | succ n ih =>
    refine (each.bind fun _ => ih.bind fun _ => pure _).mono ?_
    rw [Nat.succ_mul]
    omega

theorem take {offer : Offer} (each : offer.expansion.ExpandsAtMost m) :
    offer.take.ExpandsAtMost (offer.weight.val * m) := by
  refine (likely _).after fun included => ?_
  cases included with
  | false => exact (pure _).mono (Nat.zero_le _)
  | true =>
    refine drawn (draws_uniform _) (uniform _) fun n range => ?_
    exact (each.repeated n).mono (Nat.mul_le_mul_right m range.2)

end ExpandsAtMost

theorem expandsAtMost_takeEach {g : Grammar} {cost : Production → Nat} {children : List Child}
    (each : ∀ child ∈ children, (g.expand child.production).ExpandsAtMost (cost child.production)) :
    (Offer.takeEach (g.offers children)).ExpandsAtMost (totalCost cost children) := by
  induction children with
  | nil => exact .pure _
  | cons child children ih =>
    refine ExpandsAtMost.bind (ExpandsAtMost.take (each child (by simp))) fun first => ?_
    exact (ih fun other member => each other (by simp [member])).bind fun rest => .pure _

/-- In whatever order the children are taken. -/
theorem expandsAtMost_descend {g : Grammar} {cost : Production → Nat} {children : List Child}
    (each : ∀ child ∈ children, (g.expand child.production).ExpandsAtMost (cost child.production)) :
    (descend (g.offers children)).ExpandsAtMost (totalCost cost children) := by
  rw [descend_offers]
  refine ExpandsAtMost.drawn (draws_shuffle children) (.shuffle children) fun order perm => ?_
  rw [← totalCost_perm cost perm]
  exact expandsAtMost_takeEach fun child member => each child (perm.mem_iff.1 member)

end Walk

/-! ## Storey by storey -/

namespace Grammar

variable (g : Grammar)

/-- An expansion is one, and what its children come to. -/
theorem expandsAtMost_of_children {cost : Production → Nat} {p : Production}
    (each : ∀ child ∈ g.children p,
      (g.expand child.production).ExpandsAtMost (cost child.production)) :
    (g.expand p).ExpandsAtMost (1 + totalCost cost (g.children p)) := by
  have body := expandsAtMost_descend each
  rw [g.expand_eq p]
  cases p with
  | testCase => exact (ExpandsAtMost.expanding _).bind fun _ => body
  | sourceUnit =>
    refine (ExpandsAtMost.expanding _).bind fun _ => ?_
    refine ExpandsAtMost.after (.act .addUnit (by simp) .pure) fun path => ?_
    exact body.bind fun _ => .pure _
  | contract =>
    refine (ExpandsAtMost.expanding _).bind fun _ => ?_
    refine ExpandsAtMost.after (.act .nameContract (by simp) .ofExcept) fun name => ?_
    refine ExpandsAtMost.level.after fun level => ?_
    exact body.memberScope.bind fun _ => .pure _
  | pragmaBlock =>
    refine (ExpandsAtMost.expanding _).bind fun _ => ?_
    refine (ExpandsAtMost.subset _).after fun generic => ?_
    exact (ExpandsAtMost.choose _ _).after fun coder => .pure _
  | importDirective =>
    refine (ExpandsAtMost.expanding _).bind fun _ => ?_
    refine ExpandsAtMost.survey.after fun roster => ?_
    split
    · exact .pure _
    · refine ExpandsAtMost.otherPath.after fun path => ?_
      refine ExpandsAtMost.after (.act (.addImport path) (by simp) .ofExcept) fun isNew => ?_
      split
      · exact .pure _
      · exact .pure _
  | function =>
    refine (ExpandsAtMost.expanding _).bind fun _ => ?_
    refine ExpandsAtMost.after (.act .nameFunction (by simp) .ofExcept) fun name => ?_
    refine ExpandsAtMost.level.after fun level => ?_
    exact ExpandsAtMost.after (.act .scope (by simp) .pure) fun scope => .pure _

/-- The most expansions that one of a production can come to, calls nested to some depth. -/
def most : Nat → Production → Nat
  | 0, _ => 0
  | depth + 1, p => 1 + totalCost (most depth) (g.children p)

theorem expandsAtMost_most {depth : Nat} {p : Production} (deep : p.rank < depth) :
    (g.expand p).ExpandsAtMost (g.most depth p) := by
  induction depth generalizing p with
  | zero => exact absurd deep (Nat.not_lt_zero _)
  | succ depth ih =>
    apply expandsAtMost_of_children
    intro child declared
    have lower : child.production.rank < p.rank := rank_lt_of_mem_children declared
    exact ih (by omega)

/-- How often a child may be repeated under a parent; not at all if it was never wired. -/
def weightOf (parent child : Production) : Nat :=
  (((g.children parent).find? (·.production = child)).map (·.weight.val)).getD 0

/-- The unit itself, its pragmas and its contract, and what is repeated in it. -/
theorem most_sourceUnit :
    g.most 3 .sourceUnit ≤ 3 + g.weightOf .sourceUnit .importDirective +
      g.weightOf .contract .function + g.weightOf .sourceUnit .function := by
  cases items : g.items <;> cases members : g.members <;>
    simp [most, totalCost, children, unitChildren, weightOf, Weight.once, items, members] <;> omega

theorem most_testCase :
    g.most 4 .testCase ≤
      1 + g.weightOf .testCase .sourceUnit * (3 + g.weightOf .sourceUnit .importDirective +
        g.weightOf .contract .function + g.weightOf .sourceUnit .function) := by
  have units :
      g.most 4 .testCase = 1 + g.weightOf .testCase .sourceUnit * g.most 3 .sourceUnit := by
    cases wired : g.units <;> simp [most, totalCost, children, weightOf, wired]
  rw [units]
  exact Nat.add_le_add_left (Nat.mul_le_mul_left _ g.most_sourceUnit) 1

end Grammar

/-- **Every expansion comes to an end.** However a grammar was wired, children stand on a
lower storey than their parent. So calls for expansions are never nested deeper than the
storeys reach: whatever would happen beyond that depth, it does not happen. And a test case
comes to no more expansions than itself and, for each of its units, the unit, its pragmas
and its contract with all that may be repeated in them. -/
theorem expansions_end (g : Grammar) :
    (∀ (p : Production), ∀ child ∈ g.children p, child.production.rank < p.rank) ∧
      (∀ (beyond : Production → Walk (List Line)) (p : Production) (depth : Nat), p.rank < depth →
        g.expandTo beyond depth p = g.expand p) ∧
      ∀ w, (g.expand .testCase).expansions w ≤
        1 + g.weightOf .testCase .sourceUnit * (3 + g.weightOf .sourceUnit .importDirective +
          g.weightOf .contract .function + g.weightOf .sourceUnit .function) := by
  refine ⟨fun p child => Grammar.rank_lt_of_mem_children, fun beyond p depth => ?_, fun w => ?_⟩
  · exact g.expandTo_eq beyond
  · exact Nat.le_trans (g.expandsAtMost_most (by decide) w) g.most_testCase

/-- In a grammar whose units were wired anew and whose other storeys were not, since the
free functions were refused. -/
theorem expansions_end_of_mixture :
    let g := (({} : Grammar).setupEach [{ members := 7 }, { units := 5, freeFunctions := 0 }]).2
    let unit : Child := ⟨.sourceUnit, 5, by decide⟩
    let stuck : Production → Walk (List Line) := fun _ => refuse .noUnit
    (unit ∈ g.children .testCase ∧ unit.production.rank < Production.testCase.rank) ∧
      (Production.testCase.rank < 4 ∧ g.expandTo stuck 4 .testCase = g.expand .testCase) ∧
      ∀ w, (g.expand .testCase).expansions w ≤ 71 := by
  intro g unit stuck
  have ends := expansions_end g
  have declared : unit ∈ g.children .testCase := by decide
  exact ⟨⟨declared, ends.1 _ unit declared⟩, ⟨by decide, ends.2.1 stuck _ 4 (by decide)⟩, ends.2.2⟩

end SeedGrammar
