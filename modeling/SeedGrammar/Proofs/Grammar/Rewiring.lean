/-
# SeedGrammar.Proofs.Grammar.Rewiring — a grammar that is wired again and again

Wiring stops at the first weight that is refused, so it may leave a grammar with new
children in the upper storeys and old ones below. What it does to one production depends on
the weights up to its storey alone: if all of them are allowed, the production has exactly
the children that the limits declare, and otherwise those that it had
(`Grammar.children_setup`).

So whatever was wired in a row, each production has the children of the last limits that
reached it (`Grammar.children_setupEach`), and limits that are accepted leave nothing of
what was there before (`wired_by_last_reaching`).
-/
import SeedGrammar.Proofs.Grammar.Wiring

namespace SeedGrammar

set_option autoImplicit false

/-! ## What limits say of one production -/

/-- A positive word, and not the largest one. -/
def IsWeight (n : Nat) : Prop :=
  0 < n ∧ n + 1 < UInt32.size

instance (n : Nat) : Decidable (IsWeight n) :=
  inferInstanceAs (Decidable (_ ∧ _))

/-- What is declared with a child under its parent. -/
def Child.under (parent : Production) (child : Child) : Declaration :=
  ⟨parent, child.production, child.weight.val⟩

namespace Limits

variable (limits : Limits)

/-- The children of a production, in their order. A unit has at most one block of pragmas
and at most one contract, whatever the limits. -/
def declared : Production → List Declaration
  | .testCase => [⟨.testCase, .sourceUnit, limits.units⟩]
  | .sourceUnit =>
    [⟨.sourceUnit, .importDirective, limits.imports⟩, ⟨.sourceUnit, .pragmaBlock, 1⟩,
      ⟨.sourceUnit, .contract, 1⟩, ⟨.sourceUnit, .function, limits.freeFunctions⟩]
  | .contract => [⟨.contract, .function, limits.members⟩]
  | .pragmaBlock => []
  | .importDirective => []
  | .function => []

/-- The weights of the production are allowed, and so are those of the storeys above it,
which are looked at before. -/
def Reaches : Production → Prop
  | .testCase => IsWeight limits.units
  | .sourceUnit => IsWeight limits.units ∧ IsWeight limits.imports ∧ IsWeight limits.freeFunctions
  | _ =>
    IsWeight limits.units ∧ IsWeight limits.imports ∧ IsWeight limits.freeFunctions ∧
      IsWeight limits.members

instance (p : Production) : Decidable (limits.Reaches p) := by
  cases p <;> exact inferInstanceAs (Decidable (_ ∧ _))

theorem accepted_iff_reaches : limits.Accepted ↔ limits.Reaches .contract := by
  simp [Accepted, declarations, Declaration.Allowed, Reaches, IsWeight]

end Limits

/-! ## One more wiring -/

namespace Grammar

theorem declare_of_isWeight {n : Nat} (allowed : IsWeight n) (parent p : Production) :
    Child.declare parent p n = .ok ⟨p, n, allowed⟩ :=
  Declaration.declare_of_allowed (d := ⟨parent, p, n⟩) allowed

theorem exists_declare_error {n : Nat} (refused : ¬ IsWeight n) (parent p : Production) :
    ∃ e, Child.declare parent p n = .error e := by
  rcases Declaration.declare_cases ⟨parent, p, n⟩ with ⟨e, -, answer⟩ | ⟨fine, -⟩
  · exact ⟨e, answer⟩
  · exact absurd ((Declaration.refusal_eq_none_iff _).1 fine) refused

variable (g : Grammar) (limits : Limits)

/-- All that wiring can do to a grammar: nothing, or to put new weights in place of the old
ones, down to the storey where it is refused. -/
theorem setup_cases :
    (¬ IsWeight limits.units ∧ (g.setup limits).2 = g) ∨
      (∃ units : IsWeight limits.units,
        ¬ (IsWeight limits.imports ∧ IsWeight limits.freeFunctions) ∧
          (g.setup limits).2 = { g with units := some ⟨limits.units, units⟩ }) ∨
        (∃ (units : IsWeight limits.units) (imports : IsWeight limits.imports)
            (functions : IsWeight limits.freeFunctions), ¬ IsWeight limits.members ∧
          (g.setup limits).2 = { g with
            units := some ⟨limits.units, units⟩
            items := some ⟨⟨limits.imports, imports⟩, ⟨limits.freeFunctions, functions⟩⟩ }) ∨
          ∃ accepted : limits.Accepted, (g.setup limits).2 = limits.grammar accepted := by
  by_cases reached : limits.Reaches .contract
  · have accepted := limits.accepted_iff_reaches.2 reached
    rw [setup_of_accepted g accepted]
    exact Or.inr (Or.inr (Or.inr ⟨accepted, rfl⟩))
  unfold setup declareItems
  -- from the top storey down; what is wired before a refusal stays wired
  by_cases units : IsWeight limits.units
  case neg =>
    obtain ⟨e, refused⟩ := exists_declare_error units .testCase .sourceUnit
    rw [refused]
    exact Or.inl ⟨units, rfl⟩
  rw [declare_of_isWeight units]
  by_cases imports : IsWeight limits.imports
  case neg =>
    obtain ⟨e, refused⟩ := exists_declare_error imports .sourceUnit .importDirective
    rw [refused]
    exact Or.inr (Or.inl ⟨units, fun both => imports both.1, rfl⟩)
  rw [declare_of_isWeight imports]
  by_cases functions : IsWeight limits.freeFunctions
  case neg =>
    obtain ⟨e, refused⟩ := exists_declare_error functions .sourceUnit .function
    rw [refused]
    exact Or.inr (Or.inl ⟨units, fun both => functions both.2, rfl⟩)
  rw [declare_of_isWeight functions]
  have members : ¬ IsWeight limits.members :=
    fun allowed => reached ⟨units, imports, functions, allowed⟩
  obtain ⟨e, refused⟩ := exists_declare_error members .contract .function
  rw [refused]
  exact Or.inr (Or.inr (Or.inl ⟨units, imports, functions, members, rfl⟩))

/-- Wiring replaces the children of a production as a whole, or leaves them alone. -/
theorem children_setup (p : Production) :
    ((g.setup limits).2.children p).map (Child.under p) =
      if limits.Reaches p then limits.declared p else (g.children p).map (Child.under p) := by
  rcases g.setup_cases limits with ⟨refused, wired⟩ | ⟨units, refused, wired⟩ |
    ⟨units, imports, functions, refused, wired⟩ | ⟨accepted, wired⟩
  · rw [wired]
    cases p <;> simp [Limits.Reaches, refused]
  · rw [wired]
    cases p with
    | testCase => simp [Limits.Reaches, Limits.declared, children, Child.under, units]
    | sourceUnit => simp [Limits.Reaches, children, units, refused]
    | contract => simp [Limits.Reaches, children, units, ← and_assoc, refused]
    | pragmaBlock | importDirective | function => simp [Limits.declared, children]
  · rw [wired]
    cases p with
    | testCase => simp [Limits.Reaches, Limits.declared, children, Child.under, units]
    | sourceUnit =>
      simp [Limits.Reaches, Limits.declared, children, unitChildren, Child.under, Weight.once,
        units, imports, functions]
    | contract => simp [Limits.Reaches, children, refused]
    | pragmaBlock | importDirective | function => simp [Limits.declared, children]
  · obtain ⟨units, imports, functions, members⟩ := limits.accepted_iff_reaches.1 accepted
    rw [wired]
    cases p <;>
      simp [Limits.Reaches, Limits.declared, Limits.grammar, children, unitChildren, Child.under,
        Weight.once, units, imports, functions, members]

/-- So after any number of wirings a production has the children of the last limits that
reached it. -/
theorem children_setupEach (history : List Limits) (p : Production) :
    ((g.setupEach history).2.children p).map (Child.under p) =
      match (history.filter (·.Reaches p)).getLast? with
      | some limits => limits.declared p
      | none => (g.children p).map (Child.under p) := by
  induction history generalizing g with
  | nil => rfl
  | cons limits rest ih =>
    show (((g.setup limits).2.setupEach rest).2.children p).map (Child.under p) = _
    rw [ih, children_setup]
    -- if the first limits reach it, they are the last to do so unless later ones do
    by_cases reached : limits.Reaches p
    · rw [if_pos reached, List.filter_cons_of_pos (by simpa using reached), List.getLast?_cons]
      cases (rest.filter (·.Reaches p)).getLast? with
      | none => rfl
      | some later => rfl
    · rw [if_neg reached, List.filter_cons_of_neg (by simpa using reached)]

/-- Every weight that is wired is an allowed one. -/
theorem allowed_of_mem_children {p : Production} {d : Declaration}
    (wired : d ∈ (g.children p).map (Child.under p)) : d.Allowed := by
  obtain ⟨child, -, rfl⟩ := List.mem_map.1 wired
  exact child.weight.property

theorem children_of_rank_zero {p : Production} (lowest : p.rank = 0) : g.children p = [] := by
  cases p with
  | testCase | sourceUnit | contract => cases lowest
  | pragmaBlock | importDirective | function => rfl

end Grammar

/-- **The last limits that reach a production wire it.** Whatever was wired in a row, with
or without refusals: each production has exactly the children that the last limits declare
whose weights are allowed down to its storey, and none if there were no such limits.
Productions of the lowest storey never have any, every weight is allowed, and one more
wiring replaces the children of a production as a whole or leaves them as they are. Limits
that are accepted give what they give in a new grammar. -/
theorem wired_by_last_reaching (history : List Limits) :
    let g := (({} : Grammar).setupEach history).2
    (∀ p, (g.children p).map (Child.under p) =
      match (history.filter (·.Reaches p)).getLast? with
      | some limits => limits.declared p
      | none => []) ∧
      (∀ p : Production, p.rank = 0 → g.children p = []) ∧
      (∀ p, ∀ d ∈ (g.children p).map (Child.under p), d.Allowed) ∧
      (∀ limits p, ((g.setup limits).2.children p).map (Child.under p) =
        if limits.Reaches p then limits.declared p else (g.children p).map (Child.under p)) ∧
      ∀ limits, (g.setup limits).1 = .ok () →
        (g.setup limits).2 = (({} : Grammar).setup limits).2 := by
  intro g
  refine ⟨fun p => ?_, fun p lowest => g.children_of_rank_zero lowest,
    fun p d wired => g.allowed_of_mem_children wired, g.children_setup, fun limits wired => ?_⟩
  · show (((({} : Grammar).setupEach history).2).children p).map (Child.under p) = _
    rw [Grammar.children_setupEach]
    have unwired : (({} : Grammar).children p).map (Child.under p) = [] := by
      cases p <;> rfl
    rw [unwired]
  · have accepted : limits.Accepted := Limits.accepted_of_setup wired
    rw [Grammar.setup_of_accepted g accepted, Grammar.setup_of_accepted {} accepted]

/-- Limits that are accepted, then limits that stop below the test case, then limits that
stop below the units: one storey of each, until the limits that follow are accepted. -/
theorem wired_by_last_reaching_of_mixture :
    let history : List Limits :=
      [{ members := 7 }, { units := 6, imports := 0 }, { units := 5, imports := 9, members := 0 },
        { units := 4, freeFunctions := 4294967295 }]
    let g := (({} : Grammar).setupEach history).2
    (({} : Grammar).setupEach history).1 =
      [.ok (), .error (.zeroWeight .sourceUnit .importDirective),
        .error (.zeroWeight .contract .function),
        .error (.weightTooLarge .sourceUnit .function)] ∧
      (g.children .testCase).map (Child.under .testCase) = [⟨.testCase, .sourceUnit, 4⟩] ∧
      (g.children .sourceUnit).map (Child.under .sourceUnit) =
        [⟨.sourceUnit, .importDirective, 9⟩, ⟨.sourceUnit, .pragmaBlock, 1⟩,
          ⟨.sourceUnit, .contract, 1⟩, ⟨.sourceUnit, .function, 2⟩] ∧
      (g.children .contract).map (Child.under .contract) = [⟨.contract, .function, 7⟩] ∧
      (g.setup {}).1 = .ok () ∧ (g.setup {}).2 = (({} : Grammar).setup {}).2 := by
  intro history g
  have laws := wired_by_last_reaching history
  exact ⟨rfl, laws.1 .testCase, laws.1 .sourceUnit, laws.1 .contract, rfl, laws.2.2.2.2 {} rfl⟩

end SeedGrammar
