/-
# SeedGrammar.Proofs.Grammar.Wiring — which limits a grammar accepts

Limits declare four weights. Wiring looks at them one after another, and its answer
is decided by the list alone: the refusal of the first declaration that is not
allowed, if there is one (`setup_fst`). If there is none, the grammar has the weights
of the limits (`setup_of_accepted`).
-/
import SeedGrammar.Grammar.Basic
import Mathlib.Tactic.SplitIfs

namespace SeedGrammar

set_option autoImplicit false

/-! ## Declarations -/

/-- What limits say of a child under its parent. -/
structure Declaration where
  parent : Production
  child : Production
  weight : Nat
  deriving DecidableEq, Repr

/-- In the order in which they are looked at. -/
def Limits.declarations (limits : Limits) : List Declaration :=
  [⟨.testCase, .sourceUnit, limits.units⟩, ⟨.sourceUnit, .importDirective, limits.imports⟩,
    ⟨.sourceUnit, .function, limits.freeFunctions⟩, ⟨.contract, .function, limits.members⟩]

namespace Declaration

/-- A positive word, and not the largest one. -/
def Allowed (d : Declaration) : Prop :=
  0 < d.weight ∧ d.weight + 1 < UInt32.size

instance (d : Declaration) : Decidable d.Allowed :=
  inferInstanceAs (Decidable (_ ∧ _))

def refusal (d : Declaration) : Option Error :=
  if d.weight = 0 then
    some (.zeroWeight d.parent d.child)
  else if UInt32.size ≤ d.weight + 1 then
    some (.weightTooLarge d.parent d.child)
  else
    none

theorem refusal_eq_none_iff (d : Declaration) : d.refusal = none ↔ d.Allowed := by
  unfold refusal Allowed
  split_ifs with zero large
  · simp [zero]
  · simp [Nat.not_lt.2 large]
  · simp only [true_iff]
    omega

theorem declare_of_refused {d : Declaration} {e : Error} (refused : d.refusal = some e) :
    Child.declare d.parent d.child d.weight = .error e := by
  unfold refusal at refused
  unfold Child.declare
  split_ifs at refused ⊢ with zero large
  · rw [Option.some.inj refused]
  · rw [Option.some.inj refused]

theorem declare_of_allowed {d : Declaration} (allowed : d.Allowed) :
    Child.declare d.parent d.child d.weight = .ok ⟨d.child, d.weight, allowed⟩ := by
  unfold Allowed at allowed
  unfold Child.declare
  rw [dif_neg (by omega), dif_neg (by omega)]

/-- A declaration is answered with its refusal, or with the child it declares. -/
theorem declare_cases (d : Declaration) :
    (∃ e, d.refusal = some e ∧ Child.declare d.parent d.child d.weight = .error e) ∨
      d.refusal = none ∧ ∃ child, Child.declare d.parent d.child d.weight = .ok child := by
  cases refused : d.refusal with
  | some e => exact Or.inl ⟨e, rfl, declare_of_refused refused⟩
  | none => exact Or.inr ⟨rfl, _, declare_of_allowed (d.refusal_eq_none_iff.1 refused)⟩

end Declaration

/-! ## Accepted limits -/

namespace Limits

/-- The refusal of the first declaration that is not allowed. -/
def refusal (limits : Limits) : Option Error :=
  limits.declarations.findSome? Declaration.refusal

def Accepted (limits : Limits) : Prop :=
  ∀ d ∈ limits.declarations, d.Allowed

instance (limits : Limits) : Decidable limits.Accepted :=
  inferInstanceAs (Decidable (∀ _ ∈ _, _))

theorem refusal_eq_none_iff (limits : Limits) : limits.refusal = none ↔ limits.Accepted := by
  unfold refusal Accepted
  rw [List.findSome?_eq_none_iff]
  exact forall₂_congr fun d _ => d.refusal_eq_none_iff

end Limits

/-- Wiring answers with the first refusal, whatever was wired before. -/
theorem Grammar.setup_fst (g : Grammar) (limits : Limits) :
    (g.setup limits).1 =
      match limits.refusal with
      | some e => .error e
      | none => .ok () := by
  unfold setup declareItems Limits.refusal Limits.declarations
  rcases Declaration.declare_cases ⟨.testCase, .sourceUnit, limits.units⟩ with
    ⟨e, refused, unit⟩ | ⟨unitFine, _, unit⟩
  · simp only [List.findSome?_cons, refused, unit]
  rcases Declaration.declare_cases ⟨.sourceUnit, .importDirective, limits.imports⟩ with
    ⟨e, refused, imports⟩ | ⟨importsFine, _, imports⟩
  · simp only [List.findSome?_cons, unitFine, refused, unit, imports, bind, Except.bind]
  rcases Declaration.declare_cases ⟨.sourceUnit, .function, limits.freeFunctions⟩ with
    ⟨e, refused, functions⟩ | ⟨functionsFine, _, functions⟩
  · simp only [List.findSome?_cons, unitFine, importsFine, refused, unit, imports, functions, bind,
      Except.bind]
  rcases Declaration.declare_cases ⟨.contract, .function, limits.members⟩ with
    ⟨e, refused, members⟩ | ⟨membersFine, _, members⟩
  · simp only [List.findSome?_cons, unitFine, importsFine, functionsFine, refused, unit, imports,
      functions, members, bind, Except.bind, pure, Except.pure]
  · simp only [List.findSome?_cons, List.findSome?_nil, unitFine, importsFine, functionsFine,
      membersFine, unit, imports, functions, members, bind, Except.bind, pure, Except.pure]

/-- Limits that are wired without refusal are accepted, in whatever grammar. -/
theorem Limits.accepted_of_setup {g : Grammar} {limits : Limits}
    (wired : (g.setup limits).1 = .ok ()) : limits.Accepted := by
  rw [Grammar.setup_fst] at wired
  apply limits.refusal_eq_none_iff.1
  cases first : limits.refusal with
  | none => rfl
  | some e =>
    rw [first] at wired
    cases wired

/-- The grammar with the weights of accepted limits. -/
def Limits.grammar (limits : Limits) (accepted : limits.Accepted) : Grammar :=
  have units := accepted ⟨.testCase, .sourceUnit, limits.units⟩ (by simp [declarations])
  have imports := accepted ⟨.sourceUnit, .importDirective, limits.imports⟩ (by simp [declarations])
  have functions := accepted ⟨.sourceUnit, .function, limits.freeFunctions⟩ (by simp [declarations])
  have members := accepted ⟨.contract, .function, limits.members⟩ (by simp [declarations])
  { units := some ⟨limits.units, units⟩
    items := some ⟨⟨limits.imports, imports⟩, ⟨limits.freeFunctions, functions⟩⟩
    members := some ⟨limits.members, members⟩ }

theorem Grammar.setup_of_accepted (g : Grammar) {limits : Limits} (accepted : limits.Accepted) :
    g.setup limits = (.ok (), limits.grammar accepted) := by
  have units : Child.declare .testCase .sourceUnit limits.units = _ :=
    Declaration.declare_of_allowed
      (accepted ⟨.testCase, .sourceUnit, limits.units⟩ (by simp [Limits.declarations]))
  have imports : Child.declare .sourceUnit .importDirective limits.imports = _ :=
    Declaration.declare_of_allowed
      (accepted ⟨.sourceUnit, .importDirective, limits.imports⟩ (by simp [Limits.declarations]))
  have functions : Child.declare .sourceUnit .function limits.freeFunctions = _ :=
    Declaration.declare_of_allowed
      (accepted ⟨.sourceUnit, .function, limits.freeFunctions⟩ (by simp [Limits.declarations]))
  have members : Child.declare .contract .function limits.members = _ :=
    Declaration.declare_of_allowed
      (accepted ⟨.contract, .function, limits.members⟩ (by simp [Limits.declarations]))
  unfold setup declareItems
  rw [units, imports, functions, members]
  rfl

end SeedGrammar
