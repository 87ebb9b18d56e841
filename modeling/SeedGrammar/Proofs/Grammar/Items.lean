/-
# SeedGrammar.Proofs.Grammar.Items — which items a unit is made of

A unit has one piece for each child that the grammar declares, in some order of the
children (`Composed`). As no two children are of one production, the piece of a child
is all the items of its kind, and these stand next to each other
(`Composed.exists_order`). What a piece may be follows from what one expansion may
add: as many imports and free functions as their weights allow, and at most one pragma
block and one contract.
-/
import SeedGrammar.Proofs.Grammar.Writing
import SeedGrammar.Program.Basic
import Mathlib.Data.List.Nodup

namespace SeedGrammar

set_option autoImplicit false

/-! ## Kinds of items -/

/-- The production that an item comes from. -/
def Item.production : Item → Production
  | .importing _ => .importDirective
  | .pragma _ => .pragmaBlock
  | .contract _ => .contract
  | .function _ => .function

/-- The items of a unit that come from one production, in the order of the text. -/
def SourceUnit.itemsOf (unit : SourceUnit) (p : Production) : List Item :=
  unit.items.filter fun item => item.production = p

/-- Whatever is read off the items of one kind only. -/
theorem SourceUnit.filterMap_itemsOf {β : Type} (unit : SourceUnit) {f : Item → Option β}
    {p : Production} (only : ∀ item x, f item = some x → item.production = p) :
    (unit.itemsOf p).filterMap f = unit.items.filterMap f := by
  unfold itemsOf
  rw [List.filterMap_filter]
  refine List.filterMap_congr fun item _ => ?_
  by_cases ofKind : item.production = p
  · simp [ofKind]
  · have nothing : f item = none := by
      cases found : f item with
      | none => rfl
      | some x => exact absurd (only item x found) ofKind
    simp [ofKind, nothing]

theorem SourceUnit.imports_eq (unit : SourceUnit) :
    unit.imports = (unit.itemsOf .importDirective).filterMap fun
      | .importing path => some path
      | _ => none := by
  refine (unit.filterMap_itemsOf fun item path found => ?_).symm
  cases item <;> first | rfl | cases found

theorem SourceUnit.pragmas_eq (unit : SourceUnit) :
    unit.pragmas = (unit.itemsOf .pragmaBlock).filterMap fun
      | .pragma directive => some directive
      | _ => none := by
  refine (unit.filterMap_itemsOf fun item directive found => ?_).symm
  cases item <;> first | rfl | cases found

theorem SourceUnit.contracts_eq (unit : SourceUnit) :
    unit.contracts = (unit.itemsOf .contract).filterMap fun
      | .contract decl => some decl
      | _ => none := by
  refine (unit.filterMap_itemsOf fun item decl found => ?_).symm
  cases item <;> first | rfl | cases found

theorem SourceUnit.freeFunctions_eq (unit : SourceUnit) :
    unit.freeFunctions = (unit.itemsOf .function).filterMap fun
      | .function decl => some decl
      | _ => none := by
  refine (unit.filterMap_itemsOf fun item decl found => ?_).symm
  cases item <;> first | rfl | cases found

/-- What one expansion may add to a unit, where a contract has no more than `limit`
members. -/
def OfExpansion (limit : Nat) : Production → List Item → Prop
  | .importDirective, items => items = [] ∨ ∃ path, items = [.importing path]
  | .pragmaBlock, items => ∃ generic coder, List.Sublist generic Pragmas.generic ∧
      coder ∈ Pragmas.abiCoders ∧ items = (sortPaths (generic ++ [coder])).map .pragma
  | .contract, items => ∃ decl : ContractDecl, items = [.contract decl] ∧
      decl.members.length ≤ limit ∧ ∀ member ∈ decl.members, member.isPublic = false
  | .function, items => ∃ decl : FunctionDecl, items = [.function decl] ∧ decl.isPublic = true
  | .testCase, _ => False
  | .sourceUnit, _ => False

theorem OfExpansion.production {limit : Nat} {p : Production} {items : List Item}
    (added : OfExpansion limit p items) : ∀ item ∈ items, item.production = p := by
  intro item member
  cases p with
  | importDirective =>
    rcases added with rfl | ⟨path, rfl⟩
    · cases member
    · obtain rfl := List.mem_singleton.1 member
      rfl
  | pragmaBlock =>
    obtain ⟨generic, coder, -, -, rfl⟩ := added
    obtain ⟨directive, -, rfl⟩ := List.mem_map.1 member
    rfl
  | contract =>
    obtain ⟨decl, rfl, -⟩ := added
    obtain rfl := List.mem_singleton.1 member
    rfl
  | function =>
    obtain ⟨decl, rfl, -⟩ := added
    obtain rfl := List.mem_singleton.1 member
    rfl
  | testCase => exact added.elim
  | sourceUnit => exact added.elim

/-! ## Pragma blocks -/

theorem pairwise_lt_sortPaths {paths : List String} (nodup : paths.Nodup) :
    (sortPaths paths).Pairwise (· < ·) := by
  have sorted : (sortPaths paths).Pairwise (· ≤ ·) := by
    have ordered : (sortPaths paths).Pairwise fun p q => decide (p ≤ q) = true :=
      List.pairwise_mergeSort (fun a b c => by simpa using String.le_trans)
        (fun a b => by simpa using String.le_total a b) paths
    simpa using ordered
  have apart : (sortPaths paths).Pairwise (· ≠ ·) :=
    (List.mergeSort_perm paths _).nodup_iff.2 nodup
  refine (sorted.and apart).imp fun {a b} both => ?_
  by_contra notBefore
  exact both.2 (String.le_antisymm both.1 (String.not_lt.1 notBefore))

/-- No directive of a block stands in it twice. -/
theorem nodup_pragmas {generic : List String} {coder : String}
    (some : List.Sublist generic Pragmas.generic) (one : coder ∈ Pragmas.abiCoders) :
    (generic ++ [coder]).Nodup := by
  have within : List.Sublist (generic ++ [coder]) (Pragmas.generic ++ Pragmas.abiCoders) :=
    some.append (List.singleton_sublist.2 one)
  have nodup : (Pragmas.generic ++ Pragmas.abiCoders).Nodup := by decide
  exact nodup.sublist within

/-! ## Expansions in a row -/

section InRow

variable {τ : Type} {limit : Nat} {Written : List τ → Prop} {parts : List τ}

theorem InRow.forall_mem {p : τ → Prop} (row : InRow limit Written parts)
    (each : ∀ row, Written row → ∀ x ∈ row, p x) : ∀ x ∈ parts, p x := by
  obtain ⟨rows, -, written, rfl⟩ := row
  intro x member
  obtain ⟨row, known, inside⟩ := List.mem_flatten.1 member
  exact each row (written row known) x inside

/-- Expansions that add one part at most add no more parts than there are expansions. -/
theorem InRow.length_le (row : InRow limit Written parts)
    (each : ∀ row, Written row → row.length ≤ 1) : parts.length ≤ limit := by
  obtain ⟨rows, few, written, rfl⟩ := row
  have bound : rows.flatten.length ≤ rows.length := by
    clear few
    induction rows with
    | nil => simp
    | cons row rows ih =>
      have here := each row (written row (by simp))
      have others := ih fun row known => written row (by simp [known])
      simp only [List.flatten_cons, List.length_append, List.length_cons]
      omega
  omega

theorem InRow.once (row : InRow 1 Written parts) : parts = [] ∨ Written parts := by
  obtain ⟨rows, few, written, rfl⟩ := row
  match rows with
  | [] => exact Or.inl rfl
  | [only] =>
    have same : [only].flatten = only := by simp
    rw [same]
    exact Or.inr (written only (by simp))
  | _ :: _ :: _ =>
    simp only [List.length_cons] at few
    omega

end InRow

/-! ## Pieces -/

/-- Pieces of different kinds in a row: each is all that there is of its kind. -/
theorem eq_map_filter_of_pieces {α κ : Type} [DecidableEq κ] (kind : α → κ) {kinds : List κ}
    {pieces : List (List α)}
    (pure : List.Forall₂ (fun k piece => ∀ x ∈ piece, kind x = k) kinds pieces)
    (nodup : kinds.Nodup) :
    pieces = kinds.map fun k => pieces.flatten.filter fun x => kind x = k := by
  induction pure with
  | nil => rfl
  | @cons k piece kinds pieces here others ih =>
    obtain ⟨apart, nodup⟩ := List.nodup_cons.1 nodup
    have within : ∀ x ∈ pieces.flatten, kind x ∈ kinds := by
      intro x member
      rw [ih nodup, List.mem_flatten] at member
      obtain ⟨row, known, inside⟩ := member
      obtain ⟨k', declared, rfl⟩ := List.mem_map.1 known
      have same : kind x = k' := by simpa using (List.mem_filter.1 inside).2
      exact same ▸ declared
    have whole : piece.filter (fun x => kind x = k) = piece :=
      List.filter_eq_self.2 fun x member => by simpa using here x member
    have none : pieces.flatten.filter (fun x => kind x = k) = [] := by
      refine List.filter_eq_nil_iff.2 fun x member same => apart ?_
      have isOne : kind x = k := by simpa using same
      exact isOne ▸ within x member
    have rest : (kinds.map fun k' => (piece ++ pieces.flatten).filter fun x => kind x = k') =
        kinds.map fun k' => pieces.flatten.filter fun x => kind x = k' := by
      refine List.map_congr_left fun k' declared => ?_
      have other : piece.filter (fun x => kind x = k') = [] := by
        refine List.filter_eq_nil_iff.2 fun x member same => apart ?_
        have isOther : kind x = k' := by simpa using same
        rwa [← here x member, isOther]
      rw [List.filter_append, other, List.nil_append]
    rw [List.map_cons, List.flatten_cons, rest, ← ih nodup, List.filter_append, whole, none,
      List.append_nil]

/-! ## Units -/

/-- One piece for each child of a unit, in some order. -/
def SourceUnit.Composed (g : Grammar) (unit : SourceUnit) : Prop :=
  ∃ order pieces, order.Perm (g.children .sourceUnit) ∧
    List.Forall₂ (fun (child : Child) piece =>
      InRow child.weight.val (OfExpansion g.memberLimit child.production) piece) order pieces ∧
        unit.items = pieces.flatten

namespace SourceUnit.Composed

variable {g : Grammar} {weights : ItemWeights} {unit : SourceUnit}

theorem nodup_productions (g : Grammar) :
    ((g.children .sourceUnit).map Child.production).Nodup := by
  cases wired : g.items with
  | none => simp [Grammar.children, wired]
  | some weights => simp [Grammar.children, wired, Grammar.unitChildren]

/-- The items of each kind stand next to each other, as one piece. -/
theorem exists_order (composed : unit.Composed g) :
    ∃ order : List Child, order.Perm (g.children .sourceUnit) ∧
      unit.items = (order.map Child.production).flatMap unit.itemsOf ∧
        ∀ child ∈ order, InRow child.weight.val (OfExpansion g.memberLimit child.production)
          (unit.itemsOf child.production) := by
  obtain ⟨order, pieces, perm, written, whole⟩ := composed
  have nodup : (order.map Child.production).Nodup :=
    (perm.map Child.production).nodup_iff.2 (nodup_productions g)
  have pure : List.Forall₂ (fun p piece => ∀ item ∈ piece, item.production = p)
      (order.map Child.production) pieces := by
    rw [List.forall₂_map_left_iff]
    exact written.imp fun child piece row => row.forall_mem fun _ added => added.production
  have cut : pieces = order.map fun child => unit.itemsOf child.production := by
    have each := eq_map_filter_of_pieces Item.production pure nodup
    rwa [← whole, List.map_map] at each
  refine ⟨order, perm, ?_, ?_⟩
  · rw [whole, cut, List.flatMap_map, List.flatMap_def]
  · rwa [cut, List.forall₂_map_right_iff, List.forall₂_same] at written

theorem items_of_unwired (composed : unit.Composed g) (unwired : g.items = none) :
    unit.items = [] := by
  obtain ⟨order, perm, whole, -⟩ := composed.exists_order
  have none : order = [] := by simpa [Grammar.children, unwired] using perm
  rw [whole, none]
  rfl

section Wired

variable (composed : unit.Composed g) (wired : g.items = some weights)

include composed wired

/-- The items of the productions of a unit, in four blocks. -/
theorem exists_blocks : ∃ order : List Production,
    order.Perm [.importDirective, .pragmaBlock, .contract, .function] ∧
      unit.items = order.flatMap unit.itemsOf := by
  obtain ⟨order, perm, cut, -⟩ := composed.exists_order
  have productions := perm.map Child.production
  simp only [Grammar.children, wired, Grammar.unitChildren, Option.map_some, Option.getD_some,
    List.map_cons, List.map_nil] at productions
  exact ⟨_, productions, cut⟩

theorem inRow (child : Child) (declared : child ∈ Grammar.unitChildren weights) :
    InRow child.weight.val (OfExpansion g.memberLimit child.production)
      (unit.itemsOf child.production) := by
  obtain ⟨order, perm, -, rows⟩ := composed.exists_order
  refine rows child (perm.mem_iff.2 ?_)
  simpa [Grammar.children, wired] using declared

theorem length_imports_le : unit.imports.length ≤ weights.imports.val := by
  have row := composed.inRow wired ⟨.importDirective, weights.imports⟩
    (by simp [Grammar.unitChildren])
  have few : (unit.itemsOf .importDirective).length ≤ weights.imports.val := by
    refine row.length_le fun items added => ?_
    rcases added with rfl | ⟨path, rfl⟩
    · exact Nat.zero_le 1
    · exact Nat.le_refl 1
  rw [unit.imports_eq]
  exact Nat.le_trans (List.length_filterMap_le _ _) few

theorem length_freeFunctions_le : unit.freeFunctions.length ≤ weights.freeFunctions.val := by
  have row := composed.inRow wired ⟨.function, weights.freeFunctions⟩
    (by simp [Grammar.unitChildren])
  have few : (unit.itemsOf .function).length ≤ weights.freeFunctions.val := by
    refine row.length_le fun items added => ?_
    obtain ⟨decl, rfl, -⟩ := added
    exact Nat.le_refl 1
  rw [unit.freeFunctions_eq]
  exact Nat.le_trans (List.length_filterMap_le _ _) few

theorem isPublic_of_mem_freeFunctions {decl : FunctionDecl} (free : decl ∈ unit.freeFunctions) :
    decl.isPublic = true := by
  have row := composed.inRow wired ⟨.function, weights.freeFunctions⟩
    (by simp [Grammar.unitChildren])
  have each : ∀ item ∈ unit.itemsOf .function, ∀ decl, item = .function decl →
      decl.isPublic = true := by
    refine row.forall_mem fun items added item member decl isFunction => ?_
    obtain ⟨decl', rfl, isPublic⟩ := added
    obtain rfl := List.mem_singleton.1 member
    cases isFunction
    exact isPublic
  rw [unit.freeFunctions_eq, List.mem_filterMap] at free
  obtain ⟨item, member, found⟩ := free
  refine each item member decl ?_
  cases item <;> first | cases found; rfl | cases found

/-- At most one contract, with no more members than a contract may have, and none of
them public. -/
theorem contracts_cases : unit.contracts = [] ∨ ∃ decl : ContractDecl, unit.contracts = [decl] ∧
    decl.members.length ≤ g.memberLimit ∧ ∀ member ∈ decl.members, member.isPublic = false := by
  have row := composed.inRow wired ⟨.contract, .once⟩ (by simp [Grammar.unitChildren])
  rw [unit.contracts_eq]
  rcases row.once with none | ⟨decl, one, few, hidden⟩
  · exact Or.inl (by rw [none]; rfl)
  · exact Or.inr ⟨decl, by rw [one]; rfl, few, hidden⟩

/-- No pragmas, or those of one block. -/
theorem pragmas_cases : unit.pragmas = [] ∨ ∃ generic coder,
    List.Sublist generic Pragmas.generic ∧ coder ∈ Pragmas.abiCoders ∧
      unit.pragmas = sortPaths (generic ++ [coder]) := by
  have row := composed.inRow wired ⟨.pragmaBlock, .once⟩ (by simp [Grammar.unitChildren])
  rw [unit.pragmas_eq]
  rcases row.once with none | ⟨generic, coder, some, one, block⟩
  · exact Or.inl (by rw [none]; rfl)
  · refine Or.inr ⟨generic, coder, some, one, ?_⟩
    rw [block, List.filterMap_map]
    exact List.filterMap_some

end Wired

theorem length_contracts_le (composed : unit.Composed g) : unit.contracts.length ≤ 1 := by
  cases wired : g.items with
  | none => simp [SourceUnit.contracts, composed.items_of_unwired wired]
  | some weights =>
    rcases composed.contracts_cases wired with none | ⟨decl, one, -⟩
    · simp [none]
    · simp [one]

end SourceUnit.Composed

end SeedGrammar
