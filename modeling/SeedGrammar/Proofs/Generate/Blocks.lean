/-
# SeedGrammar.Proofs.Generate.Blocks — how the items of a unit are arranged

A unit of a generated text has its items in four blocks, one for each kind, in any
order, and each block within its limits (`SourceUnit.KeepsTo`). Functions are public
exactly where they are free, whichever side of the contract they stand on.
-/
import SeedGrammar.Proofs.Generate.Agreement

namespace SeedGrammar

set_option autoImplicit false

/-- A row of pragma directives that one expansion writes: one for an abi coder and some
generic ones, sorted. -/
structure Pragmas.IsBlock (directives : List String) : Prop where
  increasing : directives.Pairwise (· < ·)
  chosen : ∃ generic coder, List.Sublist generic Pragmas.generic ∧ coder ∈ Pragmas.abiCoders ∧
    directives.Perm (generic ++ [coder])

theorem Pragmas.isBlock_sortPaths {generic : List String} {coder : String}
    (some : List.Sublist generic Pragmas.generic) (one : coder ∈ Pragmas.abiCoders) :
    Pragmas.IsBlock (sortPaths (generic ++ [coder])) where
  increasing := pairwise_lt_sortPaths (nodup_pragmas some one)
  chosen := ⟨generic, coder, some, one, List.mergeSort_perm _ _⟩

/-- The items of a unit stand in blocks, and keep to the limits. -/
structure SourceUnit.KeepsTo (unit : SourceUnit) (limits : Limits) : Prop where
  /-- The items of each kind are contiguous. -/
  blocks : ∃ order : List Production,
    order.Perm [.importDirective, .pragmaBlock, .contract, .function] ∧
      unit.items = order.flatMap unit.itemsOf
  pragmas : unit.pragmas ≠ [] → Pragmas.IsBlock unit.pragmas
  contracts : unit.contracts.length ≤ 1
  members : ∀ decl ∈ unit.contracts, decl.members.length ≤ limits.members ∧
    ∀ member ∈ decl.members, member.isPublic = false
  freeFunctions : unit.freeFunctions.length ≤ limits.freeFunctions
  free : ∀ decl ∈ unit.freeFunctions, decl.isPublic = true

theorem SourceUnit.Composed.keepsTo {limits : Limits} {accepted : limits.Accepted}
    {unit : SourceUnit} (composed : unit.Composed (limits.grammar accepted)) :
    unit.KeepsTo limits where
  blocks := composed.exists_blocks rfl
  pragmas := by
    intro present
    rcases composed.pragmas_cases rfl with none | ⟨generic, coder, some, one, block⟩
    · exact absurd none present
    · rw [block]
      exact Pragmas.isBlock_sortPaths some one
  contracts := composed.length_contracts_le
  members := by
    rcases composed.contracts_cases rfl with none | ⟨decl, one, few, hidden⟩
    · simp [none]
    · intro decl' member
      rw [one] at member
      obtain rfl := List.mem_singleton.1 member
      exact ⟨few, hidden⟩
  freeFunctions := composed.length_freeFunctions_le rfl
  free := fun _ member => composed.isPublic_of_mem_freeFunctions rfl member

/-- **A generated text keeps to its limits**: it has no more units than allowed, and in
each of them the items of each kind form one block. -/
theorem generateWith_keepsTo (seed : UInt64) (limits : Limits) (accepted : limits.Accepted) :
    ∃ text program, generateWith seed limits = .ok text ∧ Program.read text = .ok program ∧
      program.units.length ≤ limits.units ∧ ∀ unit ∈ program.units, unit.KeepsTo limits := by
  obtain ⟨program, rs, generated, ⟨kept, composed⟩, few⟩ := generateWith_built accepted seed
  refine ⟨program.text, program, generated, kept.read_text, ?_, ?_⟩
  · rwa [kept.length_eq]
  · exact fun unit member => (composed unit member).keepsTo

theorem generate_keepsTo : ({} : Limits).Accepted ∧
    ∃ text program, generateWith 5 {} = .ok text ∧ Program.read text = .ok program ∧
      program.units.length ≤ 3 ∧ ∀ unit ∈ program.units, unit.KeepsTo {} :=
  ⟨by decide, generateWith_keepsTo 5 {} (by decide)⟩

end SeedGrammar
