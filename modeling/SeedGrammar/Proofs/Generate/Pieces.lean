/-
# SeedGrammar.Proofs.Generate.Pieces — a generated text can be cut at its headers

Whoever wants the units of a generated text need not read it: a search for the literal that
introduces a unit finds the headers and nothing else, and each piece of the text that is cut
in front of them is a unit by itself (`generateWith_cut`).

The literal ends in a colon, and nothing that a grammar writes has one, except for headers
(`not_mem_text`). Readers know no such rule, and a text that was not generated may have
headers in its directives.
-/
import SeedGrammar.Proofs.Generate.Imports
import SeedGrammar.Proofs.Generate.Blocks
import SeedGrammar.Proofs.Text.Cutting

namespace SeedGrammar

set_option autoImplicit false

open Text Text.Reader Layout

/-- What introduces a unit. -/
def unitMark : String := "==== Source:"

/-! ## Texts without a colon -/

theorem Layout.not_mem_name {name : List Char} (named : Name name) {c : Char}
    (stop : ¬ NamePart c) : c ∉ name := by
  intro member
  obtain ⟨start, parts⟩ := named
  rcases List.mem_cons.1 member with rfl | later
  · exact stop (namePart_of_start start)
  · exact stop (parts c later)

theorem FunctionDecl.Legible.not_mem_text {decl : FunctionDecl} (legible : decl.Legible) :
    ':' ∉ decl.text.toList := by
  have name : ':' ∉ decl.name.toList := not_mem_name legible (by decide)
  cases isPublic : decl.isPublic <;> simp [FunctionDecl.text, isPublic, name]

theorem ContractDecl.Legible.not_mem_text {decl : ContractDecl} (legible : decl.Legible) :
    ':' ∉ decl.text.toList := by
  have name : ':' ∉ decl.name.toList := not_mem_name legible.name (by decide)
  have members (member : FunctionDecl) (declared : member ∈ decl.members) :
      ':' ∉ member.text.toList :=
    (legible.members member declared).not_mem_text
  simpa [ContractDecl.text, name] using members

theorem not_mem_directive :
    ∀ directive ∈ Pragmas.generic ++ Pragmas.abiCoders, ':' ∉ directive.toList := by
  decide

section Units

variable {g : Grammar} {weights : ItemWeights} {i : Nat} {unit : SourceUnit} {u : UnitRecord}
  (kept : Kept i unit u) (composed : unit.Composed g) (wired : g.items = some weights)

include composed wired in
theorem SourceUnit.Composed.mem_directives {directive : String}
    (written : directive ∈ unit.pragmas) : directive ∈ Pragmas.generic ++ Pragmas.abiCoders := by
  rcases composed.pragmas_cases wired with none | ⟨generic, coder, some, one, block⟩
  · rw [none] at written
    cases written
  · rw [block] at written
    rcases List.mem_append.1 ((List.mergeSort_perm _ _).mem_iff.1 written) with known | last
    · exact List.mem_append_left _ (some.subset known)
    · obtain rfl := List.mem_singleton.1 last
      exact List.mem_append_right _ one

include kept composed wired

/-- Nothing that is written in a unit has a colon. -/
theorem not_mem_text : ∀ item ∈ unit.items, ':' ∉ item.text.toList := by
  intro item member
  cases item with
  | importing path =>
    have imported : path ∈ unit.imports := List.mem_filterMap.2 ⟨_, member, rfl⟩
    obtain ⟨j, -, rfl⟩ := kept.imports_numbered path imported
    have path := not_mem_unitPath j (c := ':') (by decide) (by decide)
    simp [Item.text, path]
  | pragma directive =>
    have written : directive ∈ unit.pragmas := List.mem_filterMap.2 ⟨_, member, rfl⟩
    exact not_mem_directive directive (composed.mem_directives wired written)
  | contract decl => exact ContractDecl.Legible.not_mem_text (kept.legible _ member)
  | function decl => exact FunctionDecl.Legible.not_mem_text (kept.legible _ member)

/-- The text of a unit has the mark where it begins, and no colon later. -/
theorem headed_of_kept (path : unit.path = unitPath i) :
    Headed '\n' "==== Source".toList ':' unit.text.toList := by
  have name := not_mem_unitPath i (c := ':') (by decide) (by decide)
  have items := not_mem_text kept composed wired
  refine ⟨" ".toList ++ (unitPath i).toList ++ " ====\n".toList ++
    (String.join (unit.items.map fun item => item.text ++ "\n")).toList, ?_, ?_⟩
  · simpa [name] using items
  · simp [SourceUnit.text, path]

end Units

/-! ## Generated texts -/

theorem toList_text (program : Program) :
    program.text.toList = (program.units.map fun unit => unit.text.toList).flatten := by
  rw [Program.text, String.toList_join, List.flatMap_map]
  rfl

/-- A unit of a legible program, by itself. -/
theorem Program.Legible.read_unit {program : Program} (legible : program.Legible)
    {unit : SourceUnit} (member : unit ∈ program.units) :
    Program.read unit.text = .ok ⟨[unit]⟩ := by
  have alone : Program.Legible ⟨[unit]⟩ := by
    intro other single
    obtain rfl := List.mem_singleton.1 single
    exact legible other member
  have text : Program.text ⟨[unit]⟩ = unit.text := by
    simp [Program.text]
  rw [← text]
  exact alone.read_text

/-- **A generated text can be cut at its headers.** It has as many of them as units, it
begins with the first one if it has any, and each of the pieces that are cut in front of a
header reads as one unit, the one that stands there in the whole text. -/
theorem generateWith_cut (seed : UInt64) (limits : Limits) (accepted : limits.Accepted) :
    ∃ text program, generateWith seed limits = .ok text ∧ Program.read text = .ok program ∧
      occurrences unitMark.toList text.toList = program.units.length ∧
        (text = "" ∨ ("\n" ++ unitMark).toList <+: text.toList) ∧
          List.Forall₂ (fun piece unit => Program.read (String.ofList piece) = .ok ⟨[unit]⟩)
            (cutBefore ("\n" ++ unitMark).toList text.toList) program.units := by
  obtain ⟨program, rs, generated, ⟨kept, composed⟩, -⟩ := generateWith_built accepted seed
  have headed : ∀ piece ∈ program.units.map fun unit => unit.text.toList,
      Headed '\n' "==== Source".toList ':' piece := by
    intro piece member
    obtain ⟨unit, known, rfl⟩ := List.mem_map.1 member
    obtain ⟨i, found⟩ := List.mem_iff_getElem?.1 known
    obtain ⟨path, u, record⟩ := kept.getElem? found
    exact headed_of_kept record (composed unit known) rfl path
  have apart : '\n' ∉ "==== Source".toList ++ [':'] := by decide
  refine ⟨program.text, program, generated, kept.read_text, ?_, ?_, ?_⟩
  · rw [toList_text]
    exact (occurrences_flatten apart headed).trans (List.length_map _)
  · rw [toList_text, ← String.toList_eq_nil_iff, toList_text]
    exact prefix_flatten_of_headed headed
  · have pieces := cutBefore_flatten apart headed
    rw [← toList_text] at pieces
    show List.Forall₂ _ (cutBefore ('\n' :: ("==== Source".toList ++ [':'])) program.text.toList) _
    rw [pieces, List.forall₂_map_left_iff, List.forall₂_same]
    intro unit member
    rw [String.ofList_toList]
    exact kept.legible.read_unit member

theorem generate_cut : ({} : Limits).Accepted ∧
    ∃ text program, generateWith 5 {} = .ok text ∧ Program.read text = .ok program ∧
      occurrences unitMark.toList text.toList = program.units.length ∧
        (text = "" ∨ ("\n" ++ unitMark).toList <+: text.toList) ∧
          List.Forall₂ (fun piece unit => Program.read (String.ofList piece) = .ok ⟨[unit]⟩)
            (cutBefore ("\n" ++ unitMark).toList text.toList) program.units :=
  ⟨by decide, generateWith_cut 5 {} (by decide)⟩

end SeedGrammar
