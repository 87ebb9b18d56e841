/-
# SeedGrammar.Proofs.Program.Legible — programs that read back from their own text

A program is legible if each of its names, paths and directives can be read. Then
the text of every part is a layout of it, and so the text of a legible program reads
back as the program (`read_text`).
-/
import SeedGrammar.Proofs.Program.Recognition

namespace SeedGrammar

set_option autoImplicit false

open Layout

/-! ## Legible parts -/

def FunctionDecl.Legible (decl : FunctionDecl) : Prop :=
  Name decl.name.toList

structure ContractDecl.Legible (decl : ContractDecl) : Prop where
  name : Name decl.name.toList
  members : ∀ member ∈ decl.members, member.Legible

def Item.Legible : Item → Prop
  | .importing path => '"' ∉ path.toList
  | .pragma directive =>
    ∃ body, ';' ∉ body ∧ directive = String.ofList ("pragma".toList ++ body ++ [';'])
  | .contract decl => decl.Legible
  | .function decl => decl.Legible

structure SourceUnit.Legible (unit : SourceUnit) : Prop where
  path : Path unit.path.toList
  items : ∀ item ∈ unit.items, item.Legible

def Program.Legible (program : Program) : Prop :=
  ∀ unit ∈ program.units, unit.Legible

/-! ## Texts of legible parts -/

theorem blank_indent : Blank "    ".toList := by
  intro c member
  obtain rfl : c = ' ' := by simpa using member
  decide

theorem blank_space : Blank [' '] := by
  intro c member
  obtain rfl := List.mem_singleton.1 member
  decide

theorem blank_newline : Blank ['\n'] := by
  intro c member
  obtain rfl := List.mem_singleton.1 member
  decide

/-- Parts in a row are laid out in a row. -/
theorem row_of_texts {α : Type} {Of : α → List Char → Prop} {text : α → String} {xs : List α}
    (each : ∀ x ∈ xs, Of x (text x).toList) : Row Of xs (String.join (xs.map text)).toList := by
  induction xs with
  | nil => simpa using Row.nil
  | cons x xs ih =>
    rw [List.map_cons, String.join_cons, String.toList_append]
    exact .cons (each x (by simp)) (ih fun y member => each y (by simp [member]))

theorem FunctionDecl.Legible.layout {decl : FunctionDecl} (legible : decl.Legible) :
    OfFunction decl decl.text.toList := by
  obtain ⟨name, isPublic⟩ := decl
  cases isPublic with
  | false =>
    simpa [FunctionDecl.text] using
      OfFunction.unmarked legible blank_space .nil blank_space blank_space
  | true =>
    simpa [FunctionDecl.text] using
      OfFunction.marked legible blank_space .nil blank_space blank_space blank_space

theorem ContractDecl.Legible.layout {decl : ContractDecl} (legible : decl.Legible) :
    OfContract decl decl.text.toList := by
  obtain ⟨name, members⟩ := decl
  have member (decl : FunctionDecl) (known : decl ∈ members) :
      Spaced OfFunction decl ("    " ++ decl.text ++ "\n").toList := by
    rw [String.toList_append, String.toList_append]
    exact .mk blank_indent (legible.members decl known).layout blank_newline
  have layout := OfContract.mk legible.name blank_space blank_space blank_newline
    (row_of_texts member)
  rw [String.ofList_toList] at layout
  simpa [ContractDecl.text] using layout

theorem Item.Legible.layout {item : Item} (legible : item.Legible) :
    OfItem item item.text.toList := by
  cases item with
  | importing path =>
    have layout := OfItem.importing blank_space legible
    rw [String.ofList_toList] at layout
    simpa [Item.text] using layout
  | pragma directive =>
    obtain ⟨body, unclosed, rfl⟩ := legible
    simpa [Item.text] using OfItem.pragma unclosed
  | contract decl => exact .contract (ContractDecl.Legible.layout legible)
  | function decl => exact .function (FunctionDecl.Legible.layout legible)

theorem SourceUnit.Legible.layout {unit : SourceUnit} (legible : unit.Legible) :
    OfUnit unit unit.text.toList := by
  obtain ⟨path, items⟩ := unit
  have line (item : Item) (known : item ∈ items) :
      Spaced OfItem item (item.text ++ "\n").toList := by
    rw [String.toList_append]
    exact .mk .nil (legible.items item known).layout blank_newline
  have layout := OfUnit.mk legible.path blank_newline blank_space blank_newline (row_of_texts line)
  rw [String.ofList_toList] at layout
  simpa [SourceUnit.text] using layout

/-! ## Reading them back -/

theorem Program.Legible.layout {program : Program} (legible : program.Legible) :
    OfProgram program program.text.toList := by
  obtain ⟨units⟩ := program
  have body := row_of_texts fun unit known => (legible unit known).layout
  simpa [Program.text] using OfProgram.mk .nil .nil body

/-- The text of a legible program reads back as the program. -/
theorem Program.Legible.read_text {program : Program} (legible : program.Legible) :
    Program.read program.text = .ok program :=
  read_of_layout legible.layout

end SeedGrammar
