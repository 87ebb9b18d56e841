/-
# SeedGrammar.Proofs.Program.Lines — a program as the lines that a walk writes

A program has a text of its own, and a walk knows lines only. Each part of a program is
so many lines, and their text is the text of the part (`Program.textOf_lines`): the only
level inside a program is that of members, and it is written as four spaces.
-/
import SeedGrammar.Program.Basic
import SeedGrammar.Program.Line

namespace SeedGrammar

set_option autoImplicit false

/-! ## Lines of parts -/

def FunctionDecl.line (level : Nat) (decl : FunctionDecl) : Line :=
  .function level decl.name decl.isPublic

def ContractDecl.lines (decl : ContractDecl) : List Line :=
  .opening 0 decl.name :: decl.members.map (FunctionDecl.line 1) ++ [.closing 0]

def Item.lines : Item → List Line
  | .importing path => [.importing path]
  | .pragma directive => [.pragma directive]
  | .contract decl => decl.lines
  | .function decl => [decl.line 0]

def SourceUnit.lines (unit : SourceUnit) : List Line :=
  .header unit.path :: unit.items.flatMap Item.lines

def Program.lines (program : Program) : List Line :=
  program.units.flatMap SourceUnit.lines

/-! ## Their texts -/

theorem Line.margin_zero : margin 0 = "" := rfl

/-- The lines of parts in a row, where each part is known. -/
theorem Line.textOf_flatMap {α : Type} {lines : α → List Line} {text : α → String}
    (each : ∀ x, textOf (lines x) = text x) (xs : List α) :
    textOf (xs.flatMap lines) = String.join (xs.map text) := by
  induction xs with
  | nil => rw [List.flatMap_nil, List.map_nil, textOf_nil, String.join_nil]
  | cons x xs ih =>
    rw [List.flatMap_cons, textOf_append, each, ih, List.map_cons, String.join_cons]

theorem FunctionDecl.text_line (level : Nat) (decl : FunctionDecl) :
    (decl.line level).text = Line.margin level ++ decl.text ++ "\n" := by
  have ending : " pure \x7b\x7d\n" = " pure \x7b\x7d" ++ "\n" := rfl
  simp only [line, Line.text, FunctionDecl.text, ending, String.append_assoc]

theorem ContractDecl.textOf_lines (decl : ContractDecl) :
    Line.textOf decl.lines = decl.text ++ "\n" := by
  have member (decl : FunctionDecl) :
      Line.textOf [decl.line 1] = "    " ++ decl.text ++ "\n" := by
    rw [Line.textOf_singleton, decl.text_line]
    rfl
  have members := Line.textOf_flatMap member decl.members
  rw [← List.map_eq_flatMap] at members
  have opening : (Line.opening 0 decl.name).text = "contract " ++ decl.name ++ " \x7b\n" := by
    simp only [Line.text, Line.margin_zero, String.empty_append]
  have closing : (Line.closing 0).text = "\x7d" ++ "\n" := rfl
  rw [lines, Line.textOf_append, Line.textOf_cons, Line.textOf_singleton, members, opening, closing]
  simp only [text, String.append_assoc]

theorem Item.textOf_lines (item : Item) : Line.textOf item.lines = item.text ++ "\n" := by
  cases item with
  | importing path =>
    have ending : "\";\n" = "\";" ++ "\n" := rfl
    simp only [lines, Line.textOf_singleton, Line.text, text, ending, String.append_assoc]
  | pragma directive => exact Line.textOf_singleton _
  | contract decl => exact decl.textOf_lines
  | function decl =>
    simp only [lines, Line.textOf_singleton, decl.text_line, Line.margin_zero, String.empty_append,
      text]

theorem SourceUnit.textOf_lines (unit : SourceUnit) : Line.textOf unit.lines = unit.text := by
  rw [lines, Line.textOf_cons, Line.textOf_flatMap Item.textOf_lines]
  rfl

theorem Program.textOf_lines (program : Program) : Line.textOf program.lines = program.text :=
  Line.textOf_flatMap SourceUnit.textOf_lines program.units

end SeedGrammar
