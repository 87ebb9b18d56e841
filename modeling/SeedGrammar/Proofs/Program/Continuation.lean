/-
# SeedGrammar.Proofs.Program.Continuation — what a program text can go on with

The readers of program texts, each with the layouts of what it reads as the language
it follows, up to the units of a program (`follows_units`): wherever one of them is
stuck, some program goes on with what it wants. Most of it is the shape of the readers
over again. Only the path of a unit needs a thought: it may not be empty, though a
reader that finds none goes on to the mark after it. It gets that far at the end of the
text only, and there the space that the mark begins with may as well be skipped.

All these readers are steady as well (`steady_units`).
-/
import SeedGrammar.Proofs.Program.Recognition
import SeedGrammar.Proofs.Text.Continuation
import SeedGrammar.Proofs.Text.Lookahead

namespace SeedGrammar

set_option autoImplicit false

open Text Text.Reader Program.Reader Layout
open Computability

/-! ## Rows and white space -/

theorem spaced_texts {α : Type} {Of : α → List Char → Prop} :
    blanks * texts Of * blanks ≤ texts (Spaced Of) := by
  rintro _ ⟨_, ⟨a, blankA, s, ⟨x, layout⟩, rfl⟩, b, blankB, rfl⟩
  exact ⟨x, .mk blankA layout blankB⟩

theorem row_texts {α : Type} {Of : α → List Char → Prop} : (texts Of)∗ ≤ texts (Row Of) := by
  intro w member
  obtain ⟨parts, rfl, each⟩ := Language.mem_kstar.1 member
  clear member
  induction parts with
  | nil => exact ⟨[], .nil⟩
  | cons s parts ih =>
    obtain ⟨x, layout⟩ := each s (by simp)
    have others : ∀ t ∈ parts, t ∈ texts Of := fun t later => each t (by simp [later])
    obtain ⟨xs, row⟩ := ih others
    exact ⟨x :: xs, .cons layout row⟩

theorem Text.Reader.Follows.spaced {α : Type} {reader : Reader α} {Of : α → List Char → Prop}
    {On : List Char → Prop} (follows : reader.Follows Flush (texts Of)) :
    (Reader.padded reader).Follows On (texts (Spaced Of)) :=
  follows.padded.mono spaced_texts

theorem Text.Reader.Follows.row {α : Type} {reader : Reader α} {Of : α → List Char → Prop}
    (follows : reader.Follows (fun _ => True) (texts Of)) (consuming : reader.Consuming) :
    (Reader.many reader).Follows (fun _ => True) (texts (Row Of)) :=
  (follows.many consuming).mono row_texts

theorem name_of_mem_names {w : List Char} (member : w ∈ names) : Name w := by
  obtain ⟨c, cs, rfl, start, parts⟩ := member
  exact .mk (isNameStart_iff.1 start) fun d part => isNamePart_iff.1 (parts d part)

theorem not_mem_of_mem_without {c : Char} {w : List Char} (member : w ∈ without [c]) : c ∉ w :=
  fun inside => member c inside (by simp)

/-! ## Functions -/

variable {On : List Char → Prop}

theorem follows_functionDecl : functionDecl.Follows On (texts OfFunction) := by
  have parts : functionDecl.Follows On
      ({"function".toList} * (blanks * names * blanks * ({"()".toList} *
        ((blanks * {"public".toList} * blanks + 1) * (blanks * {"pure".toList} * blanks *
          ({"\x7b\x7d".toList} * 1)))))) := by
    refine (follows_literal _).andThen fun _ => ?_
    refine follows_identifier.padded.andThen fun _ => ?_
    refine (follows_literal _).andThen fun _ => ?_
    refine (follows_literal _).padded.succeeds.andThen fun _ => ?_
    refine (follows_literal _).padded.andThen fun _ => ?_
    exact (follows_literal _).andThen fun _ => follows_pure _
  refine parts.mono ?_
  rintro _ ⟨_, rfl, _, ⟨_, ⟨_, ⟨a, blankA, name, named, rfl⟩, b, blankB, rfl⟩, _, ⟨_, rfl, _,
    ⟨_, marked, _, ⟨_, ⟨_, ⟨d, blankD, _, rfl, rfl⟩, e, blankE, rfl⟩, _, ⟨_, rfl, _, rfl, rfl⟩, rfl⟩,
    rfl⟩, rfl⟩, rfl⟩, rfl⟩
  rcases marked with ⟨_, ⟨c, blankC, _, rfl, rfl⟩, c', blankC', rfl⟩ | unmarked
  · have layout := OfFunction.marked (name_of_mem_names named) blankA blankB blankC
      (Blank.append blankC' blankD) blankE
    exact ⟨_, by simpa using layout⟩
  · have layout := OfFunction.unmarked (name_of_mem_names named) blankA blankB blankD blankE
    obtain rfl := unmarked
    exact ⟨_, by simpa using layout⟩

/-! ## Items -/

theorem follows_importItem : importItem.Follows Flush (texts OfItem) := by
  have parts : importItem.Follows Flush
      ({"import".toList} * blanks * ({"\"".toList} * (without ['"'] * ({"\"".toList} *
        ({";".toList} * 1))))) := by
    refine (follows_literal _).padded_flush.andThen fun _ => ?_
    refine (follows_literal _).andThen fun _ => ?_
    refine (follows_upTo _).andThen fun _ => ?_
    refine (follows_literal _).andThen fun _ => ?_
    exact (follows_literal _).andThen fun _ => follows_pure _
  refine parts.mono ?_
  rintro _ ⟨_, ⟨_, rfl, a, blank, rfl⟩, _, ⟨_, rfl, _, ⟨path, unquoted, _, ⟨_, rfl, _,
    ⟨_, rfl, _, rfl, rfl⟩, rfl⟩, rfl⟩, rfl⟩, rfl⟩
  have layout := OfItem.importing blank (not_mem_of_mem_without unquoted)
  exact ⟨_, by simpa using layout⟩

theorem follows_pragmaItem : pragmaItem.Follows On (texts OfItem) := by
  have parts : pragmaItem.Follows On
      ({"pragma".toList} * (without [';'] * ({";".toList} * 1))) := by
    refine (follows_literal _).andThen fun _ => ?_
    refine (follows_upTo _).andThen fun _ => ?_
    exact (follows_literal _).andThen fun _ => follows_pure _
  refine parts.mono ?_
  rintro _ ⟨_, rfl, _, ⟨body, unclosed, _, ⟨_, rfl, _, rfl, rfl⟩, rfl⟩, rfl⟩
  have layout := OfItem.pragma (not_mem_of_mem_without unclosed)
  exact ⟨_, by simpa using layout⟩

theorem follows_contractItem : contractItem.Follows Flush (texts OfItem) := by
  have parts : contractItem.Follows Flush
      ({"contract".toList} * blanks * (names * (blanks * {"\x7b".toList} * blanks *
        (texts (Row (Spaced OfFunction)) * ({"\x7d".toList} * 1))))) := by
    refine (follows_literal _).padded_flush.andThen fun _ => ?_
    refine follows_identifier.andThen fun _ => ?_
    refine (follows_literal _).padded.andThen fun _ => ?_
    refine (follows_functionDecl.spaced.row consuming_member).andThen fun _ => ?_
    exact (follows_literal _).andThen fun _ => follows_pure _
  refine parts.mono ?_
  rintro _ ⟨_, ⟨_, rfl, a, blankA, rfl⟩, _, ⟨name, named, _, ⟨_, ⟨_, ⟨b, blankB, _, rfl, rfl⟩, c,
    blankC, rfl⟩, _, ⟨body, ⟨members, row⟩, _, ⟨_, rfl, _, rfl, rfl⟩, rfl⟩, rfl⟩, rfl⟩, rfl⟩
  have layout := OfContract.mk (name_of_mem_names named) blankA blankB blankC row
  exact ⟨_, .contract (by simpa using layout)⟩

theorem follows_functionItem : functionItem.Follows On (texts OfItem) := by
  have : Nonempty FunctionDecl := ⟨⟨"", false⟩⟩
  have parts : functionItem.Follows On (texts OfFunction * 1) :=
    follows_functionDecl.andThen fun _ => follows_pure _
  refine parts.mono ?_
  rw [mul_one]
  rintro w ⟨decl, layout⟩
  exact ⟨_, .function layout⟩

theorem follows_item : item.Follows On (texts (Spaced OfItem)) := by
  have choice := follows_importItem.orElse (follows_pragmaItem.orElse
    (follows_contractItem.orElse follows_functionItem))
  refine Follows.spaced (choice.mono ?_)
  simp

/-! ## Units -/

/-- The path of a unit and the mark after it. -/
def pathThenMark : Reader String := do
  let path ← upTo [' ', '\n']
  literal " ===="
  return String.ofList path

/-- A path, which white space may precede, and the mark after it. -/
def markedPaths : Language Char :=
  {w | ∃ a path, Blank a ∧ Path path ∧ w = a ++ path ++ " ====".toList}

theorem mem_markedPaths {a path : List Char} (blank : Blank a) (named : Path path) :
    a ++ path ++ " ====".toList ∈ markedPaths :=
  ⟨a, path, blank, named, rfl⟩

theorem path_singleton : Path ['a'] :=
  .mk (by decide) (by simp)

theorem path_of_flush {c : Char} {cs rest : List Char} (flush : Flush (c :: cs ++ rest))
    (inside : ∀ d ∈ c :: cs, d ∉ [' ', '\n']) : Path (c :: cs) := by
  have parts : ∀ d ∈ c :: cs, d ≠ ' ' ∧ d ≠ '\n' := by
    intro d member
    simpa using inside d member
  exact .mk (ink_of_flush_cons flush) parts

/-- Where white space has been skipped, neither a space nor a newline comes next. -/
theorem head?_of_flush {s : List Char} (flush : Flush s) : ∀ d ∈ s.head?, d ∉ [' ', '\n'] := by
  intro d first stop
  cases s with
  | nil => cases first
  | cons c s =>
    obtain rfl : c = d := by simpa using first
    refine ink_of_flush_cons flush ?_
    simp only [List.mem_cons, List.not_mem_nil, or_false] at stop
    rcases stop with rfl | rfl
    · decide
    · decide

/-- No path stands only where the text is at an end. -/
theorem eq_nil_of_takes_upTo_nil {s rest : List Char} (flush : Flush s)
    (took : (upTo [' ', '\n']).Takes s [] rest) : s = [] ∧ rest = [] := by
  obtain ⟨rfl, -, stop⟩ := takes_upTo.1 took
  cases s with
  | nil => exact ⟨rfl, rfl⟩
  | cons c s => exact absurd (stop c rfl) (head?_of_flush flush c rfl)

/-- A path may go on where it ended, and may begin where there is none. -/
theorem viable_behind_path {s path rest : List Char} (flush : Flush s)
    (took : (upTo [' ', '\n']).Takes s path rest) : ∃ more, path ++ more ∈ markedPaths := by
  obtain ⟨rfl, inside, -⟩ := takes_upTo.1 took
  cases path with
  | nil => exact ⟨_, mem_markedPaths .nil path_singleton⟩
  | cons c cs => exact ⟨_, mem_markedPaths .nil (path_of_flush flush inside)⟩

/-- Anything of the mark may come where it is wanted. -/
theorem viable_in_mark {s path pre post rest : List Char} {d : Char} (flush : Flush s)
    (took : (upTo [' ', '\n']).Takes s path (pre ++ rest))
    (spelled : " ====".toList = pre ++ d :: post) :
    ∃ front more, s = front ++ rest ∧ front ++ d :: more ∈ markedPaths := by
  cases path with
  | nil =>
    -- a path may still come after the space that is wanted
    obtain ⟨rfl, nothing⟩ := eq_nil_of_takes_upTo_nil flush took
    obtain ⟨rfl, rfl⟩ := List.append_eq_nil_iff.1 nothing
    have blank : Blank [' '] := by simp [Blank, White]
    obtain rfl : ' ' = d := by simpa using congrArg List.head? spelled
    exact ⟨[], ['a'] ++ " ====".toList, rfl, mem_markedPaths blank path_singleton⟩
  | cons c cs =>
    obtain ⟨rfl, inside, -⟩ := takes_upTo.1 took
    have marked := mem_markedPaths .nil (path_of_flush flush inside)
    rw [spelled] at marked
    exact ⟨c :: cs ++ pre, post, by simp, by simpa using marked⟩

theorem follows_pathThenMark : pathThenMark.Follows Flush markedPaths where
  inhabited := ⟨_, mem_markedPaths .nil path_singleton⟩
  takes := by
    intro s x rest flush taken
    simp only [pathThenMark, takes_bind, takes_literal, takes_pure] at taken
    obtain ⟨path, _, took, _, _, rfl, rfl, rfl⟩ := taken
    cases path with
    | nil =>
      obtain ⟨-, impossible⟩ := eq_nil_of_takes_upTo_nil flush took
      cases impossible
    | cons c cs =>
      obtain ⟨rfl, inside, -⟩ := takes_upTo.1 took
      exact ⟨_, mem_markedPaths .nil (path_of_flush flush inside), by simp⟩
  misses := by
    intro s flush m missed
    rcases mem_misses_bind.1 missed with here | ⟨path, mid, took, later⟩
    · obtain ⟨path, rest, took, rfl⟩ := mem_misses_upTo.1 here
      obtain ⟨more, member⟩ := viable_behind_path flush took
      obtain ⟨cut, -, -⟩ := takes_upTo.1 took
      exact ⟨path, more, cut, trivial, member⟩
    · rcases mem_misses_bind.1 later with here | ⟨x, rest, -, impossible⟩
      · obtain ⟨pre, d, post, rest, spelled, rfl, -, rfl⟩ := mem_misses_literal.1 here
        obtain ⟨front, more, cut, member⟩ := viable_in_mark flush took spelled
        exact ⟨front, d :: more, cut, rfl, member⟩
      · cases impossible

theorem follows_sourceUnit : sourceUnit.Follows On (texts OfUnit) := by
  have headed : header.Follows Flush ({"==== Source:".toList} * blanks * markedPaths) :=
    (follows_literal _).padded_flush.bind (fun _ taken => flush_of_takes_padded taken)
      fun _ => follows_pathThenMark
  have parts : sourceUnit.Follows On
      (blanks * ({"==== Source:".toList} * blanks * markedPaths) * blanks *
        (texts (Row (Spaced OfItem)) * 1)) := by
    refine headed.padded.andThen fun _ => ?_
    exact (follows_item.row consuming_item).andThen fun _ => follows_pure _
  refine parts.mono ?_
  rintro _ ⟨_, ⟨_, ⟨a, blankA, _, ⟨_, ⟨_, rfl, b, blankB, rfl⟩, _, ⟨b', path, blankB', named, rfl⟩,
    rfl⟩, rfl⟩, c, blankC, rfl⟩, _, ⟨body, ⟨items, row⟩, _, rfl, rfl⟩, rfl⟩
  have layout := OfUnit.mk named blankA (Blank.append blankB blankB') blankC row
  exact ⟨_, by simpa using layout⟩

/-- The units of a program, and the white space around them. -/
def units : Reader (List SourceUnit) :=
  padded (many sourceUnit)

theorem follows_units : units.Follows On (texts OfProgram) := by
  refine (follows_sourceUnit.row consuming_sourceUnit).restrict.padded.mono ?_
  rintro _ ⟨_, ⟨a, blankA, body, ⟨xs, row⟩, rfl⟩, b, blankB, rfl⟩
  exact ⟨⟨xs⟩, .mk blankA blankB row⟩

/-! ## Steady readers -/

theorem steady_functionDecl : functionDecl.Steady := by
  refine (steady_literal _).bind fun _ => ?_
  refine steady_identifier.padded.bind fun _ => ?_
  refine (steady_literal _).bind fun _ => ?_
  refine (steady_literal _).padded.succeeds.bind fun _ => ?_
  refine (steady_literal _).padded.bind fun _ => ?_
  exact (steady_literal _).bind fun _ => steady_pure _

theorem steady_importItem : importItem.Steady := by
  refine (steady_literal _).padded.bind fun _ => ?_
  refine (steady_literal _).bind fun _ => ?_
  refine (steady_upTo _).bind fun _ => ?_
  refine (steady_literal _).bind fun _ => ?_
  exact (steady_literal _).bind fun _ => steady_pure _

theorem steady_pragmaItem : pragmaItem.Steady := by
  refine (steady_literal _).bind fun _ => ?_
  refine (steady_upTo _).bind fun _ => ?_
  exact (steady_literal _).bind fun _ => steady_pure _

theorem steady_contractItem : contractItem.Steady := by
  refine (steady_literal _).padded.bind fun _ => ?_
  refine steady_identifier.bind fun _ => ?_
  refine (steady_literal _).padded.bind fun _ => ?_
  refine (steady_functionDecl.padded.many consuming_member).bind fun _ => ?_
  exact (steady_literal _).bind fun _ => steady_pure _

theorem steady_item : item.Steady := by
  have steady_functionItem : functionItem.Steady :=
    steady_functionDecl.bind fun _ => steady_pure _
  have choice := steady_importItem.orElse (steady_pragmaItem.orElse
    (steady_contractItem.orElse steady_functionItem))
  exact choice.padded

theorem steady_header : header.Steady := by
  refine (steady_literal _).padded.bind fun _ => ?_
  refine (steady_upTo _).bind fun _ => ?_
  exact (steady_literal _).bind fun _ => steady_pure _

theorem steady_units : units.Steady := by
  have steady_sourceUnit : sourceUnit.Steady := by
    refine steady_header.padded.bind fun _ => ?_
    exact (steady_item.many consuming_item).bind fun _ => steady_pure _
  exact (steady_sourceUnit.many consuming_sourceUnit).padded

end SeedGrammar
