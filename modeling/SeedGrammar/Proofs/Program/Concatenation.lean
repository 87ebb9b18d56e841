/-
# SeedGrammar.Proofs.Program.Concatenation — programs in one text after another

A text that can be read may be followed by any other such text: no token at its end takes
in anything of the other one (`read_append`). On layouts this is plain. The rows of units
go together, and white space between them stands in front of the unit that follows it, or
at the end if there is none. Whether a greedy reader sees it the same way is settled where
readers are compared with layouts (`takes_program`).
-/
import SeedGrammar.Proofs.Program.Recognition

namespace SeedGrammar

set_option autoImplicit false

open Text.Reader Layout

/-! ## Layouts one after another -/

theorem Layout.Row.append {α : Type} {Of : α → List Char → Prop} {xs ys : List α}
    {s t : List Char} (first : Row Of xs s) (second : Row Of ys t) : Row Of (xs ++ ys) (s ++ t) := by
  induction first with
  | nil => exact second
  | cons head tail ih =>
    rw [List.append_assoc, List.cons_append]
    exact .cons head ih

/-- White space in front of a unit belongs to it. -/
theorem Layout.OfUnit.pad {unit : SourceUnit} {a s : List Char} (blank : Blank a)
    (layout : OfUnit unit s) : OfUnit unit (a ++ s) := by
  obtain ⟨named, blankA, blankB, blankC, row⟩ := layout
  simpa using OfUnit.mk named (blank.append blankA) blankB blankC row

/-- White space in front of some units belongs to the first one, and stays behind if there
is none. -/
theorem Layout.Row.pad {units : List SourceUnit} {a s : List Char} (blank : Blank a)
    (row : Row OfUnit units s) :
    ∃ body b, Row OfUnit units body ∧ Blank b ∧ a ++ s = body ++ b := by
  cases row with
  | nil => exact ⟨[], a, .nil, blank, by simp⟩
  | @cons unit units s t head tail =>
    exact ⟨a ++ s ++ t, [], .cons (head.pad blank) tail, .nil, by simp⟩

theorem Layout.OfProgram.append {p q : Program} {s t : List Char} (first : OfProgram p s)
    (second : OfProgram q t) : OfProgram ⟨p.units ++ q.units⟩ (s ++ t) := by
  cases first with
  | @mk a b bodyP unitsP blankA blankB rowP =>
  cases second with
  | @mk c d bodyQ unitsQ blankC blankD rowQ =>
  obtain ⟨body, e, row, blankE, moved⟩ := rowQ.pad (blankB.append blankC)
  have whole : a ++ bodyP ++ b ++ (c ++ bodyQ ++ d) = a ++ (bodyP ++ body) ++ (e ++ d) := by
    calc a ++ bodyP ++ b ++ (c ++ bodyQ ++ d)
        = a ++ bodyP ++ (b ++ c ++ bodyQ) ++ d := by simp only [List.append_assoc]
      _ = a ++ bodyP ++ (body ++ e) ++ d := by rw [moved]
      _ = a ++ (bodyP ++ body) ++ (e ++ d) := by simp only [List.append_assoc]
  rw [whole]
  exact .mk blankA (blankE.append blankD) (rowP.append row)

/-! ## Readings one after another -/

theorem layout_of_read {text : String} {p : Program} (read : Program.read text = .ok p) :
    OfProgram p text.toList := by
  obtain ⟨rest, taken⟩ := read_eq_ok_iff.1 read
  exact (takes_program.1 taken).2

/-- **Texts that can be read go together**: what is read from both in a row is the units
of the first and then those of the second, whatever stands where they meet. -/
theorem read_append (a b : String) (p q : Program) (readA : Program.read a = .ok p)
    (readB : Program.read b = .ok q) : Program.read (a ++ b) = .ok ⟨p.units ++ q.units⟩ := by
  apply read_of_layout
  rw [String.toList_append]
  exact (layout_of_read readA).append (layout_of_read readB)

/-- The second header stands right behind the first one. -/
theorem read_append_headers :
    let p : Program := ⟨[⟨"a", []⟩]⟩
    let q : Program := ⟨[⟨"b", [.pragma "pragma;"]⟩]⟩
    Program.read "==== Source:a ====" = .ok p ∧
      Program.read "==== Source: b ====pragma;" = .ok q ∧
        Program.read ("==== Source:a ====" ++ "==== Source: b ====pragma;") =
          .ok ⟨p.units ++ q.units⟩ := by
  intro p q
  have readA : Program.read "==== Source:a ====" = .ok p := by decide +kernel
  have readB : Program.read "==== Source: b ====pragma;" = .ok q := by decide +kernel
  exact ⟨readA, readB, read_append _ _ p q readA readB⟩

end SeedGrammar
