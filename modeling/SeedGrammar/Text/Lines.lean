/-
# SeedGrammar.Text.Lines — a text cut after each newline

The last line may lack its newline, and there is no line after the last newline.
The cut is the same for characters and for bytes.
-/
namespace SeedGrammar.Text

set_option autoImplicit false

variable {α : Type} [DecidableEq α]

def splitLines (newline : α) : List α → List (List α)
  | [] => []
  | c :: cs =>
    if c = newline then
      [] :: splitLines newline cs
    else
      match splitLines newline cs with
      | [] => [[c]]
      | line :: lines => (c :: line) :: lines

theorem splitLines_ne_nil (newline : α) {cs : List α} (nonempty : cs ≠ []) :
    splitLines newline cs ≠ [] := by
  cases cs with
  | nil => exact absurd rfl nonempty
  | cons c cs =>
    rw [splitLines]
    split
    · simp
    · split <;> simp

/-- Text that ends in a newline is cut without regard to what follows it. -/
theorem splitLines_append (newline : α) (front rest : List α) :
    splitLines newline (front ++ newline :: rest) =
      splitLines newline (front ++ [newline]) ++ splitLines newline rest := by
  induction front with
  | nil => simp [splitLines]
  | cons c cs ih =>
    by_cases cut : c = newline
    · simp [splitLines, cut, ih]
    · simp only [List.cons_append, splitLines, if_neg cut, ih]
      cases first : splitLines newline (cs ++ [newline]) with
      | nil => exact absurd first (splitLines_ne_nil newline (by simp))
      | cons line lines => rfl

end SeedGrammar.Text
