/-
# SeedGrammar.Program.Line — the lines that a walk writes

A walk writes lines, each of one of six kinds. `text` is where they are spelled out
for it; a text is the lines one after another. One level of indentation is four
spaces.
-/
namespace SeedGrammar

set_option autoImplicit false

inductive Line where
  /-- A blank line and the line that introduces a unit. -/
  | header (path : String)
  | importing (path : String)
  /-- A whole pragma directive. -/
  | pragma (directive : String)
  | opening (level : Nat) (name : String)
  | closing (level : Nat)
  | function (level : Nat) (name : String) (isPublic : Bool)
  deriving DecidableEq, Repr

namespace Line

def margin (level : Nat) : String :=
  String.ofList (List.replicate (4 * level) ' ')

def text : Line → String
  | header path => "\n==== Source: " ++ path ++ " ====\n"
  | importing path => "import \"" ++ path ++ "\";\n"
  | pragma directive => directive ++ "\n"
  | opening level name => margin level ++ "contract " ++ name ++ " \x7b\n"
  | closing level => margin level ++ "\x7d\n"
  | function level name isPublic =>
    margin level ++ "function " ++ name ++ "()" ++ (if isPublic then " public" else "") ++
      " pure \x7b\x7d\n"

def textOf (lines : List Line) : String :=
  String.join (lines.map text)

@[simp] theorem textOf_nil : textOf [] = "" := by
  simp [textOf]

theorem textOf_cons (line : Line) (lines : List Line) :
    textOf (line :: lines) = line.text ++ textOf lines := by
  simp [textOf]

theorem textOf_singleton (line : Line) : textOf [line] = line.text := by
  rw [textOf_cons, textOf_nil, String.append_empty]

theorem textOf_append (lines rest : List Line) :
    textOf (lines ++ rest) = textOf lines ++ textOf rest := by
  induction lines with
  | nil => simp
  | cons line lines ih => simp [textOf_cons, ih, String.append_assoc]

end Line

end SeedGrammar
