/-
# SeedGrammar.Program.Layout — which texts lay out a program

The grammar of program texts, as relations between values and characters. White
space stands freely between tokens and next to items, and nothing is said about
how a text is read. A path has no space and no newline in it and does not begin
with white space; an imported path has no quote and a pragma directive no
semicolon but its last character.
-/
import SeedGrammar.Program.Basic
import SeedGrammar.Text.Blank

namespace SeedGrammar.Layout

set_option autoImplicit false

variable {α : Type}

/-! ## Tokens -/

/-- White space, or nothing. -/
def Blank (s : List Char) : Prop :=
  ∀ c ∈ s, Text.White c

/-- A letter of ASCII. -/
def Letter (c : Char) : Prop :=
  'A' ≤ c ∧ c ≤ 'Z' ∨ 'a' ≤ c ∧ c ≤ 'z'

/-- A digit of ASCII. -/
def Digit (c : Char) : Prop :=
  '0' ≤ c ∧ c ≤ '9'

/-- What a name is made of behind its first character. -/
def NamePart (c : Char) : Prop :=
  Letter c ∨ Digit c ∨ c = '_'

instance (c : Char) : Decidable (Letter c) :=
  inferInstanceAs (Decidable (_ ∨ _))

instance (c : Char) : Decidable (Digit c) :=
  inferInstanceAs (Decidable (_ ∧ _))

instance (c : Char) : Decidable (NamePart c) :=
  inferInstanceAs (Decidable (_ ∨ _))

/-- A letter or underscore, then letters, digits and underscores. -/
inductive Name : List Char → Prop where
  | mk {c : Char} {cs : List Char} (start : Letter c ∨ c = '_') (parts : ∀ d ∈ cs, NamePart d) :
      Name (c :: cs)

/-- Characters up to a space or a newline, which white space before them cannot
have taken. -/
inductive Path : List Char → Prop where
  | mk {c : Char} {cs : List Char} (start : ¬ Text.White c)
      (parts : ∀ d ∈ c :: cs, d ≠ ' ' ∧ d ≠ '\n') : Path (c :: cs)

/-- A row of layouts, one for each value. -/
inductive Row (Of : α → List Char → Prop) : List α → List Char → Prop where
  | nil : Row Of [] []
  | cons {x : α} {xs : List α} {s t : List Char} (head : Of x s) (tail : Row Of xs t) :
      Row Of (x :: xs) (s ++ t)

/-- A layout with white space around it. -/
inductive Spaced (Of : α → List Char → Prop) : α → List Char → Prop where
  | mk {x : α} {before s after : List Char} (blankBefore : Blank before) (layout : Of x s)
      (blankAfter : Blank after) : Spaced Of x (before ++ s ++ after)

/-! ## Items -/

inductive OfFunction : FunctionDecl → List Char → Prop where
  | unmarked {name a b c d : List Char} (named : Name name) (blankA : Blank a) (blankB : Blank b)
      (blankC : Blank c) (blankD : Blank d) :
      OfFunction ⟨String.ofList name, false⟩
        ("function".toList ++ a ++ name ++ b ++ "()".toList ++ c ++ "pure".toList ++ d ++
          "\x7b\x7d".toList)
  | marked {name a b c d e : List Char} (named : Name name) (blankA : Blank a)
      (blankB : Blank b) (blankC : Blank c) (blankD : Blank d) (blankE : Blank e) :
      OfFunction ⟨String.ofList name, true⟩
        ("function".toList ++ a ++ name ++ b ++ "()".toList ++ c ++ "public".toList ++ d ++
          "pure".toList ++ e ++ "\x7b\x7d".toList)

inductive OfContract : ContractDecl → List Char → Prop where
  | mk {name a b c body : List Char} {members : List FunctionDecl} (named : Name name)
      (blankA : Blank a) (blankB : Blank b) (blankC : Blank c)
      (rows : Row (Spaced OfFunction) members body) :
      OfContract ⟨String.ofList name, members⟩
        ("contract".toList ++ a ++ name ++ b ++ "\x7b".toList ++ c ++ body ++ "\x7d".toList)

inductive OfItem : Item → List Char → Prop where
  | importing {path a : List Char} (blank : Blank a) (unquoted : '"' ∉ path) :
      OfItem (.importing (String.ofList path)) ("import".toList ++ a ++ '"' :: path ++ "\";".toList)
  | pragma {body : List Char} (unclosed : ';' ∉ body) :
      OfItem (.pragma (String.ofList ("pragma".toList ++ body ++ [';'])))
        ("pragma".toList ++ body ++ [';'])
  | contract {decl : ContractDecl} {s : List Char} (layout : OfContract decl s) :
      OfItem (.contract decl) s
  | function {decl : FunctionDecl} {s : List Char} (layout : OfFunction decl s) :
      OfItem (.function decl) s

/-! ## Units and programs -/

inductive OfUnit : SourceUnit → List Char → Prop where
  | mk {path a b c body : List Char} {items : List Item} (named : Path path) (blankA : Blank a)
      (blankB : Blank b) (blankC : Blank c) (rows : Row (Spaced OfItem) items body) :
      OfUnit ⟨String.ofList path, items⟩
        (a ++ "==== Source:".toList ++ b ++ path ++ " ====".toList ++ c ++ body)

inductive OfProgram : Program → List Char → Prop where
  | mk {a b body : List Char} {units : List SourceUnit} (blankA : Blank a) (blankB : Blank b)
      (rows : Row OfUnit units body) : OfProgram ⟨units⟩ (a ++ body ++ b)

end SeedGrammar.Layout
