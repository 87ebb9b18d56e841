/-
# SeedGrammar.Program.Basic — test programs as data

A program is a row of source units, each a path and its items in order. `text`
writes a program out, letter by letter: every item starts at the margin, and the
members of a contract stand behind four spaces. No walk takes part in this.
-/
namespace SeedGrammar

set_option autoImplicit false

structure FunctionDecl where
  name : String
  isPublic : Bool
  deriving DecidableEq, Repr

structure ContractDecl where
  name : String
  members : List FunctionDecl
  deriving DecidableEq, Repr

inductive Item where
  /-- An import of a path. -/
  | importing (path : String)
  /-- A whole pragma directive, from its keyword to its semicolon. -/
  | pragma (directive : String)
  | contract (decl : ContractDecl)
  | function (decl : FunctionDecl)
  deriving DecidableEq, Repr

structure SourceUnit where
  path : String
  items : List Item
  deriving DecidableEq, Repr

structure Program where
  units : List SourceUnit
  deriving DecidableEq, Repr

/-! ## The items of one kind -/

namespace SourceUnit

def imports (unit : SourceUnit) : List String :=
  unit.items.filterMap fun
    | .importing path => some path
    | _ => none

def pragmas (unit : SourceUnit) : List String :=
  unit.items.filterMap fun
    | .pragma directive => some directive
    | _ => none

def contracts (unit : SourceUnit) : List ContractDecl :=
  unit.items.filterMap fun
    | .contract decl => some decl
    | _ => none

/-- The functions outside any contract. -/
def freeFunctions (unit : SourceUnit) : List FunctionDecl :=
  unit.items.filterMap fun
    | .function decl => some decl
    | _ => none

end SourceUnit

/-! ## Texts -/

def FunctionDecl.text (decl : FunctionDecl) : String :=
  "function " ++ decl.name ++ "()" ++ (if decl.isPublic then " public" else "") ++ " pure \x7b\x7d"

/-- The members stand one after another, each on a line of its own. -/
def ContractDecl.text (decl : ContractDecl) : String :=
  "contract " ++ decl.name ++ " \x7b\n" ++
    String.join (decl.members.map fun member => "    " ++ member.text ++ "\n") ++ "\x7d"

def Item.text : Item → String
  | .importing path => "import \"" ++ path ++ "\";"
  | .pragma directive => directive
  | .contract decl => decl.text
  | .function decl => decl.text

def SourceUnit.text (unit : SourceUnit) : String :=
  "\n==== Source: " ++ unit.path ++ " ====\n" ++
    String.join (unit.items.map fun item => item.text ++ "\n")

/-- The units one after another, with items at the margin. -/
def Program.text (program : Program) : String :=
  String.join (program.units.map SourceUnit.text)

end SeedGrammar
