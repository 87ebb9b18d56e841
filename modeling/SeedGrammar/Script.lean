/-
# SeedGrammar.Script — walks put together by hand

A script is a list of commands that one walker carries out in turn: operations
on units, draws, expansions, and member scopes with scripts of their own. Each
command is reported together with the state of the walker after it (`Glance`).

A refused command ends its script, unless it is marked as tolerated; the script
of a member scope that ended so is what that scope's body was refused with. A
draw that makes no sense (`Misuse`) is reported, draws nothing and never ends a
script.
-/
import SeedGrammar.Grammar.Expansion

namespace SeedGrammar.Script

set_option autoImplicit false

open Walk

/-! ## Commands -/

mutual

inductive Command where
  | addUnit
  | currentPath
  | level
  | paths
  | size
  | unit (path : String)
  | currentUnit
  | somePath
  | otherPath
  | addImport (path : String)
  /-- Whether the current unit imports a path. -/
  | isImported (path : String)
  | nameContract
  | nameFunction
  | indent
  | unindent
  | describe
  | uniform (n : Nat)
  | likely (n : Nat)
  /-- A subset of so many candidates. -/
  | subset (count : Nat)
  /-- An order of so many elements. -/
  | shuffle (count : Nat)
  | setScope (scope : Scope)
  /-- Takes up fresh dice. -/
  | reseed (seed : UInt64)
  /-- Forgets every unit. -/
  | clear
  | production (p : Production)
  | children (p : Production)
  | expand (p : Production)
  /-- Descends into children declared for the occasion. -/
  | descend (parent : Production) (children : List (Production × Nat))
  | memberScope (body : Commands)

inductive Commands where
  | nil
  | cons (tolerated : Bool) (command : Command) (rest : Commands)

end

/-- Every command of a list, and none ends the script. -/
def Commands.tolerating : List Command → Commands
  | [] => .nil
  | command :: rest => .cons true command (tolerating rest)

/-! ## Reports -/

inductive Reply where
  | nothing
  | text (text : String)
  | number (n : Nat)
  | truth (b : Bool)
  | paths (paths : List String)
  | size (n : Nat)
  | unit (unit : Option UnitRecord)
  | production (p : Production)
  | children (children : List Child)
  /-- Positions in a list of candidates. -/
  | positions (positions : List Nat)

/-- A draw with no outcome to draw from. -/
inductive Misuse where
  | emptyRange
  | emptyChoice
  deriving DecidableEq

def Misuse.message : Misuse → String
  | emptyRange => "uniform distribution over an empty range"
  | emptyChoice => "subset of an empty candidate set"

inductive Outcome where
  | answered (reply : Reply)
  | refused (error : Error)
  | misused (misuse : Misuse)

/-- What can be seen of a walker at once. -/
structure Glance where
  current : Option String
  unit : Option UnitRecord
  scope : Scope

def Glance.of (w : Walker) : Glance :=
  ⟨w.roster.current, w.roster.current.bind w.roster.unit?, w.scope⟩

/-- What a command came to, the walker after it, and the reports from inside it
if it is a member scope. -/
inductive Report where
  | mk (outcome : Outcome) (after : Glance) (body : Option (List Report))

namespace Report

def outcome : Report → Outcome
  | mk outcome _ _ => outcome

def after : Report → Glance
  | mk _ after _ => after

def body : Report → Option (List Report)
  | mk _ _ body => body

end Report

/-! ## Carrying out -/

def Outcome.ofExcept : Except Error Reply → Outcome
  | .ok reply => .answered reply
  | .error e => .refused e

/-- The error that ends a script, if this outcome is one. -/
def Outcome.toExcept : Outcome → Except Error Unit
  | .refused e => .error e
  | .answered _ => .ok ()
  | .misused _ => .ok ()

/-- Children as declared one by one; the first that is refused decides. -/
def declareAll (parent : Production) : List (Production × Nat) → Except Error (List Child)
  | [] => .ok []
  | (production, weight) :: rest => do
    let child ← Child.declare parent production weight
    return child :: (← declareAll parent rest)

/-- A walk carried out, and its value told as a reply. -/
def tell {α : Type} (walk : Walk α) (reply : α → Reply) (w : Walker) : Outcome × Walker :=
  let (result, w) := walk.run w
  (.ofExcept (result.map reply), w)

/-- A draw from `n` outcomes, where there are any. -/
def tellDraw {α : Type} (n : Nat) (walk : Positive → Walk α) (reply : α → Reply) (w : Walker) :
    Outcome × Walker :=
  if pos : 0 < n then
    tell (walk ⟨n, pos⟩) reply w
  else
    (.misused .emptyRange, w)

mutual

/-- Carries out one command. -/
def Command.run (g : Grammar) : Command → Walker → Report × Walker
  | .memberScope body, w =>
    match enterMembers.run w with
    | (.error e, w) => (.mk (.refused e) (.of w) (some []), w)
    | (.ok (), w) =>
      let (reports, ended, w) := body.run g w
      let (left, w) := leaveMembers.run w
      (.mk (.ofExcept ((settle ended left).map fun _ => .nothing)) (.of w) (some reports), w)
  | .addUnit, w => report (tell Walk.addUnit .text w)
  | .currentPath, w => report (tell Walk.currentPath .text w)
  | .level, w => report (tell Walk.level .number w)
  | .paths, w => report (tell survey (.paths ·.paths) w)
  | .size, w => report (tell survey (.size ·.size) w)
  | .unit path, w => report (tell survey (.unit <| ·.unit? path) w)
  | .currentUnit, w => report (tell Walk.currentUnit (.unit <| some ·) w)
  | .somePath, w => report (tell Walk.somePath .text w)
  | .otherPath, w => report (tell Walk.otherPath .text w)
  | .addImport path, w => report (tell (Walk.addImport path) .truth w)
  | .isImported path, w => report (tell Walk.currentUnit (.truth <| ·.imports.contains path) w)
  | .nameContract, w => report (tell Walk.nameContract .text w)
  | .nameFunction, w => report (tell Walk.nameFunction .text w)
  | .indent, w => report (tell Walk.indent (fun _ => .nothing) w)
  | .unindent, w => report (tell Walk.unindent (fun _ => .nothing) w)
  | .describe, w => report (tell survey (.text ·.describe) w)
  | .uniform n, w => report (tellDraw n Walk.uniform .number w)
  | .likely n, w => report (tellDraw n Walk.likely .truth w)
  | .subset 0, w => report (.misused .emptyChoice, w)
  | .subset count, w => report (tell (Walk.subset (List.range count)) .positions w)
  | .shuffle count, w => report (tell (Walk.shuffle (List.range count)) .positions w)
  | .setScope scope, w => report (tell (Walk.setScope scope) (fun _ => .nothing) w)
  | .reseed seed, w => report (.answered .nothing, { w with dice := .ofSeed seed })
  | .clear, w => report (.answered .nothing, { w with roster := {} })
  | .production p, w => report (.answered (.production p), w)
  | .children p, w => report (.answered (.children (g.children p)), w)
  | .expand p, w => report (tell (g.expand p) (.text <| Line.textOf ·) w)
  | .descend parent children, w =>
    match declareAll parent children with
    | .error e => report (.refused e, w)
    | .ok children => report (tell (SeedGrammar.descend (g.offers children)) (.text <| Line.textOf ·) w)
where
  /-- The report on a command that holds no others. -/
  report : Outcome × Walker → Report × Walker
    | (outcome, w) => (.mk outcome (.of w) none, w)

/-- Carries out commands up to the first that is refused and not tolerated. -/
def Commands.run (g : Grammar) : Commands → Walker → List Report × Except Error Unit × Walker
  | .nil, w => ([], .ok (), w)
  | .cons tolerated command rest, w =>
    let (report, w) := command.run g w
    match tolerated, report.outcome.toExcept with
    | false, .error e => ([report], .error e, w)
    | _, _ =>
      let (reports, ended, w) := rest.run g w
      (report :: reports, ended, w)

end

end SeedGrammar.Script
