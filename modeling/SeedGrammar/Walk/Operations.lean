/-
# SeedGrammar.Walk.Operations — the steps that walks are written with

One operation on units, one draw, or one member scope, each as a walk. An
operation that the roster refuses refuses the walk.

* `uniform n` draws from `1 … n`, `likely n` is true once in `n` times.
* `subset` flips one coin for each candidate, in their order.
* `shuffle` draws once for each batch of positions.
* `somePath` and `otherPath` choose among the sorted paths with one draw.
* `memberScope` runs a body one level deeper with functions declared as members.
-/
import SeedGrammar.Random.Shuffle
import SeedGrammar.Walk.Basic

namespace SeedGrammar.Walk

set_option autoImplicit false

variable {α : Type}

/-! ## Single actions -/

def expanding (p : Production) : Walk Unit := act (.expanding p) done

def survey : Walk Roster := act .survey done

def addUnit : Walk String := act .addUnit done

def addImport (path : String) : Walk Bool := act (.addImport path) ofExcept

def nameContract : Walk String := act .nameContract ofExcept

def nameFunction : Walk String := act .nameFunction ofExcept

def indent : Walk Unit := act .indent ofExcept

def unindent : Walk Unit := act .unindent ofExcept

def scope : Walk Scope := act .scope done

def setScope (s : Scope) : Walk Unit := act (.setScope s) done

def roll (sides : Positive) : Walk (Fin sides.val) := act (.roll sides) done

def flip : Walk Bool := act .flip done

/-! ## Looking at the roster -/

def currentPath : Walk String := do ofExcept (← survey).currentPath

def currentUnit : Walk UnitRecord := do ofExcept (← survey).currentUnit

def level : Walk Nat := do ofExcept (← survey).level

/-! ## Draws -/

/-- A number from `1` to `n`. -/
def uniform (n : Positive) : Walk Nat := do
  return (← roll n).val + 1

/-- True with probability `1 / n`. -/
def likely (n : Positive) : Walk Bool := do
  return (← uniform n) = 1

/-- The candidates that each survive the flip of a coin. -/
def subset : List α → Walk (List α)
  | [] => return []
  | x :: xs => do
    let kept ← flip
    let rest ← subset xs
    return if kept then x :: rest else rest

def rollEach : List Positive → Walk (List Nat)
  | [] => return []
  | sides :: rest => do
    let draw ← roll sides
    let draws ← rollEach rest
    return draw.val :: draws

def shuffle (xs : List α) : Walk (List α) := do
  return Shuffle.permute xs (← rollEach ((Shuffle.batches xs.length).map Shuffle.Batch.sides))

/-- One of several values, each as likely as the others. -/
def choose (xs : List α) (nonempty : 0 < xs.length) : Walk α := do
  return xs.get (← roll ⟨xs.length, nonempty⟩)

/-- One of some paths; where there are none, `required` units would have been
needed. -/
def choosePath (required : Nat) (paths : List String) : Walk String :=
  if nonempty : 0 < paths.length then
    choose paths nonempty
  else
    refuse (.tooFewUnits required 0)

/-- Any path on the roster. -/
def somePath : Walk String := do
  choosePath 1 (← survey).paths

/-- Any path on the roster but the current one. -/
def otherPath : Walk String := do
  let roster ← survey
  if roster.size < 2 then
    refuse (.tooFewUnits 2 roster.size)
  else
    let current ← ofExcept roster.currentPath
    choosePath 2 (roster.paths.filter (· ≠ current))

/-! ## Member scopes -/

/-- One level deeper, functions are members. -/
def enterMembers : Walk Unit := do
  indent
  setScope .member

/-- Functions are free again, and the unit current now goes back one level. -/
def leaveMembers : Walk Unit := do
  setScope .free
  unindent

/-- The result of a scope: what its body came to, unless the body succeeded and
only leaving was refused. -/
def settle (body : Except Error α) (left : Except Error Unit) : Except Error α :=
  match body, left with
  | .ok value, .ok () => .ok value
  | .ok _, .error e => .error e
  | .error e, _ => .error e

/-- Runs a body as the inside of a contract. The scope is left also when the
body is refused. -/
def memberScope (body : Walk α) : Walk α := do
  enterMembers
  let result ← body.attempt
  let left ← leaveMembers.attempt
  ofExcept (settle result left)

/-- A scope that cannot be entered is refused. Otherwise the body runs inside,
and the scope is left from wherever the body ended. -/
theorem run_memberScope (body : Walk α) (w : Walker) :
    (memberScope body).run w =
      match enterMembers.run w with
      | (.error e, w) => (.error e, w)
      | (.ok (), w) =>
        (settle (body.run w).1 (leaveMembers.run (body.run w).2).1,
          (leaveMembers.run (body.run w).2).2) := by
  unfold memberScope
  rw [run_bind]
  rcases enterMembers.run w with ⟨_ | _, inside⟩
  · rfl
  · simp only [run_bind, run_attempt, run_ofExcept]

end SeedGrammar.Walk
