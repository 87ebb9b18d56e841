/-
# SeedGrammar.Walk.Basic — computations that ask a walker to act

A `Walk` is a tree. At each node it asks for one action and goes on with the
answer; a leaf is the value reached or the error that stopped the walk. Walks
look at nothing but the answers, so all that can happen along any sequence of
operations happens along some branch of some walk.

A `Walker` carries what the actions work on: the dice, the roster of units and
the scope in which functions are declared. `run` follows the one branch that a
walker's answers pick out. The walker that it ends with is returned also when
the walk is refused, and `attempt` goes on from there.
-/
import SeedGrammar.Random.Dice
import SeedGrammar.Roster

namespace SeedGrammar

set_option autoImplicit false

/-! ## Actions and who performs them -/

structure Walker where
  dice : Dice
  roster : Roster := {}
  scope : Scope := .free
  deriving DecidableEq

/-- No units yet, functions free, and dice that a seed decides. -/
def Walker.ofSeed (seed : UInt64) : Walker :=
  { dice := .ofSeed seed }

inductive Action where
  /-- Notes that a production is about to be expanded. -/
  | expanding (production : Production)
  /-- Looks at the roster. -/
  | survey
  | addUnit
  | addImport (path : String)
  | nameContract
  | nameFunction
  | indent
  | unindent
  /-- Looks at the scope. -/
  | scope
  | setScope (scope : Scope)
  | roll (sides : Positive)
  | flip
  deriving DecidableEq

namespace Action

abbrev Answer : Action → Type
  | expanding _ => Unit
  | survey => Roster
  | addUnit => String
  | addImport _ => Except Error Bool
  | nameContract => Except Error String
  | nameFunction => Except Error String
  | indent => Except Error Unit
  | unindent => Except Error Unit
  | scope => Scope
  | setScope _ => Unit
  | roll sides => Fin sides.val
  | flip => Bool

def perform : (action : Action) → Walker → action.Answer × Walker
  | expanding _, w => ((), w)
  | survey, w => (w.roster, w)
  | addUnit, w => (w.roster.addUnit.1, { w with roster := w.roster.addUnit.2 })
  | addImport path, w =>
    ((w.roster.addImport path).1, { w with roster := (w.roster.addImport path).2 })
  | nameContract, w => (w.roster.nameContract.1, { w with roster := w.roster.nameContract.2 })
  | nameFunction, w => (w.roster.nameFunction.1, { w with roster := w.roster.nameFunction.2 })
  | indent, w => (w.roster.indent.1, { w with roster := w.roster.indent.2 })
  | unindent, w => (w.roster.unindent.1, { w with roster := w.roster.unindent.2 })
  | scope, w => (w.scope, w)
  | setScope s, w => ((), { w with scope := s })
  | roll sides, w => ((w.dice.roll sides).1, { w with dice := (w.dice.roll sides).2 })
  | flip, w => (w.dice.coin.1, { w with dice := w.dice.coin.2 })

end Action

/-! ## Walks -/

inductive Walk (α : Type) where
  | done (value : α)
  | refuse (error : Error)
  | act (action : Action) (next : action.Answer → Walk α)

namespace Walk

variable {α β : Type}

def bind : Walk α → (α → Walk β) → Walk β
  | done value, next => next value
  | refuse e, _ => refuse e
  | act action rest, next => act action fun answer => (rest answer).bind next

instance : Monad Walk where
  pure := done
  bind := bind

/-- What a walker comes to, and the walker afterwards. -/
def run : Walk α → Walker → Except Error α × Walker
  | done value, w => (.ok value, w)
  | refuse e, w => (.error e, w)
  | act action next, w => (next (action.perform w).1).run (action.perform w).2

/-- The same walk with its refusal as its value. -/
def attempt : Walk α → Walk (Except Error α)
  | done value => done (.ok value)
  | refuse e => done (.error e)
  | act action next => act action fun answer => (next answer).attempt

def ofExcept : Except Error α → Walk α
  | .ok value => done value
  | .error e => refuse e

/-! ## Running -/

@[simp] theorem run_pure (value : α) (w : Walker) : (pure value : Walk α).run w = (.ok value, w) :=
  rfl

@[simp] theorem run_refuse (e : Error) (w : Walker) :
    (refuse e : Walk α).run w = (.error e, w) :=
  rfl

@[simp] theorem run_act (action : Action) (next : action.Answer → Walk α) (w : Walker) :
    (act action next).run w = (next (action.perform w).1).run (action.perform w).2 :=
  rfl

/-- A sequence runs its second part from where the first part ended, and not at
all if the first part was refused. -/
theorem run_bind (walk : Walk α) (next : α → Walk β) (w : Walker) :
    (walk >>= next).run w =
      match walk.run w with
      | (.ok value, w) => (next value).run w
      | (.error e, w) => (.error e, w) := by
  induction walk generalizing w with
  | done value => rfl
  | refuse e => rfl
  | act action rest ih => exact ih _ _

/-- An attempt ends with the same walker and is itself never refused. -/
theorem run_attempt (walk : Walk α) (w : Walker) :
    walk.attempt.run w = (.ok (walk.run w).1, (walk.run w).2) := by
  induction walk generalizing w with
  | done value => rfl
  | refuse e => rfl
  | act action rest ih => exact ih _ _

@[simp] theorem run_ofExcept (result : Except Error α) (w : Walker) :
    (ofExcept result).run w = (result, w) := by
  cases result <;> rfl

theorem bind_done (walk : Walk α) : walk.bind done = walk := by
  induction walk with
  | done value => rfl
  | refuse e => rfl
  | act action rest ih => simp only [bind, ih]

theorem bind_bind {γ : Type} (walk : Walk α) (f : α → Walk β) (g : β → Walk γ) :
    (walk.bind f).bind g = walk.bind fun value => (f value).bind g := by
  induction walk with
  | done value => rfl
  | refuse e => rfl
  | act action rest ih => simp only [bind, ih]

instance : LawfulMonad Walk :=
  LawfulMonad.mk' Walk bind_done (fun _ _ => rfl) bind_bind

end Walk

end SeedGrammar
