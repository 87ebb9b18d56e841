/-
# SeedGrammar.Proofs.Generate.Reuse — a grammar in use is as good as a new one

Walkers have dice and rosters of their own, but all walkers in one grammar share the scope
in which functions are declared, and it outlives them (`Commons`). Whatever a walker does
to the scope, it is free again in the end: expansions free it (`keeps_expand`), and a
member scope frees it when it is left, also after a body that was refused or that has set
it to anything. So a seed gives in a grammar that has been used what it gives in a new one
(`write_of_reused`).
-/
import SeedGrammar.Proofs.Generate.Outcome
import SeedGrammar.Proofs.Grammar.Balance
import SeedGrammar.Script

namespace SeedGrammar

set_option autoImplicit false

open Walk

/-! ## Uses of a grammar -/

/-- What a walker may do in a grammar. The body of a member scope is any function of the
walker, so that it may act in other ways than walks do, and have others walk in the same
grammar meanwhile. -/
inductive Use : Type 1 where
  | expand (p : Production)
  | descend (children : List Child)
  | memberScope {α : Type} (body : Walker → Except Error α × Walker)

/-- The walker after a use, also if it was refused. -/
def Use.carryOut (g : Grammar) : Use → Walker → Walker
  | .expand p, w => ((g.expand p).run w).2
  | .descend children, w => ((SeedGrammar.descend (g.offers children)).run w).2
  | .memberScope body, w => (within body w).2

/-- Functions are free after every use if they were free before it. -/
theorem Use.scope_carryOut (g : Grammar) (use : Use) {w : Walker} (free : w.scope = .free) :
    (use.carryOut g w).scope = .free := by
  cases use with
  | expand p => exact (keeps_expand g p w).free free
  | descend children => exact (keeps_descend g children w).free free
  | memberScope body =>
    show (within body w).2.scope = .free
    rcases within_cases body w with ⟨e, refused⟩ | ⟨inner, result, ended, -, -, left⟩
    · rw [refused]
      exact free
    · rw [left]

/-! ## A grammar with its scope -/

/-- What all walkers in one grammar have in common. -/
structure Commons where
  grammar : Grammar := {}
  scope : Scope := .free

/-- A use by a walker with dice and a roster of its own. -/
structure Usage : Type 1 where
  dice : Dice
  roster : Roster
  use : Use

inductive Commons.Event : Type 1 where
  | setup (limits : Limits)
  | use (usage : Usage)

namespace Commons

def setup (c : Commons) (limits : Limits) : Except Error Unit × Commons :=
  ((c.grammar.setup limits).1, { c with grammar := (c.grammar.setup limits).2 })

/-- Of a walker only the scope is left behind. -/
def use (c : Commons) (usage : Usage) : Commons :=
  { c with scope := (usage.use.carryOut c.grammar ⟨usage.dice, usage.roster, c.scope⟩).scope }

def after (c : Commons) : Event → Commons
  | .setup limits => (c.setup limits).2
  | .use usage => c.use usage

/-- One event after another. -/
def replay (c : Commons) (events : List Event) : Commons :=
  events.foldl after c

/-- The test program that a seed gives here. -/
def write (c : Commons) (seed : UInt64) : Except Error String :=
  ((c.grammar.expand .testCase).run ⟨.ofSeed seed, {}, c.scope⟩).1.map Line.textOf

theorem scope_after {c : Commons} (free : c.scope = .free) (event : Event) :
    (c.after event).scope = .free := by
  cases event with
  | setup limits => exact free
  | use usage => exact usage.use.scope_carryOut c.grammar free

/-- Functions are free after any history. -/
theorem scope_replay {c : Commons} (free : c.scope = .free) (events : List Event) :
    (c.replay events).scope = .free := by
  induction events generalizing c with
  | nil => exact free
  | cons event events ih => exact ih (scope_after free event)

/-- Uses leave the weights as they were wired. -/
theorem grammar_replay_uses (c : Commons) (usages : List Usage) :
    (c.replay (usages.map .use)).grammar = c.grammar := by
  induction usages generalizing c with
  | nil => rfl
  | cons usage usages ih => exact ih (c.use usage)

end Commons

/-- **Nothing leaks from one walk into the next.** Once limits are wired, a seed gives the
program that it decides within these limits, whatever happened before and whatever use was
made of the grammar since. -/
theorem write_of_reused (seed : UInt64) (c : Commons) (free : c.scope = .free)
    (before : List Commons.Event) (limits : Limits)
    (wired : ((c.replay before).setup limits).1 = .ok ()) (usages : List Usage) :
    ∃ text, generateWith seed limits = .ok text ∧
      (((c.replay before).setup limits).2.replay (usages.map .use)).write seed = .ok text := by
  have accepted : limits.Accepted := Limits.accepted_of_setup wired
  obtain ⟨program, -, generated, -⟩ := generateWith_of_accepted accepted seed
  refine ⟨program.text, generated, ?_⟩
  have freeBefore : (c.replay before).scope = .free := Commons.scope_replay free before
  have freeAgain : (((c.replay before).setup limits).2.replay (usages.map .use)).scope = .free :=
    Commons.scope_replay (Commons.scope_after freeBefore (.setup limits)) _
  have weights : (((c.replay before).setup limits).2.replay (usages.map .use)).grammar =
      limits.grammar accepted := by
    rw [Commons.grammar_replay_uses]
    exact congrArg Prod.snd (Grammar.setup_of_accepted _ accepted)
  rw [generateWith_eq_run accepted, Grammar.setup_of_accepted {} accepted] at generated
  unfold Commons.write
  rw [weights, freeAgain]
  exact generated

/-- After limits that were refused, and after the scope of a contract whose body was
refused and left functions as members. -/
theorem write_of_reused_after_refusals :
    let c : Commons := {}
    let before : List Commons.Event := [.setup { units := 1, imports := 0 }]
    let refusedBody : Walker → Except Error Unit × Walker :=
      fun w => (.error .noUnit, { w with scope := .member })
    let usages : List Usage :=
      [⟨.ofSeed 1, (Roster.addUnit {}).2, .memberScope refusedBody⟩, ⟨.ofSeed 2, {}, .expand .contract⟩]
    c.scope = .free ∧ ((c.replay before).setup {}).1 = .ok () ∧
      ∃ text, generateWith 42 {} = .ok text ∧
        (((c.replay before).setup {}).2.replay (usages.map .use)).write 42 = .ok text := by
  intro c before refusedBody usages
  exact ⟨rfl, rfl, write_of_reused 42 c rfl before {} rfl usages⟩

end SeedGrammar
