/-
# SeedGrammar.Proofs.Generate.Outcome — when a seed and limits decide a program

No walk from the test case is ever refused, so the limits alone decide whether
there is a program (`generateWith_outcome`). Where there is one, it is the text of
a program that the walk has kept records of (`generateWith_of_accepted`), with units
of the grammar and no more of them than it allows (`generateWith_built`).
-/
import SeedGrammar.Generate
import SeedGrammar.Proofs.Grammar.Bookkeeping
import SeedGrammar.Proofs.Grammar.Wiring

namespace SeedGrammar

set_option autoImplicit false

/-- A run of a test case by a fresh walker, with its end. -/
theorem run_built (g : Grammar) (seed : UInt64) :
    ∃ program rs dice, (g.expand .testCase).run (.ofSeed seed) =
        (.ok (Program.lines program), (Site.between rs).walker dice) ∧
      BuiltEach g program.units rs ∧ rs.length ≤ g.unitLimit := by
  obtain ⟨lines, site, dice, ran, program, rs, rfl, rfl, built⟩ :=
    built_of_testCase g (.ofSeed seed)
  exact ⟨program, rs, dice, ran, built⟩

theorem run_testCase (g : Grammar) (seed : UInt64) :
    ∃ program rs dice, (g.expand .testCase).run (.ofSeed seed) =
        (.ok (Program.lines program), (Site.between rs).walker dice) ∧
      KeptEach program.units rs := by
  obtain ⟨program, rs, dice, ran, ⟨kept, -⟩, -⟩ := run_built g seed
  exact ⟨program, rs, dice, ran, kept⟩

theorem generateWith_of_refused {limits : Limits} {e : Error} (refused : limits.refusal = some e)
    (seed : UInt64) : generateWith seed limits = .error e := by
  have answer := Grammar.setup_fst {} limits
  rw [refused] at answer
  unfold generateWith
  rcases wired : Grammar.setup {} limits with ⟨result, g⟩
  rw [wired] at answer
  obtain rfl : result = .error e := answer
  rfl

/-- Accepted limits are wired, and the program is the end of a run in the grammar. -/
theorem generateWith_eq_run {limits : Limits} (accepted : limits.Accepted) (seed : UInt64) :
    generateWith seed limits =
      (((Grammar.setup {} limits).2.expand .testCase).run (.ofSeed seed)).1.map Line.textOf := by
  have answer := Grammar.setup_fst {} limits
  rw [limits.refusal_eq_none_iff.2 accepted] at answer
  unfold generateWith
  rcases wired : Grammar.setup {} limits with ⟨result, g⟩
  rw [wired] at answer
  obtain rfl : result = .ok () := answer
  rfl

/-- Accepted limits give a program of the grammar that they wire. -/
theorem generateWith_built {limits : Limits} (accepted : limits.Accepted) (seed : UInt64) :
    ∃ program rs, generateWith seed limits = .ok (Program.text program) ∧
      BuiltEach (limits.grammar accepted) program.units rs ∧ rs.length ≤ limits.units := by
  obtain ⟨program, rs, dice, ran, built, few⟩ := run_built (limits.grammar accepted) seed
  refine ⟨program, rs, ?_, built, few⟩
  rw [generateWith_eq_run accepted, Grammar.setup_of_accepted {} accepted, ran]
  exact congrArg Except.ok program.textOf_lines

theorem generateWith_of_accepted {limits : Limits} (accepted : limits.Accepted) (seed : UInt64) :
    ∃ program rs, generateWith seed limits = .ok (Program.text program) ∧
      KeptEach program.units rs := by
  obtain ⟨program, rs, generated, ⟨kept, -⟩, -⟩ := generateWith_built accepted seed
  exact ⟨program, rs, generated, kept⟩

/-- **Limits alone decide whether there is a program.** There is one exactly if all
weights are allowed; else the first that is not is refused, whatever the seed. No
walk is refused in any grammar, with any dice. -/
theorem generateWith_outcome (seed : UInt64) (limits : Limits) :
    ((∃ text, generateWith seed limits = .ok text) ↔ limits.Accepted) ∧
      (∀ e, generateWith seed limits = .error e ↔ limits.refusal = some e) ∧
        ∀ (g : Grammar) (dice : Dice),
          ∃ lines, ((g.expand .testCase).run ⟨dice, {}, .free⟩).1 = .ok lines := by
  refine ⟨?_, ?_, ?_⟩
  · constructor
    · rintro ⟨text, generated⟩
      by_contra refused
      obtain ⟨e, first⟩ := Option.ne_none_iff_exists'.1 (mt limits.refusal_eq_none_iff.1 refused)
      rw [generateWith_of_refused first] at generated
      cases generated
    · intro accepted
      obtain ⟨program, _, generated, _⟩ := generateWith_of_accepted accepted seed
      exact ⟨_, generated⟩
  · intro e
    constructor
    · intro failed
      cases first : limits.refusal with
      | some e' =>
        rw [generateWith_of_refused first] at failed
        exact congrArg some (Except.error.inj failed)
      | none =>
        obtain ⟨program, _, generated, _⟩ :=
          generateWith_of_accepted (limits.refusal_eq_none_iff.1 first) seed
        rw [generated] at failed
        cases failed
    · intro first
      exact generateWith_of_refused first seed
  · intro g dice
    obtain ⟨lines, site, dice', ran, -⟩ := kept_of_testCase g dice
    exact ⟨lines, congrArg Prod.fst ran⟩

end SeedGrammar
