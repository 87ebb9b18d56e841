/-
# SeedGrammar.Proofs.Generate.Words — nothing leaves its word while a program is written

Units and names are only ever added (`Walk.grown_from`), so at no moment of a walk are there
more of them than in the end, where the units are those of a program within its limits
(`BuiltEach.within`). Levels go up and down, but no unit gets deeper than one level
(`rises_expand`). With limits that are words this says that no counter overflows, and that
every draw is from a range that a word can tell (`generateWith_within_words`).
-/
import SeedGrammar.Proofs.Generate.Outcome
import SeedGrammar.Proofs.Grammar.Levels
import SeedGrammar.Proofs.Walk.Growth

namespace SeedGrammar

set_option autoImplicit false

open Walk

/-! ## Counters in the end -/

/-- Functions are members or free. -/
theorem SourceUnit.length_functions (unit : SourceUnit) :
    unit.functions.length =
      (unit.contracts.flatMap ContractDecl.members).length + unit.freeFunctions.length := by
  obtain ⟨path, items⟩ := unit
  unfold functions contracts freeFunctions
  induction items with
  | nil => rfl
  | cons item items ih =>
    dsimp only at ih ⊢
    cases item with
    | importing path => simpa [Item.functions] using ih
    | pragma directive => simpa [Item.functions] using ih
    | contract decl => simp [Item.functions, ih, Nat.add_assoc]
    | function decl => simp [Item.functions, ih]; omega

/-- How many free functions a unit may have. -/
def Grammar.freeLimit (g : Grammar) : Nat :=
  (g.items.map (·.freeFunctions.val)).getD 0

theorem SourceUnit.Composed.length_functions_le {g : Grammar} {unit : SourceUnit}
    (composed : unit.Composed g) : unit.functions.length ≤ g.memberLimit + g.freeLimit := by
  rw [unit.length_functions]
  cases wired : g.items with
  | none => simp [SourceUnit.contracts, SourceUnit.freeFunctions, composed.items_of_unwired wired]
  | some weights =>
    have free := composed.length_freeFunctions_le wired
    have limit : g.freeLimit = weights.freeFunctions.val := by rw [Grammar.freeLimit, wired]; rfl
    rcases composed.contracts_cases wired with none | ⟨decl, one, few, -⟩
    · simp only [none, List.flatMap_nil, List.length_nil]
      omega
    · simp only [one, List.flatMap_singleton]
      omega

theorem KeptEach.exists_kept {units : List SourceUnit} {rs : List UnitRecord}
    (kept : KeptEach units rs) {u : UnitRecord} (member : u ∈ rs) :
    u.contracts ≤ 1 ∧ ∃ i, ∃ unit ∈ units, Kept i unit u := by
  induction kept with
  | nil => cases member
  | snoc before kept few ih =>
    rcases List.mem_append.1 member with known | new
    · obtain ⟨few, i, unit, found, kept⟩ := ih known
      exact ⟨few, i, unit, by simp [found], kept⟩
    · obtain rfl := List.mem_singleton.1 new
      exact ⟨few, _, _, by simp, kept⟩

theorem Roster.mem_of_unit?_ofRecords {rs : List UnitRecord} {path : String} {u : UnitRecord}
    (found : (ofRecords rs).unit? path = some u) : u ∈ rs := by
  obtain ⟨before, after, cut, -⟩ := List.lookup_eq_some_iff.1 found
  have entry : (path, u) ∈ (ofRecords rs).units := by simp [cut]
  obtain ⟨⟨record, i⟩, numbered, same⟩ := List.mem_map.1 entry
  cases same
  exact List.fst_mem_of_mem_zipIdx numbered

/-- Counters in a grammar: so many units, in each of them one contract at most, and so many
functions. -/
structure Roster.Counted (roster : Roster) (g : Grammar) : Prop where
  minted : roster.minted ≤ g.unitLimit
  contracts : ∀ path, roster.count path .contract ≤ 1
  functions : ∀ path, roster.count path .function ≤ g.memberLimit + g.freeLimit

theorem BuiltEach.counted {g : Grammar} {units : List SourceUnit} {rs : List UnitRecord}
    (built : BuiltEach g units rs) (few : rs.length ≤ g.unitLimit) :
    (Roster.ofRecords rs).Counted g := by
  have bounded (path : String) (kind : NameKind) (limit : Nat)
      (each : ∀ u ∈ rs, u.count kind ≤ limit) : (Roster.ofRecords rs).count path kind ≤ limit := by
    cases found : (Roster.ofRecords rs).unit? path with
    | none =>
      rw [Roster.count_of_missing found]
      exact Nat.zero_le limit
    | some u =>
      rw [Roster.count_of_known found]
      exact each u (Roster.mem_of_unit?_ofRecords found)
  refine ⟨few, fun path => bounded path _ _ fun u member => ?_, fun path =>
    bounded path _ _ fun u member => ?_⟩
  · exact (built.1.exists_kept member).1
  · obtain ⟨-, i, unit, made, kept⟩ := built.1.exists_kept member
    have named : unit.functions.length = u.functions := by
      simpa using congrArg List.length kept.functions.inOrder
    have few := (built.2 unit made).length_functions_le
    rwa [named] at few

/-- What grows to counters within bounds has been within them. -/
theorem Roster.Counted.before {g : Grammar} {before after : Roster} {namings : List Naming}
    (counted : after.Counted g) (grown : before.Grown namings after) : before.Counted g where
  minted := Nat.le_trans grown.minted counted.minted
  contracts := fun path => Nat.le_trans (grown.count_le path _) (counted.contracts path)
  functions := fun path => Nat.le_trans (grown.count_le path _) (counted.functions path)

/-! ## Counters at every moment -/

/-- All that is counted of units, their parts and their levels. -/
structure Roster.Within (roster : Roster) (limits : Limits) : Prop where
  minted : roster.minted ≤ limits.units
  contracts : ∀ path u, roster.unit? path = some u → u.contracts ≤ 1
  functions : ∀ path u, roster.unit? path = some u →
    u.functions ≤ limits.members + limits.freeFunctions
  level : ∀ path u, roster.unit? path = some u → u.level ≤ 1

/-- Every counter is a word. -/
structure Roster.FitsWords (roster : Roster) : Prop where
  minted : roster.minted < UInt32.size
  contracts : ∀ path u, roster.unit? path = some u → u.contracts < UInt32.size
  functions : ∀ path u, roster.unit? path = some u → u.functions < UInt32.size
  level : ∀ path u, roster.unit? path = some u → u.level < UInt32.size

theorem Roster.Within.fitsWords {roster : Roster} {limits : Limits} (within : roster.Within limits)
    (units : limits.units < UInt32.size)
    (functions : limits.members + limits.freeFunctions < UInt32.size) : roster.FitsWords where
  minted := Nat.lt_of_le_of_lt within.minted units
  contracts := fun path u known =>
    Nat.lt_of_le_of_lt (within.contracts path u known) (by decide)
  functions := fun path u known =>
    Nat.lt_of_le_of_lt (within.functions path u known) functions
  level := fun path u known => Nat.lt_of_le_of_lt (within.level path u known) (by decide)

theorem Roster.Counted.within {roster : Roster} {limits : Limits} {accepted : limits.Accepted}
    (counted : roster.Counted (limits.grammar accepted))
    (level : ∀ path, roster.levelAt path ≤ 1) : roster.Within limits where
  minted := counted.minted
  contracts := fun path u known => by
    have few := counted.contracts path
    rwa [Roster.count_of_known known] at few
  functions := fun path u known => by
    have few := counted.functions path
    rwa [Roster.count_of_known known] at few
  level := fun path u known => Roster.levelAt_of_known known ▸ level path

/-- A moment with all counters within their limits and words, at which nothing is done that
a word has no room for: what is drawn has an outcome and a word's number of them at most,
and the path of a new unit is new. -/
structure Moment.Orderly (moment : Moment) (limits : Limits) : Prop where
  within : moment.walker.roster.Within limits
  words : moment.walker.roster.FitsWords
  roll : ∀ sides, moment.action = .roll sides → 1 ≤ sides.val ∧ sides.val < UInt32.size
  fresh : moment.action = .addUnit →
    moment.walker.roster.unit? moment.walker.roster.addUnit.1 = none

/-- Whoever draws among units draws from fewer than a word can tell, as each has a number. -/
theorem Moment.orderly {moment : Moment} {limits : Limits} (sound : moment.walker.roster.Sound)
    (within : moment.walker.roster.Within limits) (inRange : moment.action.InRange moment.walker)
    (units : limits.units < UInt32.size)
    (functions : limits.members + limits.freeFunctions < UInt32.size) : moment.Orderly limits where
  within := within
  words := within.fitsWords units functions
  roll := fun sides rolled => by
    rw [rolled] at inRange
    refine ⟨sides.property, inRange.elim id fun few => ?_⟩
    have size := sound.minted
    have minted := within.minted
    omega
  fresh := fun _ => sound.fresh

/-- Counters are those of the program in the end, and levels stay low on the way. -/
theorem within_expand {limits : Limits} (accepted : limits.Accepted) (seed : UInt64) :
    let walk := (limits.grammar accepted).expand .testCase
    (∀ moment ∈ walk.trail (.ofSeed seed), moment.walker.roster.Within limits ∧
      moment.action.InRange moment.walker) ∧
        (walk.run (.ofSeed seed)).2.roster.Within limits := by
  intro walk
  have start : (Walker.ofSeed seed).roster.Sound := .empty
  have margin : ∀ path, (Walker.ofSeed seed).roster.levelAt path = 0 := fun _ => rfl
  have rises := rises_expand (limits.grammar accepted) .testCase (.ofSeed seed)
  obtain ⟨program, rs, dice, ran, built, few⟩ := run_built (limits.grammar accepted) seed
  have ended : (walk.run (.ofSeed seed)).2.roster = .ofRecords rs := by rw [ran]; rfl
  have counted := built.counted few
  rw [← ended] at counted
  refine ⟨fun moment here => ?_, counted.within fun path => ?_⟩
  · obtain ⟨namings, grown⟩ := walk.grown_from start here
    have amid := rises.moments moment here start
    have low (path : String) : moment.walker.roster.levelAt path ≤ 1 := by
      simpa [margin] using amid.level path
    exact ⟨(counted.before grown).within low, amid.inRange⟩
  · rw [(rises.ends.roster start).levelAt_eq path, margin]
    exact Nat.zero_le 1

/-- **Nothing leaves its word while a program is written**, whatever the seed, if the limits
are accepted and so many functions can be counted. A choice by number is always among some
candidates, of which the number drawn picks one. -/
theorem generateWith_within_words (seed : UInt64) {limits : Limits} (accepted : limits.Accepted)
    (room : limits.members + limits.freeFunctions < UInt32.size) :
    let walk := (Grammar.setup {} limits).2.expand .testCase
    (∃ text, generateWith seed limits = .ok text ∧
      (walk.run (.ofSeed seed)).1.map Line.textOf = .ok text) ∧
      (∀ moment ∈ walk.trail (.ofSeed seed), moment.Orderly limits) ∧
        (walk.run (.ofSeed seed)).2.roster.Within limits ∧
          (walk.run (.ofSeed seed)).2.roster.FitsWords ∧
            Pragmas.generic ≠ [] ∧ Pragmas.abiCoders ≠ [] ∧
              ∀ {α : Type} (xs : List α) (nonempty : 0 < xs.length) (w : Walker), ∃ k x dice,
                (uniform ⟨xs.length, nonempty⟩).run w = (.ok k, { w with dice }) ∧ 1 ≤ k ∧
                  xs[k - 1]? = some x ∧ (choose xs nonempty).run w = (.ok x, { w with dice }) := by
  intro walk
  have wired : walk = (limits.grammar accepted).expand .testCase := by
    show (Grammar.setup {} limits).2.expand .testCase = _
    rw [Grammar.setup_of_accepted {} accepted]
  have units : limits.units < UInt32.size :=
    Nat.lt_of_succ_lt (accepted ⟨.testCase, .sourceUnit, limits.units⟩
      (by simp [Limits.declarations])).2
  obtain ⟨moments, within⟩ := within_expand accepted seed
  rw [← wired] at moments within
  refine ⟨?program, fun moment here => ?orderly, within, within.fitsWords units room, by decide,
    by decide, run_choose⟩
  case program =>
    obtain ⟨program, _, generated, _⟩ := generateWith_of_accepted accepted seed
    exact ⟨_, generated, (generateWith_eq_run accepted seed).symm.trans generated⟩
  case orderly =>
    obtain ⟨within, inRange⟩ := moments moment here
    have sound := walk.sound_trail (w := .ofSeed seed) .empty moment here
    exact Moment.orderly sound within inRange units room

/-- With the largest limits that words have room for. -/
theorem generateWith_within_words_of_largest :
    let limits : Limits := ⟨4294967294, 4294967294, 4294967294, 1⟩
    let walk := (Grammar.setup {} limits).2.expand .testCase
    (limits.Accepted ∧ limits.members + limits.freeFunctions < UInt32.size) ∧
      (∀ moment ∈ walk.trail (.ofSeed 7), moment.Orderly limits) ∧
        (walk.run (.ofSeed 7)).2.roster.FitsWords :=
  have ⟨_, orderly, _, words, _⟩ := generateWith_within_words 7
    (by decide : (⟨4294967294, 4294967294, 4294967294, 1⟩ : Limits).Accepted) (by decide)
  ⟨⟨by decide, by decide⟩, orderly, words⟩

end SeedGrammar
