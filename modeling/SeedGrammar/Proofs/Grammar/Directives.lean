/-
# SeedGrammar.Proofs.Grammar.Directives — units import what is there, each other unit once

The expansion of an import directive is never refused. It finds no other unit, or it draws
one that is imported already and writes nothing, or it writes a directive for a unit that
was not imported, and records it (`Walker.Directs`).

A history is any sequence of actions and expansions of directives, in any order, with the
directives that were written on the way and the units that they stand in
(`Roster.Issues`). Whatever is recorded in between, the target of a directive is recorded
from then on and is never written again in its unit (`Roster.Issued`). So a unit has no more
directives than there are other units.

Walks are histories, and a walk that expands productions, however deep, is one with just
the directives that stand in its lines (`Walk.Issues`, `issuesWritten_expand`).
-/
import SeedGrammar.Proofs.Grammar.Writing
import SeedGrammar.Proofs.Roster.Balance
import SeedGrammar.Proofs.Walk.Growth
import SeedGrammar.Proofs.Walk.Keeping
import Mathlib.Data.List.Perm.Subperm

namespace SeedGrammar

set_option autoImplicit false

open Walk

/-! ## One directive -/

/-- Another unit is drawn from where the walker is, with these dice left. -/
structure Walker.FindsOther (w : Walker) (path : String) (u : UnitRecord) (target : String)
    (dice : Dice) : Prop where
  current : w.roster.current = some path
  known : w.roster.unit? path = some u
  enough : 2 ≤ w.roster.size
  drawn : otherPath.run w = (.ok target, { w with dice })
  listed : target ∈ w.roster.paths
  other : target ≠ path

/-- What the expansion of a directive comes to: its lines and the walker after it. -/
inductive Walker.Directs (w : Walker) : List Line → Walker → Prop where
  /-- There is no other unit, and nothing is drawn. -/
  | alone (few : w.roster.size < 2) : Directs w [] w
  | again {path target : String} {u : UnitRecord} {dice : Dice}
      (finds : w.FindsOther path u target dice) (recorded : target ∈ u.imports) :
      Directs w [] { w with dice }
  | anew {path target : String} {u : UnitRecord} {dice : Dice}
      (finds : w.FindsOther path u target dice) (fresh : target ∉ u.imports) :
      Directs w [.importing target] { w with
        dice
        roster := w.roster.put path { u with imports := u.imports ++ [target] } }

theorem run_importDirective (w : Walker) :
    Expansion.importDirective.run w =
      if w.roster.size < 2 then (.ok [], w)
      else
        match otherPath.run w with
        | (.error e, w) => (.error e, w)
        | (.ok target, w) =>
          match (addImport target).run w with
          | (.error e, w) => (.error e, w)
          | (.ok isNew, w) => (.ok (if isNew then [.importing target] else []), w) := by
  show (if w.roster.size < 2 then pure [] else _ : Walk (List Line)).run w = _
  by_cases few : w.roster.size < 2
  · rw [if_pos few, if_pos few]
    rfl
  · rw [if_neg few, if_neg few, run_bind]
    rcases otherPath.run w with ⟨e | target, v⟩
    · rfl
    · dsimp only
      rw [run_bind]
      rcases (addImport target).run v with ⟨e | isNew, v'⟩
      · rfl
      · cases isNew <;> rfl

/-- Where there is another unit, one is drawn. -/
theorem exists_findsOther {rs : List UnitRecord} (earlier : 0 < rs.length) (u : UnitRecord)
    (scope : Scope) (dice : Dice) :
    ∃ target dice', ((Site.inUnit rs u scope).walker dice).FindsOther (unitPath rs.length) u target
      dice' := by
  obtain ⟨target, site', dice', drawn, numbered, rfl⟩ :=
    always_otherPath (u := u) (s := scope) earlier dice
  have candidate := (mem_otherPaths rs u target).2 numbered
  obtain ⟨listed, other⟩ := List.mem_filter.1 candidate
  refine ⟨target, dice', Roster.current_ofRecords_append rs u, Roster.unit?_ofRecords_last rs u, ?_,
    drawn, listed, of_decide_eq_true other⟩
  show 2 ≤ (Roster.ofRecords (rs ++ [u])).size
  rw [Roster.size_ofRecords, List.length_append, List.length_singleton]
  omega

/-- A directive is never refused. -/
theorem exists_directs {w : Walker} (sound : w.roster.Sound) :
    ∃ lines w', Expansion.importDirective.run w = (.ok lines, w') ∧ w.Directs lines w' := by
  rw [run_importDirective]
  by_cases few : w.roster.size < 2
  · rw [if_pos few]
    exact ⟨[], w, rfl, .alone few⟩
  rw [if_neg few]
  obtain ⟨dice, roster, scope⟩ := w
  rcases sound.empty_or_inUnit with rfl | ⟨rs, u, rfl⟩
  · exact absurd Nat.zero_lt_two few
  have earlier : 0 < rs.length := by
    change ¬ (Roster.ofRecords (rs ++ [u])).size < 2 at few
    rw [Roster.size_ofRecords, List.length_append, List.length_singleton] at few
    omega
  obtain ⟨target, dice', finds⟩ := exists_findsOther earlier u scope dice
  have drawn : otherPath.run ⟨dice, .ofRecords (rs ++ [u]), scope⟩ =
      (.ok target, ⟨dice', .ofRecords (rs ++ [u]), scope⟩) := finds.drawn
  rw [drawn]
  dsimp only
  rw [run_addImport, Roster.addImport_ofRecords_cases]
  by_cases recorded : target ∈ u.imports
  · rw [if_pos (Or.inr recorded)]
    exact ⟨[], _, rfl, .again finds recorded⟩
  · rw [if_neg (not_or.2 ⟨finds.other, recorded⟩)]
    -- the record of the current unit is the last of the row
    have put := Roster.put_ofRecords rs u { u with imports := u.imports ++ [target] }
    refine ⟨[.importing target], _, rfl, ?_⟩
    rw [← put]
    exact .anew finds recorded

/-! ## Histories -/

/-- A directive, with the unit that it stands in. -/
structure Directive where
  path : String
  target : String
  deriving DecidableEq

/-- The targets of the directives in one unit. -/
def targetsIn (issued : List Directive) (path : String) : List String :=
  (issued.filter (·.path = path)).map Directive.target

/-- The targets of the directives among some lines. -/
def Line.targetsOf (lines : List Line) : List String :=
  lines.filterMap fun
    | .importing target => some target
    | _ => none

/-- The directives among lines of the current unit. -/
def Roster.directives (roster : Roster) (lines : List Line) : List Directive :=
  roster.current.toList.flatMap fun path => (Line.targetsOf lines).map (⟨path, ·⟩)

@[simp] theorem Roster.directives_nil (roster : Roster) : roster.directives [] = [] := by
  unfold directives
  cases roster.current <;> rfl

/-- Actions and expansions of directives lead from a roster to a later one, one after
another, each with dice and a scope of its own. The directives are those that the expansions
have written. -/
inductive Roster.Issues : Roster → List Directive → Roster → Prop where
  | stay (roster : Roster) : Issues roster [] roster
  | act {before mid : Roster} {issued : List Directive} (first : Issues before issued mid)
      (action : Action) (dice : Dice) (scope : Scope) :
      Issues before issued (action.perform ⟨dice, mid, scope⟩).2.roster
  | directive {before mid : Roster} {issued : List Directive} (first : Issues before issued mid)
      (dice : Dice) (scope : Scope) {lines : List Line} {w' : Walker}
      (ran : Expansion.importDirective.run ⟨dice, mid, scope⟩ = (.ok lines, w')) :
      Issues before (issued ++ mid.directives lines) w'.roster

namespace Roster.Issues

variable {before mid after : Roster} {issued more : List Directive}

theorem trans (first : before.Issues issued mid) (second : mid.Issues more after) :
    before.Issues (issued ++ more) after := by
  induction second with
  | stay => rwa [List.append_nil]
  | act _ action dice scope ih => exact .act ih action dice scope
  | directive _ dice scope ran ih =>
    rw [← List.append_assoc]
    exact .directive ih dice scope ran

/-- Every walk is a history, with nothing said of the directives in it. -/
theorem of_run {α : Type} (walk : Walk α) (w : Walker) :
    w.roster.Issues [] (walk.run w).2.roster := by
  induction walk generalizing w with
  | done value => exact .stay w.roster
  | refuse e => exact .stay w.roster
  | act action next ih =>
    have step : w.roster.Issues [] (action.perform w).2.roster :=
      .act (.stay w.roster) action w.dice w.scope
    exact step.trans (ih _ _)

end Roster.Issues

/-! ## What was issued -/

/-- What is known of the directives that a history has written: each of them once, for a unit
that is another one, and recorded. -/
structure Roster.Issued (issued : List Directive) (roster : Roster) : Prop where
  nodup : issued.Nodup
  recorded : ∀ d ∈ issued, ∃ u, roster.unit? d.path = some u ∧ d.target ∈ u.imports
  listed : ∀ d ∈ issued, d.target ≠ d.path ∧ ∃ u, roster.unit? d.target = some u

namespace Roster.Issued

variable {before after : Roster} {issued : List Directive}

theorem none (roster : Roster) : Issued [] roster where
  nodup := List.nodup_nil
  recorded := by simp
  listed := by simp

/-- It stays true while the roster grows. -/
theorem grown {namings : List Naming} (known : Issued issued before)
    (grown : before.Grown namings after) : Issued issued after where
  nodup := known.nodup
  recorded := fun d member => by
    obtain ⟨u, found, recorded⟩ := known.recorded d member
    obtain ⟨u', found', more⟩ := grown.kept found
    exact ⟨u', found', more recorded⟩
  listed := fun d member => by
    obtain ⟨other, u, found⟩ := known.listed d member
    obtain ⟨u', found', -⟩ := grown.kept found
    exact ⟨other, u', found'⟩

theorem concat {d : Directive} (known : Issued issued after) (new : d ∉ issued)
    (recorded : ∃ u, after.unit? d.path = some u ∧ d.target ∈ u.imports)
    (listed : d.target ≠ d.path ∧ ∃ u, after.unit? d.target = some u) :
    Issued (issued ++ [d]) after where
  nodup := by
    rw [← List.concat_eq_append]
    exact known.nodup.concat new
  recorded := List.forall_mem_append.2 ⟨known.recorded, List.forall_mem_singleton.2 recorded⟩
  listed := List.forall_mem_append.2 ⟨known.listed, List.forall_mem_singleton.2 listed⟩

/-- One more expansion of a directive. What it writes is not recorded before, so it was not
written before. -/
theorem directs {w w' : Walker} {lines : List Line} (known : Issued issued w.roster)
    (sound : w.roster.Sound) (ran : Expansion.importDirective.run w = (.ok lines, w'))
    (directs : w.Directs lines w') : Issued (issued ++ w.roster.directives lines) w'.roster := by
  have grown := Expansion.importDirective.grown_run sound
  rw [ran] at grown
  have still := known.grown grown
  cases directs with
  | alone few => simpa using known
  | again finds recorded => simpa using known
  | @anew path target u dice finds fresh =>
    have new : w.roster.directives [.importing target] = [⟨path, target⟩] := by
      simp [directives, Line.targetsOf, finds.current]
    obtain ⟨v, found⟩ := (w.roster.mem_paths_iff target).1 finds.listed
    obtain ⟨v', found', -⟩ := grown.kept found
    rw [new]
    -- had it been written before, it would have been recorded before
    refine still.concat (fun before => ?_) ⟨_, unit?_put_self finds.known, by simp⟩
      ⟨finds.other, v', found'⟩
    obtain ⟨u', same, recorded⟩ := known.recorded _ before
    rw [finds.known] at same
    obtain rfl := Option.some.inj same
    exact fresh recorded

theorem nodup_targetsIn (known : Issued issued after) (path : String) :
    (targetsIn issued path).Nodup := by
  refine List.Nodup.map_on (fun d member d' member' same => ?_) (known.nodup.filter _)
  have here : d.path = path := of_decide_eq_true (List.mem_filter.1 member).2
  have here' : d'.path = path := of_decide_eq_true (List.mem_filter.1 member').2
  show Directive.mk d.path d.target = Directive.mk d'.path d'.target
  rw [here, here', same]

/-- There are no more directives in a unit than there are other units. -/
theorem length_targetsIn_le (known : Issued issued after) (path : String) :
    (targetsIn issued path).length ≤ (after.paths.filter (· ≠ path)).length := by
  refine (List.subperm_of_subset (known.nodup_targetsIn path) fun target member => ?_).length_le
  obtain ⟨d, filtered, rfl⟩ := List.mem_map.1 member
  obtain ⟨listed, here⟩ := List.mem_filter.1 filtered
  obtain ⟨other, isKnown⟩ := known.listed d listed
  have here : d.path = path := of_decide_eq_true here
  apply List.mem_filter.2
  exact ⟨(after.mem_paths_iff d.target).2 isKnown, by simpa [← here] using other⟩

end Roster.Issued

namespace Roster.Issues

variable {before after : Roster} {issued : List Directive}

theorem sound (issues : before.Issues issued after) (sound : before.Sound) : after.Sound := by
  induction issues with
  | stay => exact sound
  | act _ action dice scope ih => exact sound_perform action ih
  | directive _ dice scope ran ih =>
    have still := Expansion.importDirective.sound_run (w := ⟨dice, _, scope⟩) ih
    rwa [ran] at still

/-- By induction on the history: growth keeps what is known, and an expansion adds to it. -/
theorem known (issues : before.Issues issued after) (sound : before.Sound) :
    Issued issued after := by
  induction issues with
  | stay => exact .none before
  | act first action dice scope ih =>
    exact ih.grown (grown_perform action (w := ⟨dice, _, scope⟩) (first.sound sound))
  | @directive mid issued first dice scope lines w' ran ih =>
    have here : mid.Sound := first.sound sound
    obtain ⟨lines', w'', ran', directs⟩ := exists_directs (w := ⟨dice, mid, scope⟩) here
    rw [ran] at ran'
    obtain ⟨same, rfl⟩ := Prod.mk.inj ran'
    cases same
    exact ih.directs (w := ⟨dice, mid, scope⟩) here ran directs

end Roster.Issues

/-! ## Directives of whole expansions -/

namespace Walk

variable {α β : Type}

/-- From a sound roster the walk is a history. If it is not refused, the targets of the
directives in the history and the value of the walk meet `post`. -/
def Issues (walk : Walk α) (post : List String → α → Prop) : Prop :=
  ∀ w : Walker, w.roster.Sound → ∃ issued, w.roster.Issues issued (walk.run w).2.roster ∧
    ∀ value, (walk.run w).1 = .ok value → post (issued.map Directive.target) value

theorem issues_pure {value : α} {post : List String → α → Prop} (holds : post [] value) :
    (pure value : Walk α).Issues post := by
  intro w _
  refine ⟨[], .stay w.roster, fun value' same => ?_⟩
  cases same
  exact holds

theorem issues_ofExcept {result : Except Error α} {post : List String → α → Prop}
    (holds : ∀ value, result = .ok value → post [] value) : (ofExcept result).Issues post := by
  intro w _
  rw [run_ofExcept]
  exact ⟨[], .stay w.roster, holds⟩

theorem Issues.bind {walk : Walk α} {next : α → Walk β} {mid : List String → α → Prop}
    {post : List String → β → Prop} (first : walk.Issues mid)
    (rest : ∀ targets value, mid targets value →
      (next value).Issues fun more result => post (targets ++ more) result) :
    (walk >>= next).Issues post := by
  intro w sound
  obtain ⟨issued, here, holds⟩ := first w sound
  have still := walk.sound_run sound
  rw [run_bind]
  rcases ran : walk.run w with ⟨e | value, w'⟩
  all_goals rw [ran] at here holds still
  · exact ⟨issued, here, fun value impossible => by cases impossible⟩
  · obtain ⟨more, onward, holds'⟩ := rest _ value (holds value rfl) w' still
    refine ⟨issued ++ more, here.trans onward, fun result ended => ?_⟩
    rw [List.map_append]
    exact holds' result ended

/-- A first part in which no directive is issued. -/
theorem Issues.after (walk : Walk α) {next : α → Walk β} {post : List String → β → Prop}
    (rest : ∀ value, (next value).Issues post) : (walk >>= next).Issues post := by
  have silent : walk.Issues fun targets _ => targets = [] :=
    fun w _ => ⟨[], .of_run walk w, fun _ _ => rfl⟩
  refine silent.bind fun targets value none => ?_
  subst none
  exact rest value

theorem Issues.drawn {walk : Walk α} {possible : α → Prop} {next : α → Walk β}
    {post : List String → β → Prop} (draws : walk.Draws possible)
    (rest : ∀ value, possible value → (next value).Issues post) : (walk >>= next).Issues post := by
  intro w sound
  obtain ⟨value, dice, ran, holds⟩ := draws.exists_run w
  obtain ⟨issued, onward, met⟩ := rest value holds { w with dice } sound
  rw [run_bind, ran]
  exact ⟨issued, onward, met⟩

theorem Issues.attempt {walk : Walk α} {post : List String → α → Prop} (issues : walk.Issues post) :
    walk.attempt.Issues fun targets result => ∀ value, result = .ok value → post targets value := by
  intro w sound
  obtain ⟨issued, here, holds⟩ := issues w sound
  rw [run_attempt]
  refine ⟨issued, here, fun result same => ?_⟩
  cases same
  exact holds

theorem Issues.memberScope {body : Walk α} {post : List String → α → Prop}
    (inside : body.Issues post) : (memberScope body).Issues post := by
  refine Issues.after enterMembers fun _ => ?_
  refine inside.attempt.bind fun targets result holds => ?_
  refine Issues.after leaveMembers.attempt fun left => ?_
  refine issues_ofExcept fun value settled => ?_
  rw [List.append_nil]
  apply holds
  cases result with
  | error e => cases settled
  | ok value' =>
    cases left with
    | error e => cases settled
    | ok _ => exact settled

/-- Just the directives that are written are issued. -/
def IssuesWritten (walk : Walk (List Line)) : Prop :=
  walk.Issues fun targets lines => targets = Line.targetsOf lines

end Walk

@[simp] theorem Line.targetsOf_append (lines rest : List Line) :
    targetsOf (lines ++ rest) = targetsOf lines ++ targetsOf rest :=
  List.filterMap_append

namespace Walk

theorem issuesWritten_importDirective : Expansion.importDirective.IssuesWritten := by
  intro w sound
  obtain ⟨lines, w', ran, directs⟩ := exists_directs sound
  have history := Roster.Issues.directive (.stay w.roster) w.dice w.scope ran
  rw [ran]
  refine ⟨_, history, fun value same => ?_⟩
  cases same
  cases directs with
  | alone few => simp [Line.targetsOf]
  | again finds recorded => simp [Line.targetsOf]
  | anew finds fresh => simp [Roster.directives, Line.targetsOf, finds.current]

theorem IssuesWritten.followedBy {first : Walk (List Line)} {rest : Walk (List Line)}
    (issues : first.IssuesWritten) (others : rest.IssuesWritten) :
    (first >>= fun lines => rest >>= fun more => pure (lines ++ more)).IssuesWritten := by
  refine issues.bind fun targets lines written => ?_
  refine others.bind fun targets' more written' => ?_
  apply issues_pure
  rw [written, written', Line.targetsOf_append, List.append_nil]

theorem issuesWritten_nil : (pure [] : Walk (List Line)).IssuesWritten :=
  issues_pure rfl

theorem IssuesWritten.repeated {walk : Walk (List Line)} (issues : walk.IssuesWritten) (n : Nat) :
    (walk.repeated n).IssuesWritten := by
  induction n with
  | zero => exact issuesWritten_nil
  | succ n ih => exact issues.followedBy ih

theorem issuesWritten_take {offer : Offer} (issues : offer.expansion.IssuesWritten) :
    offer.take.IssuesWritten := by
  refine Issues.after (likely _) fun included => ?_
  cases included with
  | false => exact issuesWritten_nil
  | true => exact Issues.after (uniform _) fun n => issues.repeated n

theorem issuesWritten_takeEach {offers : List Offer}
    (issues : ∀ offer ∈ offers, offer.expansion.IssuesWritten) :
    (Offer.takeEach offers).IssuesWritten := by
  induction offers with
  | nil => exact issuesWritten_nil
  | cons offer offers ih =>
    apply (issuesWritten_take (issues offer (by simp))).followedBy
    exact ih fun other member => issues other (by simp [member])

theorem issuesWritten_descend {offers : List Offer}
    (issues : ∀ offer ∈ offers, offer.expansion.IssuesWritten) : (descend offers).IssuesWritten :=
  Issues.drawn (draws_shuffle offers) fun _ perm =>
    issuesWritten_takeEach fun offer member => issues offer (perm.mem_iff.1 member)

/-- Lines around those of a body, none of them a directive. -/
theorem IssuesWritten.framed {body : Walk (List Line)} (issues : body.IssuesWritten)
    {frame : List Line → List Line}
    (plain : ∀ lines, Line.targetsOf (frame lines) = Line.targetsOf lines) :
    (body >>= fun lines => pure (frame lines)).IssuesWritten := by
  refine issues.bind fun targets lines written => ?_
  apply issues_pure
  rw [written, plain, List.append_nil]

end Walk

namespace Grammar

variable (g : Grammar)

theorem issuesWritten_of_children {p : Production}
    (children : ∀ child ∈ g.children p, (g.expand child.production).IssuesWritten) :
    (g.expand p).IssuesWritten := by
  have body : (descend (g.offers (g.children p))).IssuesWritten := by
    apply issuesWritten_descend
    intro offer member
    obtain ⟨child, declared, rfl⟩ := List.mem_map.1 member
    exact children child declared
  rw [g.expand_eq p]
  cases p with
  | testCase => exact Issues.after (expanding .testCase) fun _ => body
  | sourceUnit =>
    refine Issues.after (expanding .sourceUnit) fun _ => ?_
    refine Issues.after addUnit fun path => ?_
    exact body.framed fun lines => rfl
  | contract =>
    refine Issues.after (expanding .contract) fun _ => ?_
    refine Issues.after nameContract fun name => ?_
    refine Issues.after level fun level => ?_
    have inside : (memberScope (descend (g.offers (g.children .contract)))).IssuesWritten :=
      body.memberScope
    apply inside.framed
    intro lines
    simp [Line.targetsOf]
  | pragmaBlock =>
    refine Issues.after (expanding .pragmaBlock) fun _ => ?_
    refine Issues.after (subset Pragmas.generic) fun generic => ?_
    refine Issues.after (choose Pragmas.abiCoders (by decide)) fun coder => ?_
    apply issues_pure
    simp [Line.targetsOf]
  | importDirective => exact issuesWritten_importDirective
  | function =>
    refine Issues.after (expanding .function) fun _ => ?_
    refine Issues.after nameFunction fun name => ?_
    refine Issues.after level fun level => ?_
    refine Issues.after Walk.scope fun scope => ?_
    exact issues_pure rfl

/-- Storey by storey, down to the directives. -/
theorem issuesWritten_expand (p : Production) : (g.expand p).IssuesWritten :=
  g.issuesWritten_of_children fun child _ => issuesWritten_expand child.production
termination_by p.rank
decreasing_by exact rank_lt_of_mem_children ‹_›

end Grammar

/-- **Directives are never refused and never repeated.** The expansion of one writes nothing
where there is no other unit, and then nothing is drawn; or it draws another unit, and writes
a directive for it and records it just if it was not recorded before. Nothing else is another
one afterwards but the dice.

So whatever happens between the directives of a unit, their targets are all different, and
there are no more of them than other units. Directives that are expanded as parts of other
productions count as well: any expansion is a history with just those in its lines. Any other
walk is one too (`Roster.Issues.of_run`).

A roster is sound wherever a script can get (`Script.Reached.sound`). -/
theorem directives_once (g : Grammar) {w : Walker} (sound : w.roster.Sound) :
    (∃ lines w', (g.expand .importDirective).run w = (.ok lines, w') ∧
      ((w.roster.size < 2 ∧ Line.textOf lines = "" ∧ w' = w) ∨
        ∃ path u target dice, w.FindsOther path u target dice ∧
          ((target ∈ u.imports ∧ Line.textOf lines = "" ∧ w' = { w with dice }) ∨
            (target ∉ u.imports ∧ Line.textOf lines = "import \"" ++ target ++ "\";\n" ∧
              w' = { w with
                dice
                roster := w.roster.put path { u with imports := u.imports ++ [target] } })))) ∧
      (∀ issued after, w.roster.Issues issued after → ∀ path,
        (targetsIn issued path).Nodup ∧
          (targetsIn issued path).length ≤ (after.paths.filter (· ≠ path)).length) ∧
        ∀ p, ∃ issued, w.roster.Issues issued ((g.expand p).run w).2.roster ∧
          ∀ lines, ((g.expand p).run w).1 = .ok lines →
            issued.map Directive.target = Line.targetsOf lines := by
  refine ⟨?once, fun issued after issues path => ?_, fun p => g.issuesWritten_expand p w sound⟩
  case once =>
    obtain ⟨lines, w', ran, directs⟩ := exists_directs sound
    refine ⟨lines, w', ran, ?_⟩
    cases directs with
    | alone few => exact Or.inl ⟨few, Line.textOf_nil, rfl⟩
    | again finds recorded =>
      exact Or.inr ⟨_, _, _, _, finds, Or.inl ⟨recorded, Line.textOf_nil, rfl⟩⟩
    | anew finds fresh =>
      refine Or.inr ⟨_, _, _, _, finds, Or.inr ⟨fresh, ?_, rfl⟩⟩
      rw [Line.textOf_singleton]
      rfl
  · have known := issues.known sound
    exact ⟨known.nodup_targetsIn path, known.length_targetsIn_le path⟩

/-- In a unit that has recorded a path which is on no roster, with two other units. -/
theorem directives_once_among_three :
    let roster := (Roster.addUnit (Roster.addUnit (Roster.addUnit {}).2).2).2
    let w : Walker := ⟨.ofSeed 3, (roster.addImport "elsewhere.sol").2, .free⟩
    let after := (w.roster.addImport "su1.sol").2
    w.roster.Sound ∧
      (∃ lines w', (({} : Grammar).expand .importDirective).run w = (.ok lines, w') ∧
        Line.textOf lines = "import \"su1.sol\";\n") ∧
      w.roster.Issues [⟨"su2.sol", "su1.sol"⟩] after ∧
      ["su1.sol"].Nodup ∧ 1 ≤ (after.paths.filter (· ≠ "su2.sol")).length := by
  intro roster w after
  have sound : w.roster.Sound :=
    (Roster.Sound.empty.addUnit.addUnit.addUnit.addImport "elsewhere.sol").sound
  have paths : w.roster.paths = ["su0.sol", "su1.sol", "su2.sol"] :=
    List.mergeSort_of_pairwise (by decide +kernel)
  have drawn : otherPath.run w = (.ok "su1.sol", { w with dice := ⟨w.dice.key, 1⟩ }) := by
    show (choosePath 2 (w.roster.paths.filter (· ≠ "su2.sol"))).run w = _
    rw [paths]
    decide +kernel
  have ran : Expansion.importDirective.run w =
      (.ok [.importing "su1.sol"], { w with dice := ⟨w.dice.key, 1⟩, roster := after }) := by
    rw [run_importDirective, drawn]
    decide +kernel
  have history : w.roster.Issues [⟨"su2.sol", "su1.sol"⟩] after :=
    .directive (.stay w.roster) w.dice w.scope ran
  have laws := (directives_once {} sound).2.1 _ after history "su2.sol"
  exact ⟨sound, ⟨_, _, ran, rfl⟩, history, laws.1, laws.2⟩

end SeedGrammar
