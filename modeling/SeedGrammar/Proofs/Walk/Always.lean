/-
# SeedGrammar.Proofs.Walk.Always — what a walk comes to, whatever the dice show

`walk.Always site post` says that from a walker at `site`, with any dice, the walk
is not refused, and that its value and the site it ends at meet `post`. A `Site` is
all that a walker carries but its dice: a draw may then be answered with any
number in its range, and nothing is said of which.

There is one rule for each way to build a walk. Rules for operations on units are
stated for sites inside a unit (`Site.inUnit`), where the last record of a row is
the one that changes; `always_memberScope` is the rule for bodies of contracts.
-/
import SeedGrammar.Proofs.Roster.Records
import SeedGrammar.Walk.Operations

namespace SeedGrammar

set_option autoImplicit false

/-- All that a walker carries but its dice. -/
structure Site where
  roster : Roster
  scope : Scope

namespace Site

def walker (site : Site) (dice : Dice) : Walker :=
  ⟨dice, site.roster, site.scope⟩

/-- The current unit has the record `u`, and the units added before it have the
records `rs`. -/
def inUnit (rs : List UnitRecord) (u : UnitRecord) (scope : Scope) : Site :=
  ⟨.ofRecords (rs ++ [u]), scope⟩

end Site

namespace Walk

variable {α β : Type} {site : Site}

/-- The walk succeeds from a site, and its end meets `post`, whatever the dice. -/
def Always (walk : Walk α) (site : Site) (post : α → Site → Prop) : Prop :=
  ∀ dice, ∃ value site' dice',
    walk.run (site.walker dice) = (.ok value, site'.walker dice') ∧ post value site'

/-! ## Sequences -/

theorem always_pure {value : α} {post : α → Site → Prop} (holds : post value site) :
    (pure value : Walk α).Always site post :=
  fun dice => ⟨value, site, dice, rfl, holds⟩

theorem Always.mono {walk : Walk α} {post weaker : α → Site → Prop}
    (always : walk.Always site post)
    (implies : ∀ value site', post value site' → weaker value site') :
    walk.Always site weaker := by
  intro dice
  obtain ⟨value, site', dice', ran, holds⟩ := always dice
  exact ⟨value, site', dice', ran, implies value site' holds⟩

theorem Always.bind {walk : Walk α} {next : α → Walk β} {mid : α → Site → Prop}
    {post : β → Site → Prop} (first : walk.Always site mid)
    (rest : ∀ value site', mid value site' → (next value).Always site' post) :
    (walk >>= next).Always site post := by
  intro dice
  obtain ⟨value, site', dice', ran, holds⟩ := first dice
  obtain ⟨value', site'', dice'', ran', holds'⟩ := rest value site' holds dice'
  refine ⟨value', site'', dice'', ?_, holds'⟩
  rw [run_bind, ran]
  exact ran'

/-- A walk whose run does not depend on the dice. -/
theorem always_of_run {walk : Walk α} {value : α} {site' : Site}
    (ran : ∀ dice, walk.run (site.walker dice) = (.ok value, site'.walker dice)) :
    walk.Always site fun v s => v = value ∧ s = site' :=
  fun dice => ⟨value, site', dice, ran dice, rfl, rfl⟩

/-! ## Draws -/

/-- The walk succeeds with a value that meets `possible` and changes nothing but
the dice. -/
def Draws (walk : Walk α) (possible : α → Prop) : Prop :=
  ∀ site, walk.Always site fun value site' => possible value ∧ site' = site

theorem Draws.bind {walk : Walk α} {possible : α → Prop} {next : α → Walk β}
    {post : β → Site → Prop} (draws : walk.Draws possible)
    (rest : ∀ value, possible value → (next value).Always site post) :
    (walk >>= next).Always site post := by
  refine (draws site).bind fun value site' drawn => ?_
  obtain ⟨holds, rfl⟩ := drawn
  exact rest value holds

/-- A draw by a whole walker. -/
theorem Draws.exists_run {walk : Walk α} {possible : α → Prop} (draws : walk.Draws possible)
    (w : Walker) : ∃ value dice, walk.run w = (.ok value, { w with dice }) ∧ possible value := by
  obtain ⟨value, site, dice, ran, holds, rfl⟩ := draws ⟨w.roster, w.scope⟩ w.dice
  exact ⟨value, dice, ran, holds⟩

theorem Draws.map {walk : Walk α} {possible : α → Prop} {possible' : β → Prop} {f : α → β}
    (draws : walk.Draws possible) (image : ∀ value, possible value → possible' (f value)) :
    (walk >>= fun value => pure (f value)).Draws possible' :=
  fun _ => draws.bind fun value holds => always_pure ⟨image value holds, rfl⟩

theorem draws_roll (sides : Positive) : (roll sides).Draws fun _ => True :=
  fun site dice => ⟨(dice.roll sides).1, site, (dice.roll sides).2, rfl, trivial, rfl⟩

theorem draws_flip : flip.Draws fun _ => True :=
  fun site dice => ⟨dice.coin.1, site, dice.coin.2, rfl, trivial, rfl⟩

theorem draws_uniform (n : Positive) : (uniform n).Draws fun k => 1 ≤ k ∧ k ≤ n.val := by
  refine (draws_roll n).map fun draw _ => ?_
  have below := draw.isLt
  omega

theorem draws_likely (n : Positive) : (likely n).Draws fun _ => True :=
  (draws_uniform n).map fun _ _ => trivial

theorem draws_subset (xs : List α) : (subset xs).Draws fun ys => ys.Sublist xs := by
  induction xs with
  | nil => exact fun _ => always_pure ⟨.slnil, rfl⟩
  | cons x xs ih =>
    intro site
    refine draws_flip.bind fun kept _ => ?_
    refine ih.bind fun ys below => ?_
    refine always_pure ⟨?_, rfl⟩
    cases kept with
    | false => exact below.cons x
    | true => exact below.cons_cons x

theorem draws_rollEach (sides : List Positive) : (rollEach sides).Draws fun _ => True := by
  induction sides with
  | nil => exact fun _ => always_pure ⟨trivial, rfl⟩
  | cons n sides ih =>
    intro site
    refine (draws_roll n).bind fun draw _ => ?_
    exact ih.bind fun draws _ => always_pure ⟨trivial, rfl⟩

theorem draws_shuffle (xs : List α) : (shuffle xs).Draws fun ys => ys.Perm xs :=
  (draws_rollEach _).map fun draws _ => Shuffle.permute_perm xs draws

theorem draws_choose (xs : List α) (nonempty : 0 < xs.length) :
    (choose xs nonempty).Draws fun x => x ∈ xs :=
  (draws_roll _).map fun _ _ => List.get_mem _ _

/-- What is chosen stands one place before the number drawn for it. -/
theorem run_choose (xs : List α) (nonempty : 0 < xs.length) (w : Walker) :
    ∃ k x dice, (uniform ⟨xs.length, nonempty⟩).run w = (.ok k, { w with dice }) ∧ 1 ≤ k ∧
      xs[k - 1]? = some x ∧ (choose xs nonempty).run w = (.ok x, { w with dice }) :=
  ⟨_, _, _, rfl, Nat.le_add_left 1 _, List.getElem?_eq_getElem _, rfl⟩

theorem draws_choosePath (required : Nat) {paths : List String} (nonempty : 0 < paths.length) :
    (choosePath required paths).Draws fun path => path ∈ paths := by
  unfold choosePath
  rw [dif_pos nonempty]
  exact draws_choose paths nonempty

/-! ## Looking around -/

theorem always_expanding (p : Production) :
    (expanding p).Always site fun _ site' => site' = site :=
  (always_of_run fun _ => rfl).mono fun _ _ ended => ended.2

theorem always_survey : survey.Always site fun roster site' => roster = site.roster ∧ site' = site :=
  always_of_run fun _ => rfl

theorem always_scope : scope.Always site fun s site' => s = site.scope ∧ site' = site :=
  always_of_run fun _ => rfl

/-! ## Operations on units -/

variable {rs : List UnitRecord} {u : UnitRecord} {s : Scope}

theorem always_addUnit (rs : List UnitRecord) (s : Scope) :
    addUnit.Always ⟨.ofRecords rs, s⟩ fun path site' =>
      path = unitPath rs.length ∧ site' = .inUnit rs .blank s := by
  refine always_of_run fun dice => ?_
  change (Except.ok (Roster.ofRecords rs).addUnit.1, Walker.mk dice (Roster.ofRecords rs).addUnit.2 s)
    = _
  rw [Roster.addUnit_ofRecords]
  rfl

theorem always_level :
    level.Always (.inUnit rs u s) fun n site' => n = u.level ∧ site' = .inUnit rs u s := by
  refine always_survey.bind fun roster site' surveyed => ?_
  obtain ⟨rfl, rfl⟩ := surveyed
  refine always_of_run fun dice => ?_
  rw [run_ofExcept]
  exact congrArg (·, _) (Roster.level_ofRecords rs u)

/-- A walk that carries out one operation on the roster, which is not refused
here. -/
theorem always_operation {walk : Walk α} (operation : Roster → Except Error α × Roster)
    (runs : ∀ w, walk.run w = ((operation w.roster).1, { w with roster := (operation w.roster).2 }))
    {value : α} {roster' : Roster} (does : operation site.roster = (.ok value, roster')) :
    walk.Always site fun v site' => v = value ∧ site' = ⟨roster', site.scope⟩ := by
  refine always_of_run fun dice => ?_
  rw [runs]
  change ((operation site.roster).1, Walker.mk dice (operation site.roster).2 site.scope) = _
  rw [does]
  rfl

theorem always_nameContract :
    nameContract.Always (.inUnit rs u s) fun name site' =>
      name = contractName u.contracts ∧ site' = .inUnit rs u.nameContract.2 s :=
  always_operation Roster.nameContract (fun _ => run_ofExcept _ _)
    (Roster.nameContract_ofRecords rs u)

theorem always_nameFunction :
    nameFunction.Always (.inUnit rs u s) fun name site' =>
      name = functionName u.functions ∧ site' = .inUnit rs u.nameFunction.2 s :=
  always_operation Roster.nameFunction (fun _ => run_ofExcept _ _)
    (Roster.nameFunction_ofRecords rs u)

theorem run_addImport (target : String) (w : Walker) :
    (addImport target).run w =
      ((w.roster.addImport target).1, { w with roster := (w.roster.addImport target).2 }) :=
  run_ofExcept _ _

/-- An import of an earlier unit that was recorded before is answered with
`false` and changes nothing. -/
theorem always_addImport {i : Nat} (earlier : i < rs.length) :
    (addImport (unitPath i)).Always (.inUnit rs u s) fun isNew site' =>
      (isNew = false ∧ site' = .inUnit rs u s) ∨
        isNew = true ∧ unitPath i ∉ u.imports ∧
          site' = .inUnit rs { u with imports := u.imports ++ [unitPath i] } s := by
  have does := Roster.addImport_ofRecords rs u earlier
  by_cases known : unitPath i ∈ u.imports
  · rw [if_pos known] at does
    refine (always_operation (Roster.addImport · (unitPath i)) (fun _ => run_ofExcept _ _) does).mono
      fun isNew site' ended => Or.inl ended
  · rw [if_neg known] at does
    refine (always_operation (Roster.addImport · (unitPath i)) (fun _ => run_ofExcept _ _) does).mono
      fun isNew site' ended => Or.inr ⟨ended.1, known, ended.2⟩

theorem mem_otherPaths (rs : List UnitRecord) (u : UnitRecord) (path : String) :
    path ∈ (Roster.ofRecords (rs ++ [u])).paths.filter (· ≠ unitPath rs.length) ↔
      ∃ i < rs.length, path = unitPath i := by
  rw [List.mem_filter, (Roster.paths_ofRecords _).mem_iff, List.mem_map]
  simp only [List.mem_range, List.length_append, List.length_singleton, decide_eq_true_eq]
  constructor
  · rintro ⟨⟨i, below, rfl⟩, apart⟩
    have other : i ≠ rs.length := fun same => apart (congrArg unitPath same)
    exact ⟨i, by omega, rfl⟩
  · rintro ⟨i, below, rfl⟩
    refine ⟨⟨i, by omega, rfl⟩, fun same => ?_⟩
    have number := unitPath_injective same
    omega

/-- A path other than the current one is that of an earlier unit. -/
theorem always_otherPath (earlier : 0 < rs.length) :
    otherPath.Always (.inUnit rs u s) fun path site' =>
      (∃ i < rs.length, path = unitPath i) ∧ site' = .inUnit rs u s := by
  refine always_survey.bind fun roster site' surveyed => ?_
  obtain ⟨rfl, rfl⟩ := surveyed
  have enough : ¬ (Roster.ofRecords (rs ++ [u])).size < 2 := by
    rw [Roster.size_ofRecords, List.length_append, List.length_singleton]
    omega
  have nonempty :
      0 < ((Roster.ofRecords (rs ++ [u])).paths.filter (· ≠ unitPath rs.length)).length :=
    List.length_pos_of_mem ((mem_otherPaths rs u (unitPath 0)).2 ⟨0, earlier, rfl⟩)
  change Always (if (Roster.ofRecords (rs ++ [u])).size < 2 then _ else _) _ _
  rw [if_neg enough]
  have current : (ofExcept (Roster.ofRecords (rs ++ [u])).currentPath).Always (.inUnit rs u s)
      fun path site' => path = unitPath rs.length ∧ site' = .inUnit rs u s := by
    rw [Roster.currentPath_ofRecords]
    exact always_pure ⟨rfl, rfl⟩
  refine current.bind fun path site' found => ?_
  obtain ⟨rfl, rfl⟩ := found
  refine (draws_choosePath 2 nonempty _).mono fun path site' drawn => ?_
  exact ⟨(mem_otherPaths rs u path).1 drawn.1, drawn.2⟩

/-! ## Member scopes -/

theorem Always.attempt {walk : Walk α} {post : α → Site → Prop} (always : walk.Always site post) :
    walk.attempt.Always site fun result site' => ∃ value, result = .ok value ∧ post value site' := by
  intro dice
  obtain ⟨value, site', dice', ran, holds⟩ := always dice
  refine ⟨.ok value, site', dice', ?_, value, rfl, holds⟩
  rw [run_attempt, ran]

theorem always_setScope (scope : Scope) :
    (setScope scope).Always site fun _ site' => site' = ⟨site.roster, scope⟩ :=
  (always_of_run fun _ => rfl).mono fun _ _ ended => ended.2

theorem always_indent :
    indent.Always (.inUnit rs u s) fun _ site' =>
      site' = .inUnit rs { u with level := u.level + 1 } s :=
  (always_operation Roster.indent (fun _ => run_ofExcept _ _) (Roster.indent_ofRecords rs u)).mono
    fun _ _ ended => ended.2

theorem always_unindent {level : Nat} (inside : u.level = level + 1) :
    unindent.Always (.inUnit rs u s) fun _ site' => site' = .inUnit rs { u with level } s :=
  (always_operation Roster.unindent (fun _ => run_ofExcept _ _)
    (Roster.unindent_ofRecords rs u level inside)).mono fun _ _ ended => ended.2

theorem always_enterMembers :
    enterMembers.Always (.inUnit rs u s) fun _ site' =>
      site' = .inUnit rs { u with level := u.level + 1 } .member := by
  refine always_indent.bind fun _ site' deeper => ?_
  subst deeper
  exact always_setScope .member

theorem always_leaveMembers {level : Nat} (inside : u.level = level + 1) :
    leaveMembers.Always (.inUnit rs u s) fun _ site' =>
      site' = .inUnit rs { u with level } .free := by
  refine (always_setScope .free).bind fun _ site' freed => ?_
  subst freed
  exact always_unindent inside

/-- A body that keeps the level it starts at, one deeper than outside. Functions
are free after the scope, whatever they were before it. -/
theorem always_memberScope {body : Walk α} {post : α → UnitRecord → Prop}
    (inside : body.Always (.inUnit rs { u with level := u.level + 1 } .member) fun value site' =>
      ∃ u', site' = .inUnit rs u' .member ∧ u'.level = u.level + 1 ∧
        post value { u' with level := u.level }) :
    (memberScope body).Always (.inUnit rs u s) fun value site' =>
      ∃ u', site' = .inUnit rs u' .free ∧ post value u' := by
  refine always_enterMembers.bind fun _ site' entered => ?_
  subst entered
  refine inside.attempt.bind fun result site' ended => ?_
  obtain ⟨value, rfl, u', rfl, level, holds⟩ := ended
  refine (always_leaveMembers level).attempt.bind fun left site' ended => ?_
  obtain ⟨_, rfl, rfl⟩ := ended
  exact always_pure ⟨_, rfl, holds⟩

end Walk

end SeedGrammar
