/-
# SeedGrammar.Proofs.Roster.Balance — what a roster keeps while units are written

Looking up a path after an operation: only the record that was put is another one
(`unit?_put_of_ne`), and a new unit is found under its path alone (`unit?_addUnit_cases`).

One roster balances another if a walk could have gone from it to the other without
indenting in the end: the current unit is at its old level, other units are as they
were, new ones are at the margin, and the current path has moved to a new unit if it
has moved at all. Balance is kept along a sequence (`Balanced.trans`), because what was
not current at first cannot become current later. Indenting breaks it, and
`Balanced.inside` mends it: whatever is in balance between an `indent` and an `unindent`
is so from outside.
-/
import SeedGrammar.Proofs.Roster.Sound

namespace SeedGrammar

set_option autoImplicit false

namespace Roster

variable {α : Type} {roster : Roster} {path other : String} {u u' : UnitRecord}

/-! ## Looking up a path -/

theorem unit?_put_of_ne (apart : other ≠ path) :
    (roster.put path u').unit? other = roster.unit? other := by
  unfold unit? put
  induction roster.units with
  | nil => rfl
  | cons entry entries ih =>
    rw [List.map_cons, List.lookup_cons, List.lookup_cons, ih]
    by_cases here : entry.1 = path
    · have elsewhere : (other == entry.1) = false := by simp [here, apart]
      have replaced : (other == path) = false := by simp [apart]
      simp only [if_pos here, replaced, elsewhere]
    · simp only [if_neg here]

theorem unit?_put_self (known : roster.unit? path = some u) :
    (roster.put path u').unit? path = some u' := by
  unfold unit? at *
  unfold put
  generalize roster.units = entries at known ⊢
  induction entries with
  | nil => cases known
  | cons entry entries ih =>
    rw [List.map_cons, List.lookup_cons]
    by_cases here : entry.1 = path
    · simp only [if_pos here, beq_self_eq_true]
    · have elsewhere : (path == entry.1) = false := by simp [Ne.symm here]
      rw [List.lookup_cons, elsewhere] at known
      simp only [if_neg here, elsewhere]
      exact ih known

theorem ne_of_missing (known : roster.unit? path = some u) (missing : roster.unit? other = none) :
    other ≠ path := by
  rintro rfl
  rw [known] at missing
  cases missing

theorem unit?_addUnit_of_known (known : roster.unit? path = some u) :
    roster.addUnit.2.unit? path = some u := by
  unfold unit? addUnit at *
  rw [List.lookup_append, known]
  rfl

/-- A unit that was not there before is the blank one just added. -/
theorem unit?_addUnit_cases (found : roster.addUnit.2.unit? path = some u) :
    roster.unit? path = some u ∨ path = roster.addUnit.1 ∧ u = .blank := by
  unfold unit? addUnit at *
  rw [List.lookup_append, Option.or_eq_some_iff] at found
  rcases found with known | ⟨-, added⟩
  · exact Or.inl known
  · rw [List.lookup_cons] at added
    by_cases new : path = unitPath roster.minted
    · have same : (path == unitPath roster.minted) = true := by simp [new]
      rw [same] at added
      exact Or.inr ⟨new, (Option.some.inj added).symm⟩
    · have apart : (path == unitPath roster.minted) = false := by simp [new]
      rw [apart] at added
      cases added

theorem withCurrent_of_current {act : String → UnitRecord → Except Error (α × UnitRecord)}
    (current : roster.current = some path) (known : roster.unit? path = some u) :
    roster.withCurrent act =
      match act path u with
      | .error e => (.error e, roster)
      | .ok (value, u') => (.ok value, roster.put path u') := by
  unfold withCurrent
  rcases done : act path u with e | ⟨value, u'⟩
  · simp only [current, known, done]
  · simp only [current, known, done]

/-- A refused operation leaves the roster as it was. -/
theorem withCurrent_of_refused {act : String → UnitRecord → Except Error (α × UnitRecord)}
    {e : Error} {after : Roster} (refused : roster.withCurrent act = (.error e, after)) :
    after = roster := by
  unfold withCurrent at refused
  split at refused
  · exact (congrArg Prod.snd refused).symm
  · split at refused
    · exact (congrArg Prod.snd refused).symm
    · split at refused
      · exact (congrArg Prod.snd refused).symm
      · cases refused

end Roster

/-! ## Balance -/

structure Roster.Balanced (before after : Roster) : Prop where
  /-- Every unit is at its old level. -/
  level : ∀ {path u}, before.unit? path = some u →
    ∃ u', after.unit? path = some u' ∧ u'.level = u.level
  /-- Units other than the current one are as they were. -/
  others : ∀ {path u}, before.current ≠ some path → before.unit? path = some u →
    after.unit? path = some u
  /-- New units are at the margin. -/
  added : ∀ {path u}, before.unit? path = none → after.unit? path = some u → u.level = 0
  /-- Only a new unit takes the place of the current one. -/
  moved : after.current = before.current ∨
    ∃ path, after.current = some path ∧ before.unit? path = none

namespace Roster.Balanced

variable {before mid after : Roster} {path : String} {u u' : UnitRecord}

theorem refl (roster : Roster) : roster.Balanced roster where
  level := fun known => ⟨_, known, rfl⟩
  others := fun _ known => known
  added := fun missing known => absurd rfl (ne_of_missing known missing)
  moved := Or.inl rfl

theorem missing_of_missing (first : before.Balanced mid) (missing : mid.unit? path = none) :
    before.unit? path = none := by
  cases known : before.unit? path with
  | none => rfl
  | some u =>
    obtain ⟨u', found, -⟩ := first.level known
    exact absurd rfl (ne_of_missing found missing)

/-- A unit on the roster that is not current does not become current. -/
theorem not_current (first : before.Balanced mid) (known : before.unit? path = some u)
    (apart : before.current ≠ some path) : mid.current ≠ some path := by
  rcases first.moved with same | ⟨new, current, missing⟩
  · rwa [same]
  · rw [current]
    exact fun isCurrent => ne_of_missing known missing (Option.some.inj isCurrent)

theorem trans (first : before.Balanced mid) (second : mid.Balanced after) :
    before.Balanced after where
  level := fun known => by
    obtain ⟨u', found, same⟩ := first.level known
    obtain ⟨u'', found', same'⟩ := second.level found
    exact ⟨u'', found', same'.trans same⟩
  others := fun apart known =>
    second.others (first.not_current known apart) (first.others apart known)
  added := fun {path u} missing found => by
    cases between : mid.unit? path with
    | none => exact second.added between found
    | some u' =>
      obtain ⟨u'', found', same⟩ := second.level between
      rw [found] at found'
      rw [Option.some.inj found', same]
      exact first.added missing between
  moved := by
    rcases second.moved with same | ⟨new, current, missing⟩
    · rw [same]
      exact first.moved
    · exact Or.inr ⟨new, current, first.missing_of_missing missing⟩

/-! ## Operations in balance -/

theorem addUnit {roster : Roster} (sound : roster.Sound) :
    roster.Balanced roster.addUnit.2 where
  level := fun known => ⟨_, unit?_addUnit_of_known known, rfl⟩
  others := fun _ known => unit?_addUnit_of_known known
  added := fun missing found => by
    rcases unit?_addUnit_cases found with known | ⟨-, rfl⟩
    · exact absurd rfl (ne_of_missing known missing)
    · rfl
  moved := Or.inr ⟨_, rfl, sound.fresh⟩

/-- Another record at the same level is put in place of the current one. -/
theorem put {roster : Roster} (current : roster.current = some path)
    (known : roster.unit? path = some u) (same : u'.level = u.level) :
    roster.Balanced (roster.put path u') where
  level := fun {other v} found => by
    by_cases here : other = path
    · subst here
      rw [known] at found
      obtain rfl := Option.some.inj found
      exact ⟨u', unit?_put_self known, same⟩
    · exact ⟨v, by rwa [unit?_put_of_ne here], rfl⟩
  others := fun {other v} apart found => by
    have here : other ≠ path := fun equal => apart (equal ▸ current)
    rwa [unit?_put_of_ne here]
  added := fun {other v} missing found => by
    rw [unit?_put_of_ne (ne_of_missing known missing), missing] at found
    cases found
  moved := Or.inl rfl

end Roster.Balanced

/-- In balance, with no move from the current unit. -/
structure Roster.Steady (before after : Roster) : Prop extends before.Balanced after where
  current : after.current = before.current

namespace Roster.Steady

variable {α : Type} {before mid after roster : Roster}

theorem refl (roster : Roster) : roster.Steady roster where
  toBalanced := .refl roster
  current := rfl

theorem trans (first : before.Steady mid) (second : mid.Steady after) : before.Steady after where
  toBalanced := first.toBalanced.trans second.toBalanced
  current := second.current.trans first.current

/-- Whether or not it is refused, an operation on the current unit that does not indent
it is steady. -/
theorem withCurrent (sound : roster.Sound)
    {act : String → UnitRecord → Except Error (α × UnitRecord)}
    (levels : ∀ {path u value u'}, act path u = .ok (value, u') → u'.level = u.level) :
    roster.Steady (roster.withCurrent act).2 := by
  rcases sound.withCurrent_cases act with nothing | ⟨path, u, current, known, done⟩
  · rw [nothing]
    exact .refl roster
  · rcases done with ⟨e, -, same⟩ | ⟨value, u', did, same⟩
    · rw [same]
      exact .refl roster
    · rw [same]
      exact { toBalanced := .put current known (levels did), current := rfl }

theorem nameContract (sound : roster.Sound) : roster.Steady roster.nameContract.2 := by
  refine withCurrent sound fun did => ?_
  cases did
  rfl

theorem nameFunction (sound : roster.Sound) : roster.Steady roster.nameFunction.2 := by
  refine withCurrent sound fun did => ?_
  cases did
  rfl

theorem addImport (sound : roster.Sound) (target : String) :
    roster.Steady (roster.addImport target).2 := by
  unfold Roster.addImport
  by_cases itself : roster.current = some target
  · rw [if_pos itself]
    exact .refl roster
  · rw [if_neg itself]
    refine withCurrent sound fun {path u _ _} did => ?_
    by_cases known : target ∈ u.imports
    · rw [if_pos known] at did
      cases did
      rfl
    · rw [if_neg known] at did
      cases did
      rfl

theorem exists_of_indent {inner : Roster} (sound : roster.Sound)
    (entered : roster.indent = (.ok (), inner)) :
    ∃ path u, roster.current = some path ∧ roster.unit? path = some u ∧
      inner = roster.put path { u with level := u.level + 1 } := by
  unfold Roster.indent at entered
  rcases sound.withCurrent_cases fun _ u => .ok ((), { u with level := u.level + 1 }) with
    nothing | ⟨path, u, current, known, ⟨e, refused, -⟩ | ⟨value, u', did, same⟩⟩
  · rw [nothing] at entered
    cases entered
  · cases refused
  · cases did
    rw [same] at entered
    exact ⟨path, u, current, known, (congrArg Prod.snd entered).symm⟩

/-- Between an `indent` and the `unindent` after it, whatever is steady at the deeper
level is steady from outside. -/
theorem inside {inner inner' : Roster} (sound : roster.Sound)
    (entered : roster.indent = (.ok (), inner)) (within : inner.Steady inner') :
    inner'.unindent.1 = .ok () ∧ roster.Steady inner'.unindent.2 := by
  obtain ⟨path, u, current, known, rfl⟩ := exists_of_indent sound entered
  obtain ⟨v, deep, level⟩ := within.level (unit?_put_self known)
  have stillCurrent : inner'.current = some path := within.current.trans current
  have left : inner'.unindent = (.ok (), inner'.put path { v with level := u.level }) := by
    unfold Roster.unindent
    rw [withCurrent_of_current stillCurrent deep, level]
  rw [left]
  refine ⟨rfl, ⟨?level, ?others, ?added, ?moved⟩, ?current⟩
  case level =>
    intro other x found
    by_cases here : other = path
    · subst here
      rw [known] at found
      obtain rfl := Option.some.inj found
      exact ⟨_, unit?_put_self deep, rfl⟩
    · rw [← unit?_put_of_ne here] at found
      obtain ⟨y, found', same⟩ := within.level found
      exact ⟨y, by rwa [unit?_put_of_ne here], same⟩
  case others =>
    intro other x apart found
    have here : other ≠ path := fun equal => apart (equal ▸ current)
    rw [← unit?_put_of_ne here] at found
    rw [unit?_put_of_ne here]
    exact within.others apart found
  case added =>
    intro other x missing found
    have here : other ≠ path := ne_of_missing known missing
    rw [unit?_put_of_ne here] at found
    exact within.added (by rwa [unit?_put_of_ne here]) found
  case moved => exact Or.inl within.current
  case current => exact within.current

end Roster.Steady

/-- In balance, with every unit as it was, the current one too. -/
structure Roster.Intact (before after : Roster) : Prop extends before.Balanced after where
  all : ∀ {path u}, before.unit? path = some u → after.unit? path = some u

namespace Roster.Intact

variable {before mid after roster : Roster}

theorem refl (roster : Roster) : roster.Intact roster where
  toBalanced := .refl roster
  all := id

theorem trans (first : before.Intact mid) (second : mid.Intact after) : before.Intact after where
  toBalanced := first.toBalanced.trans second.toBalanced
  all := fun known => second.all (first.all known)

/-- Whatever happens in balance after a unit has been added happens to that unit. -/
theorem addUnit (sound : roster.Sound) (rest : roster.addUnit.2.Balanced after) :
    roster.Intact after where
  toBalanced := (Balanced.addUnit sound).trans rest
  all := fun {path u} known => by
    have apart : roster.addUnit.2.current ≠ some path :=
      fun isNew => ne_of_missing known sound.fresh (Option.some.inj isNew)
    exact rest.others apart (unit?_addUnit_of_known known)

end Roster.Intact

end SeedGrammar
