/-
# SeedGrammar.Proofs.Roster.Growth — what a roster never loses, and the names it gives out

Whatever is done to its units, a roster grows: units stay on it with the imports they
have, all records but the current one are closed, and a unit that is not current does not
become current (`Roster.Grown`). Names are given out on the way. Those of one kind in one
unit are numbered on from the count of the unit, without a gap, so no unit is given a name
twice (`Grown.nodup_names`).

One operation is a stretch of growth (`Grown.withCurrent`, `Grown.addUnit`), and stretches
add up (`Grown.trans`). A refused operation gives out no name and skips no number.
-/
import SeedGrammar.Proofs.Roster.Balance
import Mathlib.Data.List.Nodup

namespace SeedGrammar

set_option autoImplicit false

/-! ## Names -/

inductive NameKind where
  | contract
  | function
  deriving DecidableEq

/-- The names of one kind, by number. -/
def NameKind.name : NameKind → Nat → String
  | contract, n => "C" ++ toString n
  | function, n => "f" ++ toString n

/-- A name tells its kind and its number. -/
theorem NameKind.name_injective {kind kind' : NameKind} {m n : Nat}
    (same : kind.name m = kind'.name n) : kind = kind' ∧ m = n := by
  have chars := congrArg String.toList same
  cases kind <;> cases kind' <;>
    simp only [name, String.toList_append] at chars
  · exact ⟨rfl, toString_nat_injective (String.toList_inj.1 (List.append_cancel_left chars))⟩
  · cases chars
  · cases chars
  · exact ⟨rfl, toString_nat_injective (String.toList_inj.1 (List.append_cancel_left chars))⟩

/-- A name given to a part of the unit at a path. -/
structure Naming where
  path : String
  kind : NameKind
  name : String
  deriving DecidableEq

/-- The names of one kind given in one unit, in the order in which they were given. -/
def namesIn (namings : List Naming) (path : String) (kind : NameKind) : List String :=
  (namings.filter fun naming => naming.path = path ∧ naming.kind = kind).map Naming.name

theorem namesIn_append (namings others : List Naming) (path : String) (kind : NameKind) :
    namesIn (namings ++ others) path kind = namesIn namings path kind ++ namesIn others path kind := by
  simp [namesIn]

theorem namesIn_of_elsewhere {namings : List Naming} {path other : String} (apart : other ≠ path)
    (here : ∀ naming ∈ namings, naming.path = path) (kind : NameKind) :
    namesIn namings other kind = [] := by
  unfold namesIn
  rw [List.map_eq_nil_iff, List.filter_eq_nil_iff]
  intro naming member
  simp [here naming member, Ne.symm apart]

/-- Values that tell the kind of what they belong to are all different if those of each
kind are. -/
theorem nodup_map_of_filter {α β κ : Type} [DecidableEq κ] (kind : α → κ) {f : α → β} {xs : List α}
    (tells : ∀ x ∈ xs, ∀ y ∈ xs, f x = f y → kind x = kind y)
    (each : ∀ k, ((xs.filter fun x => kind x = k).map f).Nodup) : (xs.map f).Nodup := by
  induction xs with
  | nil => exact List.nodup_nil
  | cons x xs ih =>
    have others := ih (fun y known z known' => tells y (by simp [known]) z (by simp [known']))
      fun k => (each k).sublist (((List.sublist_cons_self x xs).filter _).map f)
    have own := each (kind x)
    rw [List.filter_cons_of_pos (by simp), List.map_cons, List.nodup_cons] at own
    refine List.nodup_cons.2 ⟨fun again => own.1 ?_, others⟩
    obtain ⟨y, known, same⟩ := List.mem_map.1 again
    have ofKind : kind y = kind x := tells y (by simp [known]) x (by simp) same
    exact List.mem_map.2 ⟨y, List.mem_filter.2 ⟨known, by simpa using ofKind⟩, same⟩

/-- How many names of a kind the unit has given. -/
def UnitRecord.count (u : UnitRecord) : NameKind → Nat
  | .contract => u.contracts
  | .function => u.functions

namespace Roster

/-- How many names of a kind have been given in the unit at a path; none in a unit that is
still to be added. -/
def count (roster : Roster) (path : String) (kind : NameKind) : Nat :=
  ((roster.unit? path).map (·.count kind)).getD 0

variable {roster : Roster} {path : String} {u : UnitRecord}

theorem count_of_known (known : roster.unit? path = some u) (kind : NameKind) :
    roster.count path kind = u.count kind := by
  rw [count, known]
  rfl

theorem count_of_missing (missing : roster.unit? path = none) (kind : NameKind) :
    roster.count path kind = 0 := by
  rw [count, missing]
  rfl

end Roster

/-! ## Growth of one record -/

/-- What may become of the record of the current unit, at a path, while names are given. -/
structure UnitRecord.Onward (path : String) (u : UnitRecord) (namings : List Naming)
    (u' : UnitRecord) : Prop where
  imports : u.imports ⊆ u'.imports
  here : ∀ naming ∈ namings, naming.path = path
  numbered : ∀ kind, ∃ n, namesIn namings path kind =
    (List.range' (u.count kind) n).map kind.name ∧ u'.count kind = u.count kind + n

namespace UnitRecord.Onward

variable {path : String} {u u' : UnitRecord}

theorem silent (imports : u.imports ⊆ u'.imports) (same : ∀ kind, u'.count kind = u.count kind) :
    u.Onward path [] u' where
  imports := imports
  here := by simp
  numbered := fun kind => ⟨0, rfl, same kind⟩

theorem nameContract (path : String) (u : UnitRecord) :
    u.Onward path [⟨path, .contract, u.nameContract.1⟩] u.nameContract.2 where
  imports := List.Subset.refl _
  here := by simp
  numbered := fun kind => by
    cases kind with
    | contract => exact ⟨1, by simp [namesIn]; rfl, rfl⟩
    | function => exact ⟨0, by simp [namesIn], rfl⟩

theorem nameFunction (path : String) (u : UnitRecord) :
    u.Onward path [⟨path, .function, u.nameFunction.1⟩] u.nameFunction.2 where
  imports := List.Subset.refl _
  here := by simp
  numbered := fun kind => by
    cases kind with
    | contract => exact ⟨0, by simp [namesIn], rfl⟩
    | function => exact ⟨1, by simp [namesIn]; rfl, rfl⟩

end UnitRecord.Onward

/-! ## Growth of a roster -/

structure Roster.Grown (before : Roster) (namings : List Naming) (after : Roster) : Prop where
  /-- Every unit is there, with its imports. -/
  kept : ∀ {path u}, before.unit? path = some u →
    ∃ u', after.unit? path = some u' ∧ u.imports ⊆ u'.imports
  /-- Units other than the current one are as they were. -/
  closed : ∀ {path u}, before.current ≠ some path → before.unit? path = some u →
    after.unit? path = some u
  /-- Only a new unit takes the place of the current one. -/
  moved : after.current = before.current ∨
    ∃ path, after.current = some path ∧ before.unit? path = none
  /-- No path is given out again. -/
  minted : before.minted ≤ after.minted
  /-- The names of each kind are numbered on from the count of their unit. -/
  numbered : ∀ path kind, ∃ n, namesIn namings path kind =
    (List.range' (before.count path kind) n).map kind.name ∧
      after.count path kind = before.count path kind + n

namespace Roster.Grown

variable {α : Type} {before mid after roster : Roster} {namings others : List Naming}
  {path : String} {u u' : UnitRecord}

theorem refl (roster : Roster) : roster.Grown [] roster where
  kept := fun known => ⟨_, known, List.Subset.refl _⟩
  closed := fun _ known => known
  moved := Or.inl rfl
  minted := Nat.le_refl _
  numbered := fun _ _ => ⟨0, rfl, rfl⟩

theorem missing_of_missing (first : before.Grown namings mid) (missing : mid.unit? path = none) :
    before.unit? path = none := by
  cases known : before.unit? path with
  | none => rfl
  | some u =>
    obtain ⟨u', found, -⟩ := first.kept known
    exact absurd rfl (ne_of_missing found missing)

theorem not_current (first : before.Grown namings mid) (known : before.unit? path = some u)
    (apart : before.current ≠ some path) : mid.current ≠ some path := by
  rcases first.moved with same | ⟨new, current, missing⟩
  · rwa [same]
  · rw [current]
    exact fun isCurrent => ne_of_missing known missing (Option.some.inj isCurrent)

theorem trans (first : before.Grown namings mid) (second : mid.Grown others after) :
    before.Grown (namings ++ others) after where
  kept := fun known => by
    obtain ⟨u', found, more⟩ := first.kept known
    obtain ⟨u'', found', more'⟩ := second.kept found
    exact ⟨u'', found', List.Subset.trans more more'⟩
  closed := fun apart known =>
    second.closed (first.not_current known apart) (first.closed apart known)
  moved := by
    rcases second.moved with same | ⟨new, current, missing⟩
    · rw [same]
      exact first.moved
    · exact Or.inr ⟨new, current, first.missing_of_missing missing⟩
  minted := Nat.le_trans first.minted second.minted
  numbered := fun path kind => by
    obtain ⟨m, names, count⟩ := first.numbered path kind
    obtain ⟨n, names', count'⟩ := second.numbered path kind
    refine ⟨m + n, ?_, by rw [count', count, Nat.add_assoc]⟩
    rw [namesIn_append, names, names', count, ← List.map_append, List.range'_append_1]

/-! ## Operations -/

theorem addUnit (sound : roster.Sound) : roster.Grown [] roster.addUnit.2 where
  kept := fun known => ⟨_, unit?_addUnit_of_known known, List.Subset.refl _⟩
  closed := fun _ known => unit?_addUnit_of_known known
  moved := Or.inr ⟨_, rfl, sound.fresh⟩
  minted := Nat.le_succ _
  numbered := fun path kind => by
    refine ⟨0, rfl, ?_⟩
    cases found : roster.addUnit.2.unit? path with
    | none =>
      have missing : roster.unit? path = none := by
        cases known : roster.unit? path with
        | none => rfl
        | some u => exact absurd rfl (ne_of_missing (unit?_addUnit_of_known known) found)
      rw [count_of_missing found, count_of_missing missing]
    | some u =>
      rcases unit?_addUnit_cases found with known | ⟨rfl, rfl⟩
      · rw [count_of_known found, count_of_known known]
        rfl
      · rw [count_of_known found, count_of_missing sound.fresh]
        cases kind <;> rfl

theorem put (current : roster.current = some path) (known : roster.unit? path = some u)
    (onward : u.Onward path namings u') : roster.Grown namings (roster.put path u') where
  kept := fun {other v} found => by
    by_cases here : other = path
    · subst here
      rw [known] at found
      obtain rfl := Option.some.inj found
      exact ⟨u', unit?_put_self known, onward.imports⟩
    · exact ⟨v, by rwa [unit?_put_of_ne here], List.Subset.refl _⟩
  closed := fun {other v} apart found => by
    have here : other ≠ path := fun equal => apart (equal ▸ current)
    rwa [unit?_put_of_ne here]
  moved := Or.inl rfl
  minted := Nat.le_refl _
  numbered := fun other kind => by
    by_cases here : other = path
    · subst here
      rw [count_of_known known, count_of_known (unit?_put_self known)]
      exact onward.numbered kind
    · refine ⟨0, namesIn_of_elsewhere here onward.here kind, ?_⟩
      rw [count, unit?_put_of_ne here]
      rfl

/-- An operation on the current unit, with the names that its result tells of. -/
theorem withCurrent (sound : roster.Sound)
    {act : String → UnitRecord → Except Error (α × UnitRecord)}
    (tell : Except Error α → List Naming) (silent : ∀ e, tell (.error e) = [])
    (onward : ∀ {path u value u'}, roster.current = some path → act path u = .ok (value, u') →
      u.Onward path (tell (.ok value)) u') :
    roster.Grown (tell (roster.withCurrent act).1) (roster.withCurrent act).2 := by
  rcases sound.withCurrent_cases act with nothing | ⟨path, u, current, known, done⟩
  · rw [nothing, silent]
    exact .refl roster
  · rcases done with ⟨e, -, same⟩ | ⟨value, u', did, same⟩
    · rw [same, silent]
      exact .refl roster
    · rw [same]
      exact .put current known (onward current did)

end Roster.Grown

/-- The name in the answer of an operation on the current unit. -/
def Roster.given (roster : Roster) (kind : NameKind) : Except Error String → List Naming
  | .ok name => roster.current.toList.map fun path => ⟨path, kind, name⟩
  | .error _ => []

theorem Roster.given_ok {roster : Roster} {path : String} (current : roster.current = some path)
    (kind : NameKind) (name : String) : roster.given kind (.ok name) = [⟨path, kind, name⟩] := by
  rw [given, current]
  rfl

namespace Roster.Grown

variable {roster : Roster}

theorem nameContract (sound : roster.Sound) :
    roster.Grown (roster.given .contract roster.nameContract.1) roster.nameContract.2 := by
  refine withCurrent sound _ (fun _ => rfl) fun {path u _ _} current did => ?_
  cases did
  rw [given_ok current]
  exact .nameContract path u

theorem nameFunction (sound : roster.Sound) :
    roster.Grown (roster.given .function roster.nameFunction.1) roster.nameFunction.2 := by
  refine withCurrent sound _ (fun _ => rfl) fun {path u _ _} current did => ?_
  cases did
  rw [given_ok current]
  exact .nameFunction path u

theorem indent (sound : roster.Sound) : roster.Grown [] roster.indent.2 := by
  refine withCurrent sound (fun _ => []) (fun _ => rfl) fun _ did => ?_
  cases did
  exact .silent (List.Subset.refl _) fun kind => by cases kind <;> rfl

theorem unindent (sound : roster.Sound) : roster.Grown [] roster.unindent.2 := by
  refine withCurrent sound (fun _ => []) (fun _ => rfl) fun {path u _ _} _ did => ?_
  cases deep : u.level with
  | zero =>
    rw [deep] at did
    cases did
  | succ level =>
    rw [deep] at did
    cases did
    exact .silent (List.Subset.refl _) fun kind => by cases kind <;> rfl

theorem addImport (sound : roster.Sound) (target : String) :
    roster.Grown [] (roster.addImport target).2 := by
  unfold Roster.addImport
  by_cases itself : roster.current = some target
  · rw [if_pos itself]
    exact .refl roster
  · rw [if_neg itself]
    refine withCurrent sound (fun _ => []) (fun _ => rfl) fun {path u _ _} _ did => ?_
    by_cases known : target ∈ u.imports
    · rw [if_pos known] at did
      cases did
      exact .silent (List.Subset.refl _) fun _ => rfl
    · rw [if_neg known] at did
      cases did
      exact .silent (List.subset_append_left _ _) fun kind => by cases kind <;> rfl

/-! ## No name twice -/

theorem count_le {before after : Roster} {namings : List Naming}
    (grown : before.Grown namings after) (path : String) (kind : NameKind) :
    before.count path kind ≤ after.count path kind := by
  obtain ⟨n, -, count⟩ := grown.numbered path kind
  omega

theorem exists_number {before after : Roster} {namings : List Naming}
    (grown : before.Grown namings after) {naming : Naming} (member : naming ∈ namings) :
    ∃ i, naming.name = naming.kind.name i := by
  obtain ⟨n, names, -⟩ := grown.numbered naming.path naming.kind
  have listed : naming.name ∈ namesIn namings naming.path naming.kind :=
    List.mem_map_of_mem (List.mem_filter.2 ⟨member, by simp⟩)
  rw [names] at listed
  obtain ⟨i, -, same⟩ := List.mem_map.1 listed
  exact ⟨i, same.symm⟩

theorem nodup_namesIn {before after : Roster} {namings : List Naming}
    (grown : before.Grown namings after) (path : String) (kind : NameKind) :
    (namesIn namings path kind).Nodup := by
  obtain ⟨n, names, -⟩ := grown.numbered path kind
  rw [names]
  exact (List.nodup_range' 1 Nat.one_pos).map fun _ _ same => (NameKind.name_injective same).2

/-- No unit is given a name twice. Names of different kinds are different, so it is enough
that those of one kind are. -/
theorem nodup_names {before after : Roster} {namings : List Naming}
    (grown : before.Grown namings after) (path : String) :
    ((namings.filter fun naming => naming.path = path).map Naming.name).Nodup := by
  refine nodup_map_of_filter Naming.kind (fun naming known other known' same => ?_) fun kind => ?_
  · obtain ⟨i, name⟩ := grown.exists_number (List.mem_filter.1 known).1
    obtain ⟨j, name'⟩ := grown.exists_number (List.mem_filter.1 known').1
    exact (NameKind.name_injective (name.symm.trans (same.trans name'))).1
  · have apart := grown.nodup_namesIn path kind
    simpa only [namesIn, List.filter_filter, Bool.decide_and, Bool.and_comm] using apart

end Roster.Grown

end SeedGrammar
