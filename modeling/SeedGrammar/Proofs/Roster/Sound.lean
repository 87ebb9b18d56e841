/-
# SeedGrammar.Proofs.Roster.Sound — what every operation keeps of a roster

A roster is sound if its paths are numbered without gaps, the last of them is current,
and each record has the names last given and no import of its own path. Adding a unit
keeps a roster sound, as the next number has not been used (`Sound.fresh`). All other
operations go through `Roster.withCurrent`, and `Sound.withCurrent_cases` lists what
that can do to a sound roster. Not to find the current unit is no part of the list.
-/
import SeedGrammar.Proofs.Roster.Records

namespace SeedGrammar

set_option autoImplicit false

/-! ## Records -/

/-- The name given last, of so many. -/
def lastName (name : Nat → String) : Nat → Option String
  | 0 => none
  | n + 1 => some (name n)

/-- The record of the unit at a path. -/
structure UnitRecord.Sound (path : String) (u : UnitRecord) : Prop where
  notItself : path ∉ u.imports
  contract : u.contract = lastName (fun n => "C" ++ toString n) u.contracts
  function : u.function = lastName (fun n => "f" ++ toString n) u.functions

namespace UnitRecord.Sound

variable {path : String} {u : UnitRecord}

theorem blank (path : String) : UnitRecord.blank.Sound path where
  notItself := List.not_mem_nil
  contract := rfl
  function := rfl

theorem nameContract (sound : u.Sound path) : u.nameContract.2.Sound path :=
  { sound with contract := rfl }

theorem nameFunction (sound : u.Sound path) : u.nameFunction.2.Sound path :=
  { sound with function := rfl }

theorem setLevel (sound : u.Sound path) (level : Nat) : ({ u with level } : UnitRecord).Sound path :=
  { sound with }

theorem addImport (sound : u.Sound path) {target : String} (other : path ≠ target) :
    ({ u with imports := u.imports ++ [target] } : UnitRecord).Sound path :=
  { sound with notItself := by simp [sound.notItself, other] }

end UnitRecord.Sound

/-! ## Rosters -/

structure Roster.Sound (roster : Roster) : Prop where
  /-- The paths are those of the first numbers, each once. -/
  registered : roster.units.map Prod.fst =
    (List.range roster.size).map fun n => "su" ++ toString n ++ ".sol"
  minted : roster.minted = roster.size
  current : roster.current = lastName (fun n => "su" ++ toString n ++ ".sol") roster.size
  records : ∀ path u, (path, u) ∈ roster.units → u.Sound path

namespace Roster.Sound

variable {α : Type} {roster : Roster} {path : String} {u : UnitRecord}

theorem empty : Roster.Sound {} where
  registered := rfl
  minted := rfl
  current := rfl
  records := by simp

theorem unit?_isSome_iff (roster : Roster) (path : String) :
    (roster.unit? path).isSome ↔ path ∈ roster.units.map Prod.fst := by
  unfold Roster.unit?
  rw [List.lookup_isSome_iff, List.mem_map]
  constructor
  · rintro ⟨entry, member, same⟩
    exact ⟨entry, member, (beq_iff_eq.1 same).symm⟩
  · rintro ⟨entry, member, rfl⟩
    exact ⟨entry, member, beq_self_eq_true _⟩

/-- The path that is given out next is not on the roster. -/
theorem fresh (sound : roster.Sound) : roster.unit? roster.addUnit.1 = none := by
  rw [← Option.not_isSome_iff_eq_none, unit?_isSome_iff, sound.registered, List.mem_map]
  rintro ⟨i, below, same⟩
  have number : i = roster.minted := unitPath_injective same
  rw [List.mem_range, ← sound.minted] at below
  omega

/-- The current path is on the roster. -/
theorem exists_current (sound : roster.Sound) (current : roster.current = some path) :
    ∃ u, roster.unit? path = some u := by
  rw [← Option.isSome_iff_exists, unit?_isSome_iff, sound.registered, List.mem_map]
  rw [sound.current] at current
  cases size : roster.size with
  | zero =>
    rw [size] at current
    cases current
  | succ n =>
    rw [size] at current
    obtain rfl := Option.some.inj current
    exact ⟨n, by simp, rfl⟩

theorem record (sound : roster.Sound) (found : roster.unit? path = some u) : u.Sound path := by
  obtain ⟨before, after, cut, -⟩ := List.lookup_eq_some_iff.1 found
  exact sound.records path u (by simp [cut])

/-- A sound roster is decided by the records of its units. -/
theorem eq_ofRecords (sound : roster.Sound) :
    roster = .ofRecords (roster.units.map Prod.snd) := by
  obtain ⟨registered, minted, current, -⟩ := sound
  obtain ⟨entries, last, count⟩ := roster
  dsimp only [size] at registered minted current
  have numbered : entries = (ofRecords (entries.map Prod.snd)).units := by
    apply List.ext_getElem (by simp [ofRecords])
    intro i within _
    have path : (entries.map Prod.fst)[i]? = some (unitPath i) := by
      simp [registered, within, unitPath]
    rw [List.getElem?_map, List.getElem?_eq_getElem within] at path
    have whole : entries[i] = (unitPath i, entries[i].2) := Prod.ext (Option.some.inj path) rfl
    simpa [ofRecords] using whole
  subst minted current
  show _ = Roster.mk (ofRecords (entries.map Prod.snd)).units _ _
  rw [← numbered, List.length_map]
  cases entries.length with
  | zero => rfl
  | succ n => rfl

/-- There are no units, or the last one is the current one. -/
theorem empty_or_inUnit (sound : roster.Sound) :
    roster = {} ∨ ∃ rs u, roster = .ofRecords (rs ++ [u]) := by
  have same := sound.eq_ofRecords
  generalize roster.units.map Prod.snd = records at same
  subst same
  rcases List.eq_nil_or_concat records with rfl | ⟨rs, u, rfl⟩
  · exact Or.inl rfl
  · rw [List.concat_eq_append]
    exact Or.inr ⟨rs, u, rfl⟩

/-- The records of a sound roster, the current one last. -/
theorem exists_records (sound : roster.Sound) (current : roster.current = some path)
    (known : roster.unit? path = some u) :
    ∃ rs, roster = .ofRecords (rs ++ [u]) ∧ path = unitPath rs.length := by
  rcases sound.empty_or_inUnit with rfl | ⟨rs, v, rfl⟩
  · cases current
  · rw [current_ofRecords_append] at current
    obtain rfl := Option.some.inj current
    rw [unit?_ofRecords_last] at known
    obtain rfl := Option.some.inj known
    exact ⟨rs, rfl, rfl⟩

/-! ## Operations -/

theorem addUnit (sound : roster.Sound) : roster.addUnit.2.Sound := by
  have size : roster.addUnit.2.size = roster.size + 1 := by simp [Roster.addUnit, Roster.size]
  constructor
  case registered =>
    rw [size, List.range_succ]
    simp [Roster.addUnit, sound.registered, sound.minted, unitPath]
  case minted =>
    rw [size, ← sound.minted]
    rfl
  case current =>
    rw [size, ← sound.minted]
    rfl
  case records =>
    intro path u member
    rcases List.mem_append.1 member with known | new
    · exact sound.records path u known
    · cases List.mem_singleton.1 new
      exact .blank _

theorem map_fst_put (roster : Roster) (path : String) (u : UnitRecord) :
    (roster.put path u).units.map Prod.fst = roster.units.map Prod.fst := by
  unfold Roster.put
  rw [List.map_map]
  refine List.map_congr_left fun entry _ => ?_
  by_cases same : entry.1 = path
  · simp [same]
  · simp [same]

theorem put (sound : roster.Sound) (better : u.Sound path) : (roster.put path u).Sound := by
  have size : (roster.put path u).size = roster.size := by simp [Roster.put, Roster.size]
  constructor
  case registered => rw [map_fst_put, size, sound.registered]
  case minted =>
    rw [size, ← sound.minted]
    rfl
  case current =>
    rw [size, ← sound.current]
    rfl
  case records =>
    intro path' u' member
    obtain ⟨entry, known, replaced⟩ := List.mem_map.1 member
    by_cases same : entry.1 = path
    · rw [if_pos same] at replaced
      cases replaced
      exact better
    · rw [if_neg same] at replaced
      cases replaced
      exact sound.records _ _ known

/-- All that an operation on the current unit can come to. -/
theorem withCurrent_cases (sound : roster.Sound)
    (act : String → UnitRecord → Except Error (α × UnitRecord)) :
    roster.withCurrent act = (.error .noUnit, roster) ∨
      ∃ path u, roster.current = some path ∧ roster.unit? path = some u ∧
        ((∃ e, act path u = .error e ∧ roster.withCurrent act = (.error e, roster)) ∨
          ∃ value u', act path u = .ok (value, u') ∧
            roster.withCurrent act = (.ok value, roster.put path u')) := by
  unfold Roster.withCurrent
  cases current : roster.current with
  | none => exact Or.inl rfl
  | some path =>
    obtain ⟨u, found⟩ := sound.exists_current current
    refine Or.inr ⟨path, u, rfl, found, ?_⟩
    rcases does : act path u with e | ⟨value, u'⟩
    · exact Or.inl ⟨e, rfl, by simp only [found, does]⟩
    · exact Or.inr ⟨value, u', rfl, by simp only [found, does]⟩

end Roster.Sound

/-! ## Paths -/

theorem Roster.mem_paths_iff (roster : Roster) (path : String) :
    path ∈ roster.paths ↔ ∃ u, roster.unit? path = some u := by
  rw [← Option.isSome_iff_exists, Sound.unit?_isSome_iff]
  exact (List.mergeSort_perm _ _).mem_iff

theorem Roster.length_paths (roster : Roster) : roster.paths.length = roster.size := by
  simp [paths, sortPaths, size]

/-- No path is listed twice, as no two numbers give one path. -/
theorem Roster.Sound.nodup_paths {roster : Roster} (sound : roster.Sound) :
    roster.paths.Nodup := by
  apply (List.mergeSort_perm _ _).nodup_iff.2
  rw [sound.registered]
  exact List.Pairwise.map unitPath (fun i j apart same => apart (unitPath_injective same))
    List.nodup_range

/-! ## Operations that may be refused -/

/-- Whatever was refused, it was not for a unit that is not on the roster. -/
def Known {α : Type} (result : Except Error α) : Prop :=
  ∀ path, result ≠ .error (.unknownUnit path)

theorem known_ok {α : Type} (value : α) : Known (.ok value) := by
  intro path impossible
  cases impossible

theorem known_error {α : Type} {e : Error} (other : ∀ path, e ≠ .unknownUnit path) :
    Known (.error e : Except Error α) := by
  intro path same
  exact other path (Except.error.inj same)

/-- The same error in place of another value. -/
theorem Known.error {α β : Type} {e : Error} (known : Known (.error e : Except Error α)) :
    Known (.error e : Except Error β) :=
  known_error fun path same => known path (congrArg Except.error same)

theorem Known.bind {α β : Type} {result : Except Error α} {next : α → Except Error β}
    (known : Known result) (rest : ∀ value, Known (next value)) : Known (result >>= next) := by
  cases result with
  | error e => exact known.error
  | ok value => exact rest value

theorem Known.map {α β : Type} {result : Except Error α} (known : Known result) (f : α → β) :
    Known (result.map f) := by
  cases result with
  | error e => exact known.error
  | ok value => exact known_ok (f value)

/-- The result of an operation and the roster after it. -/
structure Roster.Safe {α : Type} (done : Except Error α × Roster) : Prop where
  known : Known done.1
  sound : done.2.Sound

theorem Roster.known_currentPath (roster : Roster) : Known roster.currentPath := by
  unfold Roster.currentPath
  cases roster.current with
  | none => exact known_error (by simp)
  | some path => exact known_ok path

namespace Roster.Sound

variable {α : Type} {roster : Roster} {path : String} {u : UnitRecord}

theorem withCurrent (sound : roster.Sound)
    {act : String → UnitRecord → Except Error (α × UnitRecord)}
    (knows : ∀ path u, Known (act path u))
    (keeps : ∀ {path u value u'}, roster.current = some path → u.Sound path →
      act path u = .ok (value, u') → u'.Sound path) :
    Safe (roster.withCurrent act) := by
  rcases sound.withCurrent_cases act with nothing | ⟨path, u, current, found, done⟩
  · rw [nothing]
    exact ⟨known_error (by simp), sound⟩
  · rcases done with ⟨e, refused, same⟩ | ⟨value, u', did, same⟩
    · rw [same]
      have known := knows path u
      rw [refused] at known
      exact ⟨known.error, sound⟩
    · rw [same]
      exact ⟨known_ok value, sound.put (keeps current (sound.record found) did)⟩

theorem nameContract (sound : roster.Sound) : Safe roster.nameContract := by
  refine sound.withCurrent (fun _ _ => known_ok _) fun _ record did => ?_
  cases did
  exact record.nameContract

theorem nameFunction (sound : roster.Sound) : Safe roster.nameFunction := by
  refine sound.withCurrent (fun _ _ => known_ok _) fun _ record did => ?_
  cases did
  exact record.nameFunction

theorem indent (sound : roster.Sound) : Safe roster.indent := by
  refine sound.withCurrent (fun _ _ => known_ok _) fun _ record did => ?_
  cases did
  exact record.setLevel _

theorem unindent (sound : roster.Sound) : Safe roster.unindent := by
  refine sound.withCurrent (fun path u => ?_) fun {path u _ _} _ record did => ?_
  · cases u.level with
    | zero => exact known_error (by simp)
    | succ level => exact known_ok _
  · cases deep : u.level with
    | zero =>
      rw [deep] at did
      cases did
    | succ level =>
      rw [deep] at did
      cases did
      exact record.setLevel level

/-- Also for a path that is not on the roster. -/
theorem addImport (sound : roster.Sound) (target : String) : Safe (roster.addImport target) := by
  unfold Roster.addImport
  by_cases itself : roster.current = some target
  · rw [if_pos itself]
    exact ⟨known_ok false, sound⟩
  · rw [if_neg itself]
    refine sound.withCurrent (fun path u => ?_) fun {path u _ _} current record did => ?_
    · split
      · exact known_ok _
      · exact known_ok _
    · by_cases known : target ∈ u.imports
      · rw [if_pos known] at did
        cases did
        exact record
      · rw [if_neg known] at did
        cases did
        refine record.addImport fun same => itself ?_
        rw [current, same]

theorem known_currentUnit (sound : roster.Sound) : Known roster.currentUnit := by
  unfold Roster.currentUnit
  cases current : roster.current with
  | none => exact known_error (by simp)
  | some path =>
    obtain ⟨u, found⟩ := sound.exists_current current
    simp only [found]
    exact known_ok u

theorem known_level (sound : roster.Sound) : Known roster.level :=
  sound.known_currentUnit.map UnitRecord.level

end Roster.Sound

end SeedGrammar
