/-
# SeedGrammar.Proofs.Program.Rejection — where a text stops making sense

A text that is no program is refused with the furthest place at which something was
missed. That place is exact (`read_error_pinpoints`): up to there the text can still
become a program, with the character found there it cannot, and whatever is said to
be expected there is possible.

What the readers miss is always the next part of some program, so no attempt that was
given up puts the place too far or expects too much. And the readers have not seen what
comes after the place, so no other end of the text would have saved it. Only the end of
the text is missed by a reader that looks at what it does not take; it is missed once,
where the units end.
-/
import SeedGrammar.Proofs.Program.Continuation

namespace SeedGrammar

set_option autoImplicit false

open Text Text.Reader Program.Reader Layout

/-! ## Rejected texts -/

/-- The text lays out a program. -/
def Program.Readable (text : String) : Prop :=
  ∃ p, Program.read text = .ok p

theorem readable_of_mem {text : String} (member : text.toList ∈ texts OfProgram) :
    Program.Readable text := by
  obtain ⟨p, layout⟩ := member
  exact ⟨p, read_of_layout layout⟩

theorem program_eq :
    program = units >>= fun xs => endOfText >>= fun _ => (pure ⟨xs⟩ : Reader Program) :=
  rfl

/-- A text lays out a program if nothing is left behind its units. -/
theorem readable_iff {text : String} :
    Program.Readable text ↔ ∃ xs, units.Takes text.toList xs [] := by
  constructor
  · rintro ⟨p, read⟩
    obtain ⟨rest, taken⟩ := read_eq_ok_iff.1 read
    obtain ⟨xs, mid, taken, ending⟩ := takes_bind.1 taken
    obtain ⟨_, _, ended, -⟩ := takes_bind.1 ending
    obtain ⟨rfl, -⟩ := takes_endOfText.1 ended
    exact ⟨xs, taken⟩
  · rintro ⟨xs, taken⟩
    have follows : units.Follows (fun _ => True) (texts OfProgram) := follows_units
    obtain ⟨front, member, cut⟩ := follows.takes trivial taken
    rw [List.append_nil] at cut
    exact readable_of_mem (cut ▸ member)

/-- The error of a text that is no program. -/
theorem read_of_not_readable {text : String} (rejected : ¬ Program.Readable text) :
    Program.read text = .error (.ofFrontier text.toList
      (.ofMisses text.toList (program text.toList).misses)) := by
  have failed : program.Fails text.toList := by
    rw [fails_iff]
    intro p rest taken
    exact rejected ⟨p, read_eq_ok_iff.2 ⟨rest, taken⟩⟩
  unfold Fails at failed
  unfold Program.read Reader.read
  split
  case h_1 p rest misses read =>
    rw [read] at failed
    cases failed
  case h_2 misses read =>
    rw [read]

theorem takes_rest_unique {α : Type} {reader : Reader α} {s rest rest' : List Char} {x y : α}
    (taken : reader.Takes s x rest) (other : reader.Takes s y rest') : rest = rest' := by
  have same : some (x, rest) = some (y, rest') := taken.symm.trans other
  cases same
  rfl

/-- Units can always be taken, if only none. -/
theorem exists_takes_units (s : List Char) : ∃ xs rest, units.Takes s xs rest := by
  by_contra never
  have failed : units.Fails s := by
    rw [fails_iff]
    intro xs rest taken
    exact never ⟨xs, rest, taken⟩
  exact many_stops consuming_sourceUnit _ (fails_padded.1 failed)

section Rejected

variable {s rest : List Char} {xs : List SourceUnit} {m : Miss}

/-- All that is missed in a text that goes on behind its units. -/
theorem mem_misses_program (taken : units.Takes s xs rest) (left : rest ≠ []) :
    m ∈ (program s).misses ↔ m ∈ (units s).misses ∨ m = .mismatch rest .endOfInput := by
  rw [program_eq, mem_misses_bind]
  simp only [mem_misses_bind, mem_misses_endOfText, misses_pure]
  constructor
  · rintro (here | ⟨ys, mid, again, ⟨-, rfl⟩ | ⟨_, _, -, impossible⟩⟩)
    · exact Or.inl here
    · rw [takes_rest_unique again taken]
      exact Or.inr rfl
    · cases impossible
  · rintro (here | rfl)
    · exact Or.inl here
    · exact Or.inr ⟨xs, rest, taken, Or.inl ⟨left, rfl⟩⟩

/-- Every miss is at a place where a program could go on, and the end of the text is
missed where it could have ended. -/
theorem viable_of_mem_misses (taken : units.Takes s xs rest) (left : rest ≠ [])
    (missed : m ∈ (program s).misses) {front : List Char} (cut : s = front ++ m.rest) :
    (∃ more, m.wanted.Admits more ∧ front ++ more ∈ texts OfProgram) ∨
      m.wanted = .endOfInput ∧ front ∈ texts OfProgram := by
  have follows : units.Follows (fun _ => True) (texts OfProgram) := follows_units
  rcases (mem_misses_program taken left).1 missed with here | rfl
  · obtain ⟨front', more, cut', admits, member⟩ := follows.misses trivial m here
    obtain rfl : front = front' := List.append_cancel_right (cut.symm.trans cut')
    exact Or.inl ⟨more, admits, member⟩
  · obtain ⟨front', member, cut'⟩ := follows.takes trivial taken
    obtain rfl : front = front' := List.append_cancel_right (cut.symm.trans cut')
    exact Or.inr ⟨rfl, member⟩

/-- Where nothing is missed behind `c`, the units end before it, and so they do in any
text that is the same up to there. -/
theorem takes_units_resumes {front t : List Char} {c : Char}
    (taken : units.Takes (front ++ c :: t) xs rest) (left : rest ≠ [])
    (furthest : ∀ m ∈ (program (front ++ c :: t)).misses, (c :: t).length ≤ m.rest.length) :
    ∃ g, rest = g ++ c :: t ∧
      ∀ t', Resumes c t' → units.Takes (front ++ t') xs (g ++ t') := by
  have stays : units.Stays (front ++ c :: t) (c :: t) :=
    fun m missed => furthest m ((mem_misses_program taken left).2 (Or.inl missed))
  have enough := furthest _ ((mem_misses_program taken left).2 (Or.inr rfl))
  obtain ⟨g, rfl⟩ := steady_units.leaves_append taken enough
  exact ⟨g, rfl, fun t' resumes => steady_units.takes resumes stays taken⟩

end Rejected

/-- An error of a text tells where it stops making sense, which is behind `front`. -/
structure Program.Pinpoints (text front : String) (d : Diagnostic) : Prop where
  /-- The error begins and ends between two characters. -/
  boundaries : (String.Pos.Raw.mk d.start).IsValid text ∧ (String.Pos.Raw.mk d.stop).IsValid text
  start : d.start = front.utf8ByteSize
  /-- It stands on one character, or on none at the end of the text. -/
  place : (d.start < d.stop ∧ ∃ c rest, d.found = some c ∧ text = front.push c ++ rest ∧
      d.stop = (front.push c).utf8ByteSize) ∨
    (d.start = d.stop ∧ d.found = none ∧ text = front)
  viable : ∃ more, Readable (front ++ more)
  dead : ∀ c, d.found = some c → ∀ more, ¬ Readable (front.push c ++ more)
  expected : ∀ c, .char c ∈ d.expected → ∃ more, Readable (front.push c ++ more)
  endExpected : .endOfInput ∈ d.expected ↔ Readable front

theorem isValid_of_append (front rest : String) :
    (String.Pos.Raw.mk front.utf8ByteSize).IsValid (front ++ rest) :=
  String.Pos.Raw.isValid_iff_exists_append.2 ⟨front, rest, rfl, rfl⟩

section Frontier

variable {text : String} {xs : List SourceUnit} {rest front : List Char} {f : Text.Frontier}

/-- Where the text cannot go on as it does, nothing has been seen of what comes
after. -/
theorem not_readable_of_furthest {t : List Char} {c : Char} (cut : text.toList = front ++ c :: t)
    (taken : units.Takes text.toList xs rest) (left : rest ≠ [])
    (furthest : ∀ m ∈ (program text.toList).misses, (c :: t).length ≤ m.rest.length)
    (more : String) : ¬ Program.Readable ((String.ofList front).push c ++ more) := by
  rw [cut] at taken furthest
  obtain ⟨g, -, resumed⟩ := takes_units_resumes taken left furthest
  intro readable
  obtain ⟨ys, ended⟩ := readable_iff.1 readable
  have spelled : ((String.ofList front).push c ++ more).toList = front ++ c :: more.toList := by
    simp
  rw [spelled] at ended
  have nothing := takes_rest_unique (resumed _ (resumes_cons c more.toList)) ended
  simp at nothing

/-- The end of the text is missed wherever it could have ended, unless it was missed
further on. -/
theorem mem_misses_of_readable {t : List Char} {c : Char} (cut : text.toList = front ++ c :: t)
    (taken : units.Takes text.toList xs rest) (left : rest ≠ [])
    (furthest : ∀ m ∈ (program text.toList).misses, (c :: t).length ≤ m.rest.length)
    (readable : Program.Readable (String.ofList front)) :
    .mismatch (c :: t) .endOfInput ∈ (program text.toList).misses := by
  have missed := (mem_misses_program taken left).2 (Or.inr rfl)
  rw [cut] at taken furthest
  obtain ⟨g, rfl, resumed⟩ := takes_units_resumes taken left furthest
  obtain ⟨ys, ended⟩ := readable_iff.1 readable
  have stopped := resumed [] (resumes_nil c)
  rw [String.toList_ofList] at ended
  rw [List.append_nil] at stopped
  have nothing := takes_rest_unique stopped ended
  rw [List.append_nil] at nothing
  rwa [nothing] at missed

theorem start_ofFrontier (cut : text.toList = front ++ f.rest) :
    (Diagnostic.ofFrontier text.toList f).start = (String.ofList front).utf8ByteSize := by
  change utf8Length text.toList - utf8Length f.rest = _
  rw [cut, utf8Length_append, utf8Length_eq_utf8ByteSize front]
  omega

theorem place_ofFrontier (cut : text.toList = front ++ f.rest) :
    let d := Diagnostic.ofFrontier text.toList f
    (d.start < d.stop ∧ ∃ c more, d.found = some c ∧ text = (String.ofList front).push c ++ more ∧
        d.stop = ((String.ofList front).push c).utf8ByteSize) ∨
      (d.start = d.stop ∧ d.found = none ∧ text = String.ofList front) := by
  intro d
  have start : d.start = (String.ofList front).utf8ByteSize := start_ofFrontier cut
  have stop : d.stop = d.start + utf8Length (f.rest.take 1) := rfl
  have found : d.found = f.rest.head? := rfl
  cases ahead : f.rest with
  | nil =>
    rw [ahead] at cut stop found
    refine Or.inr ⟨by simp [stop, utf8Length], found, ?_⟩
    rw [← String.toList_inj, cut]
    simp
  | cons c t =>
    rw [ahead] at cut stop found
    have wide : utf8Length (List.take 1 (c :: t)) = c.utf8Size := by simp [utf8Length]
    have longer := c.utf8Size_pos
    refine Or.inl ⟨by omega, c, String.ofList t, found, ?_, ?_⟩
    · rw [← String.toList_inj, cut]
      simp
    · rw [String.utf8ByteSize_push]
      omega

/-- The furthest of all that was missed tells where the text stops making sense. -/
theorem pinpoints_of_collects (rejected : ¬ Program.Readable text)
    (taken : units.Takes text.toList xs rest) (left : rest ≠ [])
    (collects : f.Collects text.toList (program text.toList).misses)
    (cut : text.toList = front ++ f.rest) :
    Program.Pinpoints text (String.ofList front) (.ofFrontier text.toList f) := by
  have start := start_ofFrontier cut
  have place := place_ofFrontier cut
  have viable (e : Expectation) (wanted : e ∈ f.wanted) :
      (∃ more, e.Admits more ∧ front ++ more ∈ texts OfProgram) ∨
        e = .endOfInput ∧ front ∈ texts OfProgram := by
    obtain ⟨m, missed, here, rfl⟩ := collects.source e wanted
    exact viable_of_mem_misses taken left missed (here ▸ cut)
  have begun := isValid_of_append (String.ofList front) (String.ofList f.rest)
  rw [← String.ofList_append, ← cut, String.ofList_toList, ← start] at begun
  constructor
  case boundaries =>
    refine ⟨begun, ?_⟩
    rcases place with ⟨-, c, more, -, whole, stop⟩ | ⟨level, -⟩
    · have ended := isValid_of_append ((String.ofList front).push c) more
      rwa [← whole, ← stop] at ended
    · rwa [← level]
  case start => exact start
  case place => exact place
  case viable =>
    have someWanted : f.wanted ≠ [] := by
      intro nothing
      have missed := (mem_misses_program taken left).2 (Or.inr rfl)
      rw [(collects.blank nothing).1] at missed
      cases missed
    obtain ⟨e, wanted⟩ := List.exists_mem_of_ne_nil _ someWanted
    rcases viable e wanted with ⟨more, -, member⟩ | ⟨-, member⟩
    · exact ⟨String.ofList more, readable_of_mem (by simpa using member)⟩
    · exact ⟨"", readable_of_mem (by simpa using member)⟩
  case dead =>
    intro c found
    obtain ⟨t, ahead⟩ : ∃ t, f.rest = c :: t := List.head?_eq_some_iff.1 found
    have furthest := collects.furthest
    rw [ahead] at cut furthest
    exact not_readable_of_furthest cut taken left furthest
  case expected =>
    intro c wanted
    rcases viable _ wanted with ⟨more, admits, member⟩ | ⟨impossible, -⟩
    · obtain ⟨after, rfl⟩ := List.head?_eq_some_iff.1 admits
      exact ⟨String.ofList after, readable_of_mem (by simpa using member)⟩
    · cases impossible
  case endExpected =>
    constructor
    · intro wanted
      rcases viable _ wanted with ⟨more, impossible, -⟩ | ⟨-, member⟩
      · cases impossible
      · exact readable_of_mem (by simpa using member)
    · intro readable
      cases ahead : f.rest with
      | nil =>
        -- the whole text would be a program
        rw [ahead, List.append_nil] at cut
        rw [← cut, String.ofList_toList] at readable
        exact absurd readable rejected
      | cons c t =>
        have furthest := collects.furthest
        rw [ahead] at cut furthest
        have missed := mem_misses_of_readable cut taken left furthest readable
        exact collects.kept (by simp [ahead]) _ missed ahead.symm

end Frontier

/-- **A rejected text has exactly one error, and it stands where the text stops making
sense**: what comes before it begins some program, what comes before it and the
character found there begins none, and whatever is expected instead is possible. -/
theorem read_error_pinpoints (text : String) (rejected : ¬ Program.Readable text) :
    ∃! d, Program.read text = .error d ∧ ∃ front, Program.Pinpoints text front d := by
  obtain ⟨xs, rest, taken⟩ := exists_takes_units text.toList
  have left : rest ≠ [] := by
    rintro rfl
    exact rejected (readable_iff.2 ⟨xs, taken⟩)
  have places : ∀ m ∈ (program text.toList).misses, m.rest <:+ text.toList := by
    intro m missed
    rcases (mem_misses_program taken left).1 missed with here | rfl
    · exact steady_units.misses m here
    · exact steady_units.leaves taken
  have collects := Text.Frontier.collects_ofMisses places
  obtain ⟨front, cut⟩ := collects.place
  have pinpoints := pinpoints_of_collects rejected taken left collects cut.symm
  have refused := read_of_not_readable rejected
  refine ⟨_, ⟨refused, _, pinpoints⟩, ?_⟩
  rintro d ⟨again, -⟩
  exact Except.error.inj (again.symm.trans refused)

/-- A text that ends where a unit's path should begin. -/
theorem read_error_pinpoints_cut_short :
    ¬ Program.Readable "==== Source:" ∧ ∃! d, Program.read "==== Source:" = .error d ∧
      ∃ front, Program.Pinpoints "==== Source:" front d := by
  have rejected : ¬ Program.Readable "==== Source:" := by
    rintro ⟨p, read⟩
    cases read
  exact ⟨rejected, read_error_pinpoints _ rejected⟩

/-- Places are counted in bytes. -/
example : Program.read "==== Source: é" = .error ⟨15, 15, none, [.somethingElse, .char ' ']⟩ := by
  rfl

end SeedGrammar
