/-
# SeedGrammar.Proofs.Repl.Reply — what a line is answered with

`Replies line reply entries` says without reading anything what a line of text is answered
with and which entries it adds to a history: nothing at all if it is blank, the program of a
seed that it spells, and otherwise a complaint. Lines are trimmed (`Trims`), a seed is
spelled in digits with or without a plus sign (`Spells`), and of two complaints the one
about size is made if digits grow too large before anything else is wrong (`Overflows`).
Every line has exactly one answer (`replies_iff`), and there is always a program.
-/
import Mathlib.Data.List.DropRight
import SeedGrammar.Proofs.Generate.Outcome
import SeedGrammar.Repl.Session

namespace SeedGrammar.Repl

set_option autoImplicit false

/-! ## Trimming -/

/-- What is left of a line without the white space at both ends. -/
structure Trims (line typed : List Char) : Prop where
  cut : ∃ before after, line = before ++ typed ++ after ∧
    (∀ c ∈ before, Text.White c) ∧ ∀ c ∈ after, Text.White c
  head : ∀ c ∈ typed.head?, ¬ Text.White c
  last : ∀ c ∈ typed.getLast?, ¬ Text.White c

theorem trims_trim (line : List Char) : Trims line (Text.trim line) := by
  let inner := line.dropWhile Text.isBlank
  have split : Text.trim line ++ inner.rtakeWhile Text.isBlank = inner :=
    List.rdropWhile_append_rtakeWhile
  refine ⟨⟨line.takeWhile Text.isBlank, inner.rtakeWhile Text.isBlank, ?_, ?_, ?_⟩, ?_, ?_⟩
  · rw [List.append_assoc, split]
    exact List.takeWhile_append_dropWhile.symm
  · exact fun c member => Text.isBlank_iff.1 (List.mem_takeWhile_imp member)
  · exact fun c member => Text.isBlank_iff.1 (List.mem_rtakeWhile_imp member)
  · intro c first
    rw [← Text.isBlank_iff]
    have ink := List.head?_dropWhile_not Text.isBlank line
    have here : inner.head? = some c := by
      rw [← split, List.head?_append, Option.mem_def.1 first]
      rfl
    simpa [show line.dropWhile Text.isBlank = inner from rfl, here] using ink
  · intro c last
    rw [← Text.isBlank_iff]
    have nonempty : Text.trim line ≠ [] := by
      intro empty
      simp [empty] at last
    have ink := List.rdropWhile_last_not Text.isBlank inner nonempty
    rw [List.getLast?_eq_some_getLast nonempty, Option.mem_def, Option.some.injEq] at last
    exact last ▸ ink

/-- There is one way to trim a line. -/
theorem Trims.trim_eq {line typed : List Char} (trims : Trims line typed) :
    Text.trim line = typed := by
  obtain ⟨⟨before, after, rfl, left, right⟩, head, last⟩ := trims
  simp only [← Text.isBlank_iff] at left right head last
  show (List.dropWhile Text.isBlank _).rdropWhile Text.isBlank = typed
  cases typed with
  | nil =>
    have blank : ∀ c ∈ before ++ after, Text.isBlank c :=
      List.forall_mem_append.2 ⟨left, right⟩
    rw [List.append_nil, List.dropWhile_eq_nil_iff.2 blank]
    rfl
  | cons c cs =>
    have inner : (before ++ c :: cs ++ after).dropWhile Text.isBlank = c :: cs ++ after := by
      rw [List.append_assoc, List.dropWhile_append_of_pos left]
      exact List.dropWhile_cons_of_neg (head c rfl)
    have ink : ¬ Text.isBlank ((c :: cs).getLast (List.cons_ne_nil c cs)) :=
      last _ (List.getLast?_eq_some_getLast _)
    have whole := List.rdropWhile_eq_self_iff.2 fun _ => ink
    rw [inner, List.rdropWhile, List.reverse_append,
      List.dropWhile_append_of_pos fun d member => right d (List.mem_reverse.1 member)]
    exact whole

/-! ## Seeds -/

/-- Digits that tell a value, one of them at least. -/
structure Tells (digits : List Char) (value : Nat) : Prop where
  nonempty : digits ≠ []
  each : ∀ c ∈ digits, c.isDigit
  value : Nat.ofDigitChars 10 digits 0 = value

/-- A seed is spelled in digits, with at most one plus sign in front. -/
def Spells (typed : List Char) (seed : UInt64) : Prop :=
  ∃ digits, (typed = digits ∨ typed = '+' :: digits) ∧ Tells digits seed.toNat

/-- What is typed begins with digits that tell more than fits a seed. -/
def Overflows (typed : List Char) : Prop :=
  ∃ digits rest value, (typed = digits ++ rest ∨ typed = '+' :: (digits ++ rest)) ∧
    Tells digits value ∧ UInt64.size ≤ value

theorem le_ofDigitChars (digits : List Char) (value : Nat) :
    value ≤ Nat.ofDigitChars 10 digits value := by
  induction digits generalizing value with
  | nil => exact Nat.le_of_eq Nat.ofDigitChars_nil.symm
  | cons c cs ih =>
    rw [Nat.ofDigitChars_cons]
    exact Nat.le_trans (by omega) (ih _)

/-- Reading on from a value, digits lead to one that is too large. -/
def Exceeds (value : Nat) (cs : List Char) : Prop :=
  ∃ digits rest, cs = digits ++ rest ∧ (∀ c ∈ digits, c.isDigit) ∧
    UInt64.size ≤ Nat.ofDigitChars 10 digits value

section Scanning

variable {value v : Nat} {c : Char} {cs : List Char}

theorem exceeds_of_le (large : UInt64.size ≤ value) : Exceeds value cs :=
  ⟨[], cs, rfl, by simp, by rwa [Nat.ofDigitChars_nil]⟩

theorem not_exceeds_nil (room : value < UInt64.size) : ¬ Exceeds value [] := by
  rintro ⟨digits, rest, nothing, -, large⟩
  obtain ⟨rfl, -⟩ := List.append_eq_nil_iff.1 nothing.symm
  rw [Nat.ofDigitChars_nil] at large
  exact Nat.not_le_of_lt room large

theorem exceeds_cons (room : value < UInt64.size) : Exceeds value (c :: cs) ↔
    c.isDigit ∧ Exceeds (10 * value + (c.toNat - '0'.toNat)) cs := by
  constructor
  · rintro ⟨digits, rest, whole, each, large⟩
    cases digits with
    | nil =>
      rw [Nat.ofDigitChars_nil] at large
      omega
    | cons d ds =>
      obtain ⟨rfl, rfl⟩ := List.cons.inj whole
      rw [Nat.ofDigitChars_cons] at large
      obtain ⟨first, each⟩ := List.forall_mem_cons.1 each
      exact ⟨first, ds, rest, rfl, each, large⟩
  · rintro ⟨first, digits, rest, rfl, each, large⟩
    refine ⟨c :: digits, rest, rfl, List.forall_mem_cons.2 ⟨first, each⟩, ?_⟩
    rwa [Nat.ofDigitChars_cons]

theorem scanDigits_eq_ok_iff (room : value < UInt64.size) : scanDigits value cs = .ok v ↔
    (∀ c ∈ cs, c.isDigit) ∧ Nat.ofDigitChars 10 cs value = v ∧ v < UInt64.size := by
  induction cs generalizing value with
  | nil =>
    rw [scanDigits, Nat.ofDigitChars_nil, Except.ok.injEq]
    exact ⟨fun same => ⟨by simp, same, same ▸ room⟩, fun told => told.2.1⟩
  | cons c cs ih =>
    rw [scanDigits, Nat.ofDigitChars_cons, List.forall_mem_cons]
    by_cases digit : c.isDigit
    · rw [if_pos digit]
      dsimp only
      by_cases fits : 10 * value + (c.toNat - '0'.toNat) < UInt64.size
      · simp only [if_pos fits, ih fits, digit, true_and]
      · rw [if_neg fits]
        -- digits only make a value larger, so it does not fit in the end either
        have grown := le_ofDigitChars cs (10 * value + (c.toNat - '0'.toNat))
        refine ⟨fun refused => (by cases refused), fun told => ?_⟩
        omega
    · simp [digit]

theorem scanDigits_eq_tooLarge_iff (room : value < UInt64.size) :
    scanDigits value cs = .error .tooLarge ↔ Exceeds value cs := by
  induction cs generalizing value with
  | nil => exact iff_of_false (fun refused => by cases refused) (not_exceeds_nil room)
  | cons c cs ih =>
    rw [scanDigits, exceeds_cons room]
    by_cases digit : c.isDigit
    · rw [if_pos digit]
      dsimp only
      by_cases fits : 10 * value + (c.toNat - '0'.toNat) < UInt64.size
      · simp only [if_pos fits, ih fits, digit, true_and]
      · rw [if_neg fits]
        exact iff_of_true rfl ⟨digit, exceeds_of_le (Nat.le_of_not_lt fits)⟩
    · simp [digit]

theorem scanNumber_eq_ok_iff :
    scanNumber cs = .ok v ↔ Tells cs v ∧ v < UInt64.size := by
  cases cs with
  | nil => exact iff_of_false (fun read => by cases read) fun told => told.1.nonempty rfl
  | cons c cs =>
    rw [scanNumber, scanDigits_eq_ok_iff (by decide)]
    exact ⟨fun ⟨each, told, room⟩ => ⟨⟨List.cons_ne_nil c cs, each, told⟩, room⟩,
      fun ⟨⟨_, each, told⟩, room⟩ => ⟨each, told, room⟩⟩

theorem scanNumber_eq_tooLarge_iff :
    scanNumber cs = .error .tooLarge ↔ Exceeds 0 cs := by
  cases cs with
  | nil => exact iff_of_false (fun refused => by cases refused) (not_exceeds_nil (by decide))
  | cons c cs => exact scanDigits_eq_tooLarge_iff (by decide)

end Scanning

/-- What is typed, less a plus sign in front. -/
def unsigned : List Char → List Char
  | '+' :: rest => rest
  | typed => typed

theorem unsigned_of_plain {typed : List Char} (plain : ∀ rest, typed ≠ '+' :: rest) :
    unsigned typed = typed :=
  unsigned.eq_2 typed plain

theorem readSeed_eq_unsigned (typed : List Char) :
    readSeed typed = UInt64.ofNat <$> scanNumber (unsigned typed) := by
  unfold readSeed
  split
  · rfl
  case h_2 plain => rw [unsigned_of_plain plain]

/-- What begins with a digit is all that is typed, or all but a plus sign. -/
theorem Tells.unsigned_eq_iff {digits : List Char} {value : Nat} (told : Tells digits value)
    (typed rest : List Char) :
    unsigned typed = digits ++ rest ↔ typed = digits ++ rest ∨ typed = '+' :: (digits ++ rest) := by
  obtain ⟨c, cs, rfl⟩ := List.exists_cons_of_ne_nil told.nonempty
  have digit : c.isDigit := told.each c (by simp)
  constructor
  · intro same
    by_cases plus : ∃ signless, typed = '+' :: signless
    · obtain ⟨signless, rfl⟩ := plus
      exact Or.inr (congrArg _ same)
    · rw [unsigned_of_plain (not_exists.1 plus)] at same
      exact Or.inl same
  · rintro (rfl | rfl)
    · refine unsigned_of_plain fun signless same => ?_
      obtain ⟨rfl, -⟩ := List.cons.inj same
      exact absurd digit (by decide)
    · rfl

theorem spells_iff {typed : List Char} {seed : UInt64} :
    Spells typed seed ↔ Tells (unsigned typed) seed.toNat := by
  constructor
  · rintro ⟨digits, typed, told⟩
    have same := (told.unsigned_eq_iff _ []).2 (by simpa using typed)
    rwa [same, List.append_nil]
  · intro told
    have typed := (told.unsigned_eq_iff typed []).1 (by simp)
    exact ⟨_, by simpa using typed, told⟩

theorem overflows_iff {typed : List Char} : Overflows typed ↔ Exceeds 0 (unsigned typed) := by
  constructor
  · rintro ⟨digits, rest, value, typed, told, large⟩
    exact ⟨digits, rest, (told.unsigned_eq_iff _ rest).2 typed, told.each, told.value ▸ large⟩
  · rintro ⟨digits, rest, whole, each, large⟩
    have nonempty : digits ≠ [] := by
      rintro rfl
      exact absurd large (by decide)
    have told : Tells digits _ := ⟨nonempty, each, rfl⟩
    exact ⟨digits, rest, _, (told.unsigned_eq_iff typed rest).1 whole, told, large⟩

theorem readSeed_eq_ok_iff {typed : List Char} {seed : UInt64} :
    readSeed typed = .ok seed ↔ Spells typed seed := by
  rw [readSeed_eq_unsigned, spells_iff]
  constructor
  · intro read
    cases scanned : scanNumber (unsigned typed) with
    | error e =>
      rw [scanned] at read
      cases read
    | ok value =>
      obtain ⟨told, room⟩ := scanNumber_eq_ok_iff.1 scanned
      rw [scanned] at read
      obtain rfl := Except.ok.inj read
      rwa [UInt64.toNat_ofNat_of_lt' room]
  · intro told
    rw [scanNumber_eq_ok_iff.2 ⟨told, seed.toNat_lt⟩]
    exact congrArg _ UInt64.ofNat_toNat

theorem readSeed_eq_tooLarge_iff {typed : List Char} :
    readSeed typed = .error .tooLarge ↔ Overflows typed := by
  rw [readSeed_eq_unsigned, overflows_iff, ← scanNumber_eq_tooLarge_iff]
  cases scanNumber (unsigned typed) with
  | error e =>
    exact ⟨fun same => congrArg _ (Except.error.inj same),
      fun same => congrArg _ (Except.error.inj same)⟩
  | ok value => exact iff_of_false (fun same => by cases same) fun same => by cases same

/-! ## Answers -/

/-- What is wrong with a line that spells no seed. -/
inductive Misspells (typed : List Char) : SeedError → Prop where
  | tooLarge (large : Overflows typed) : Misspells typed .tooLarge
  | invalidDigit (small : ¬ Overflows typed) (unspelled : ∀ seed, ¬ Spells typed seed) :
      Misspells typed .invalidDigit

/-- What a line is answered with, and the entries that it adds to a history. -/
inductive Replies (line : List Char) : String → List String → Prop where
  | blank (blank : ∀ c ∈ line, Text.White c) : Replies line "" []
  | program {typed : List Char} {seed : UInt64} {program : String} (trims : Trims line typed)
      (spells : Spells typed seed) (generated : generate seed = .ok program) :
      Replies line (program ++ "\n") [String.ofList typed]
  | invalid {typed : List Char} {e : SeedError} (trims : Trims line typed)
      (nonempty : typed ≠ []) (misspells : Misspells typed e) :
      Replies line ("Invalid seed `" ++ String.ofList typed ++ "`: " ++ e.message ++ "\n") []

/-- With the usual limits there is a program for every seed. -/
theorem exists_generate (seed : UInt64) : ∃ program, generate seed = .ok program :=
  have accepted : ({} : Limits).Accepted := by decide
  have ⟨_, _, generated, _⟩ := generateWith_of_accepted accepted seed
  ⟨_, generated⟩

theorem readSeed_eq_error_iff {typed : List Char} {e : SeedError} :
    readSeed typed = .error e ↔ Misspells typed e := by
  constructor
  · intro refused
    cases e with
    | tooLarge => exact .tooLarge (readSeed_eq_tooLarge_iff.1 refused)
    | invalidDigit =>
      refine .invalidDigit (fun large => ?_) fun seed spells => ?_
      · rw [readSeed_eq_tooLarge_iff.2 large] at refused
        cases refused
      · rw [readSeed_eq_ok_iff.2 spells] at refused
        cases refused
  · intro misspells
    cases misspells with
    | tooLarge large => exact readSeed_eq_tooLarge_iff.2 large
    | invalidDigit small unspelled =>
      cases read : readSeed typed with
      | ok seed => exact absurd (readSeed_eq_ok_iff.1 read) (unspelled seed)
      | error e =>
        cases e with
        | tooLarge => exact absurd (readSeed_eq_tooLarge_iff.1 read) small
        | invalidDigit => rfl

theorem Spells.nonempty {typed : List Char} {seed : UInt64} (spells : Spells typed seed) :
    typed ≠ [] := by
  rintro rfl
  exact (spells_iff.1 spells).nonempty rfl

section Answers

variable {line typed : List Char}

theorem ofText_of_blank (blank : Text.trim line = []) :
    Answer.ofText (String.ofList line) = .silence := by
  unfold Answer.ofText
  rw [String.toList_ofList, blank]

theorem ofText_of_spells (trims : Trims line typed) {seed : UInt64} (spells : Spells typed seed) :
    Answer.ofText (String.ofList line) = .program (String.ofList typed) (generate seed) := by
  unfold Answer.ofText
  rw [String.toList_ofList, trims.trim_eq]
  split
  · exact absurd rfl spells.nonempty
  · rw [readSeed_eq_ok_iff.2 spells]

theorem ofText_of_misspells (trims : Trims line typed) (nonempty : typed ≠ []) {e : SeedError}
    (misspells : Misspells typed e) :
    Answer.ofText (String.ofList line) = .rejected (String.ofList typed) e := by
  unfold Answer.ofText
  rw [String.toList_ofList, trims.trim_eq]
  split
  · exact absurd rfl nonempty
  · rw [readSeed_eq_error_iff.2 misspells]

end Answers

/-- A line is blank, or a seed with its program, or neither. -/
theorem ofText_cases (line : List Char) :
    (∀ c ∈ line, Text.White c) ∧ Answer.ofText (String.ofList line) = .silence ∨
    (∃ typed seed program, Trims line typed ∧ Spells typed seed ∧ generate seed = .ok program ∧
      Answer.ofText (String.ofList line) = .program (String.ofList typed) (.ok program)) ∨
    ∃ typed e, Trims line typed ∧ typed ≠ [] ∧ Misspells typed e ∧
      Answer.ofText (String.ofList line) = .rejected (String.ofList typed) e := by
  have trims := trims_trim line
  by_cases blank : Text.trim line = []
  · refine Or.inl ⟨?_, ofText_of_blank blank⟩
    rw [blank] at trims
    obtain ⟨before, after, rfl, left, right⟩ := trims.cut
    simpa using List.forall_mem_append.2 ⟨left, right⟩
  · cases read : readSeed (Text.trim line) with
    | ok seed =>
      have spells := readSeed_eq_ok_iff.1 read
      obtain ⟨program, generated⟩ := exists_generate seed
      refine Or.inr (Or.inl ⟨_, seed, program, trims, spells, generated, ?_⟩)
      rw [ofText_of_spells trims spells, generated]
    | error e =>
      have misspells := readSeed_eq_error_iff.1 read
      exact Or.inr (Or.inr ⟨_, e, trims, blank, misspells, ofText_of_misspells trims blank misspells⟩)

theorem replies_ofText (line : List Char) :
    Replies line (Answer.ofText (String.ofList line)).text
      (Answer.ofText (String.ofList line)).accepted := by
  rcases ofText_cases line with ⟨blank, same⟩ | ⟨typed, seed, program, trims, spells, generated, same⟩ |
    ⟨typed, e, trims, nonempty, misspells, same⟩
  all_goals rw [same]
  · exact .blank blank
  · exact .program trims spells generated
  · exact .invalid trims nonempty misspells

/-- Every line is answered in exactly one way. -/
theorem replies_iff {line : List Char} {reply : String} {entries : List String} :
    Replies line reply entries ↔
      (Answer.ofText (String.ofList line)).text = reply ∧
        (Answer.ofText (String.ofList line)).accepted = entries := by
  constructor
  · intro replies
    cases replies with
    | blank blank =>
      have trims : Trims line [] := ⟨⟨line, [], by simp, blank, by simp⟩, by simp, by simp⟩
      rw [ofText_of_blank trims.trim_eq]
      exact ⟨rfl, rfl⟩
    | program trims spells generated =>
      rw [ofText_of_spells trims spells, generated]
      exact ⟨rfl, rfl⟩
    | invalid trims nonempty misspells =>
      rw [ofText_of_misspells trims nonempty misspells]
      exact ⟨rfl, rfl⟩
  · rintro ⟨rfl, rfl⟩
    exact replies_ofText line

end SeedGrammar.Repl
