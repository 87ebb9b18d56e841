/-
# SeedGrammar.Proofs.Repl.Kept — the history of sessions that share a place for it

A history file keeps all entries accepted so far, less each that equals the one kept just
before it (`Keeps`). Adding entries to what a file keeps of earlier ones gives what it keeps
of all of them (`History.addAll_kept`), and a file reads back as the history that was
written (`ofText_text`), as entries are single lines. So it makes no difference where one
session ends and the next one begins (`savedAfter_file`). Places have room for all entries.
-/
import Mathlib.Data.List.Destutter
import SeedGrammar.Proofs.Repl.Transcript

namespace SeedGrammar.Repl

set_option autoImplicit false

open Text (FirstLine Readable encode splitLines)

/-! ## Adding entries -/

/-- One more entry is dropped if it equals the last that has been kept. -/
theorem destutter_concat {α : Type} [DecidableEq α] (entries : List α) (entry : α) :
    (entries ++ [entry]).destutter (· ≠ ·) =
      if (entries.destutter (· ≠ ·)).getLast? = some entry then entries.destutter (· ≠ ·)
      else entries.destutter (· ≠ ·) ++ [entry] := by
  cases entries with
  | nil => rfl
  | cons first entries =>
    rw [List.cons_append, List.destutter_cons', List.destutter_cons']
    -- the entry carried along is the last one kept, so it changes from step to step
    induction entries generalizing first with
    | nil =>
      rw [List.nil_append, List.destutter'_singleton, List.destutter'_nil]
      by_cases same : first = entry <;> simp [same]
    | cons next entries ih =>
      rw [List.cons_append, List.destutter'_cons, List.destutter'_cons]
      by_cases new : first ≠ next
      · rw [if_pos new, if_pos new, ih, List.getLast?_cons_of_ne_nil (List.destutter'_ne_nil _ _),
          apply_ite (List.cons first), List.cons_append]
      · rw [if_neg new, if_neg new, ih]

/-- The history of some entries: each is kept that differs from the one kept before it. -/
def History.kept (entries : List String) : History :=
  ⟨entries.destutter (· ≠ ·)⟩

theorem History.kept_eq_empty_iff {entries : List String} :
    (kept entries).entries = [] ↔ entries = [] :=
  List.destutter_eq_nil _

theorem History.addAll_kept (entries more : List String) :
    (kept entries).addAll more = kept (entries ++ more) := by
  induction more generalizing entries with
  | nil =>
    rw [List.append_nil]
    rfl
  | cons entry more ih =>
    have one : (kept entries).add entry = kept (entries ++ [entry]) := by
      rw [add, kept, kept, destutter_concat]
      split <;> rfl
    rw [addAll, List.foldl_cons, one, ← addAll, ih, List.append_assoc]
    rfl

/-! ## Reading back -/

/-- Entries that a line can keep. -/
structure Proper (entry : String) : Prop where
  nonempty : entry.toList ≠ []
  inside : '\n' ∉ entry.toList

theorem toList_text (history : History) : history.text.toList =
    ((History.versionLine :: history.entries).map String.toList).flatMap (· ++ ['\n']) := by
  rw [History.text, String.toList_join, List.flatMap_map, List.flatMap_map]
  simp

theorem ofText_text {history : History} (proper : ∀ entry ∈ history.entries, Proper entry) :
    History.ofText history.text = history := by
  have inside : ∀ line ∈ (History.versionLine :: history.entries).map String.toList,
      '\n' ∉ line := by
    rw [List.forall_mem_map, List.forall_mem_cons]
    exact ⟨by decide, fun entry member => (proper entry member).inside⟩
  have kept : (history.entries.map String.toList).filter (· ≠ []) =
      history.entries.map String.toList := by
    rw [List.filter_eq_self, List.forall_mem_map]
    exact fun entry member => by simpa using (proper entry member).nonempty
  rw [History.ofText, toList_text, Text.splitLines_flatMap inside, List.map_cons, List.drop_one,
    List.tail_cons, kept, List.map_map]
  simp

/-! ## What is accepted -/

theorem Spells.proper {typed : List Char} {seed : UInt64} (spells : Spells typed seed) :
    Proper (String.ofList typed) := by
  refine ⟨by simpa using spells.nonempty, ?_⟩
  rw [String.toList_ofList]
  obtain ⟨digits, typed, told⟩ := spells
  have inside : '\n' ∉ digits := fun member => absurd (told.each _ member) (by decide)
  rcases typed with rfl | rfl
  · exact inside
  · exact List.not_mem_cons_of_ne_of_not_mem (by decide) inside

theorem Transcript.proper {input : List UInt8} {out : String} {entries : List String}
    (transcript : Transcript input out entries) : ∀ entry ∈ entries, Proper entry := by
  induction transcript with
  | ended => simp
  | answered first replies onward ih =>
    refine List.forall_mem_append.2 ⟨?_, ih⟩
    cases replies with
    | blank => simp
    | program trims spells generated => simpa using spells.proper
    | invalid => simp
  | unreadable => simp

/-! ## Files -/

/-- A history file that keeps what has been accepted. There is none at first, and then the
entries stand in lines behind that of the version, as accepted, but for each that equals
the one before it. They are read back by the next session. -/
structure Keeps (file : Option String) (entries : List String) : Prop where
  absent : file = none ↔ entries = []
  content : ∀ text, file = some text →
    text = "#V2\n" ++ String.join ((entries.destutter (· ≠ ·)).map (· ++ "\n"))
  readBack : ∀ text, file = some text →
    (History.ofText text).entries = entries.destutter (· ≠ ·)
  apart : ∀ text, file = some text → (History.ofText text).entries.IsChain (· ≠ ·)

/-- The file of a history. -/
def History.file (history : History) : Option String :=
  if history.entries = [] then none else some history.text

theorem History.file_eq_some {history : History} {text : String}
    (file : history.file = some text) : text = history.text := by
  unfold History.file at file
  split at file
  · cases file
  · exact (Option.some.inj file).symm

section Files

variable {entries : List String} (proper : ∀ entry ∈ entries, Proper entry)

include proper

theorem ofText_kept : History.ofText (History.kept entries).text = History.kept entries :=
  ofText_text fun entry member => proper entry ((List.destutter_sublist _ entries).subset member)

theorem keeps_file : Keeps (History.kept entries).file entries := by
  have readBack (text : String) (file : (History.kept entries).file = some text) :
      (History.ofText text).entries = entries.destutter (· ≠ ·) := by
    rw [History.file_eq_some file, ofText_kept proper]
    rfl
  refine ⟨by simp [History.file, History.kept_eq_empty_iff], fun text file => ?_, readBack,
    fun text file => ?_⟩
  · rw [History.file_eq_some file]
    exact String.join_cons
  · rw [readBack text file]
    exact List.isChain_destutter _ entries

/-- A session adds to the file what it accepts. -/
theorem savedAfter_file (input : List UInt8) : savedAfter (History.kept entries).file input =
    (History.kept (entries ++ accepted input)).file := by
  have loaded : ((History.kept entries).file.map History.ofText).getD {} = History.kept entries := by
    unfold History.file
    split
    case isTrue empty => exact congrArg History.mk empty.symm
    case isFalse => exact ofText_kept proper
  unfold savedAfter savedWith
  rw [loaded]
  dsimp only
  rw [History.addAll_kept]
  split
  case isTrue same => rw [same]
  case isFalse changed =>
    -- nothing is kept only if nothing has ever been accepted, and then nothing has changed
    have nonempty : (History.kept (entries ++ accepted input)).entries ≠ [] := by
      intro empty
      have nothing := History.kept_eq_empty_iff.1 empty
      rw [nothing, (List.append_eq_nil_iff.1 nothing).1] at changed
      exact changed rfl
    rw [History.file, if_neg nonempty]

end Files

/-! ## Sessions -/

theorem proper_of_accepted {input : List UInt8} : ∀ entry ∈ accepted input, Proper entry :=
  (transcript_dialogue input).proper

theorem proper_of_flatMap_accepted {inputs : List (List UInt8)} :
    ∀ entry ∈ inputs.flatMap accepted, Proper entry := by
  intro entry member
  obtain ⟨input, -, here⟩ := List.mem_flatMap.1 member
  exact proper_of_accepted entry here

theorem exists_sessionsFrom {entries : List String} (proper : ∀ entry ∈ entries, Proper entry)
    (inputs : List (List UInt8)) {i : Nat} (inside : i < inputs.length) :
    ∃ out, (sessionsFrom .usable (History.kept entries).file inputs)[i]? =
      some (out, (History.kept (entries ++ (inputs.take (i + 1)).flatMap accepted)).file) := by
  induction inputs generalizing entries i with
  | nil => exact absurd inside (Nat.not_lt_zero i)
  | cons input inputs ih =>
    rw [sessionsFrom, if_pos rfl, savedAfter_file proper, List.take_succ_cons, List.flatMap_cons,
      ← List.append_assoc]
    cases i with
    | zero => exact ⟨output input, by simp⟩
    | succ i =>
      exact ih (List.forall_mem_append.2 ⟨proper, proper_of_accepted⟩)
        (Nat.lt_of_succ_lt_succ inside)

/-- After each session the file keeps what has been accepted so far. -/
theorem exists_sessions (inputs : List (List UInt8)) {i : Nat} (inside : i < inputs.length) :
    ∃ out, (sessions .usable inputs)[i]? =
      some (out, (History.kept ((inputs.take (i + 1)).flatMap accepted)).file) :=
  have none : ∀ entry ∈ ([] : List String), Proper entry := by simp
  exists_sessionsFrom none inputs inside

theorem length_sessions (home : StateHome) (inputs : List (List UInt8)) :
    (sessions home inputs).length = inputs.length := by
  have same := congrArg List.length (map_fst_sessionsFrom home none inputs)
  rwa [List.length_map, List.length_map] at same

/-- The history file in the end. -/
def lastFile (inputs : List (List UInt8)) : Option String :=
  (sessions .usable inputs).getLast?.bind Prod.snd

theorem lastFile_eq (inputs : List (List UInt8)) :
    lastFile inputs = (History.kept (inputs.flatMap accepted)).file := by
  by_cases none : inputs = []
  · subst none
    rfl
  · have some := List.length_pos_of_ne_nil none
    obtain ⟨out, last⟩ := exists_sessions inputs (Nat.sub_one_lt_of_lt some)
    rw [Nat.sub_add_cancel some, List.take_length] at last
    rw [lastFile, List.getLast?_eq_getElem?, length_sessions, last]
    rfl

theorem accepted_of_unreadable {line input rest : List UInt8}
    (first : FirstLine newline line input rest) (unreadable : ¬ Readable line) :
    accepted input = [] :=
  (transcript_iff.1 (.unreadable first unreadable)).2

theorem savedWith_of_repeated {saved : Option String} {entries : List String}
    (repeated : ∀ entry ∈ entries,
      ((saved.map History.ofText).getD {}).entries.getLast? = some entry) :
    savedWith saved entries = saved := by
  have unchanged : ((saved.map History.ofText).getD {}).addAll entries =
      (saved.map History.ofText).getD {} := by
    induction entries with
    | nil => rfl
    | cons entry entries ih =>
      obtain ⟨newest, repeated⟩ := List.forall_mem_cons.1 repeated
      rw [History.addAll, List.foldl_cons, History.add, if_pos newest]
      exact ih repeated
  exact if_pos unchanged

/-- **Sessions keep one history.** What a session adds is what its transcript says: the seeds
that it answers with programs, as typed. After each session the file keeps all entries added
so far. A session that only repeats the newest entry leaves any file alone. An input of text
may be cut behind any newline into two for the same history, and what is accepted before a
line that is no text is kept. -/
theorem sessions_keep_history :
    (∀ input entries, accepted input = entries ↔ ∃ out, Transcript input out entries) ∧
    (∀ inputs, (sessions .usable inputs).length = inputs.length ∧
      ∀ i out file, (sessions .usable inputs)[i]? = some (out, file) →
        Keeps file ((inputs.take (i + 1)).flatMap accepted)) ∧
    (∀ saved input, (∀ entry ∈ accepted input,
      ((saved.map History.ofText).getD {}).entries.getLast? = some entry) →
        savedAfter saved input = saved) ∧
    (∀ before a b after, Readable (a ++ b) → (a = [] ∨ a.getLast? = some 0x0A) →
      lastFile (before ++ (a ++ b) :: after) = lastFile (before ++ a :: b :: after)) ∧
    ∀ before a line input rest after, Readable a → (a = [] ∨ a.getLast? = some 0x0A) →
      FirstLine 0x0A line input rest → ¬ Readable line →
        lastFile (before ++ (a ++ input) :: after) = lastFile (before ++ a :: after) := by
  refine ⟨fun input entries => ?added, fun inputs => ⟨length_sessions _ _, ?files⟩,
    fun saved input => savedWith_of_repeated, fun before a b after readable ended => ?cut,
    fun before a line input rest after readable ended first unreadable => ?unreadable⟩
  case added =>
    constructor
    · rintro rfl
      exact ⟨_, transcript_dialogue input⟩
    · rintro ⟨out, transcript⟩
      exact (transcript_iff.1 transcript).2
  case files =>
    intro i out file session
    obtain ⟨inside, -⟩ := List.getElem?_eq_some_iff.1 session
    obtain ⟨out', found⟩ := exists_sessions inputs (length_sessions .usable inputs ▸ inside)
    obtain ⟨-, rfl⟩ := Prod.mk.inj (Option.some.inj (session.symm.trans found))
    exact keeps_file proper_of_flatMap_accepted
  case cut =>
    have parts : splitLines newline (a ++ b) = splitLines newline a ++ splitLines newline b :=
      Text.splitLines_append_of_ended ended b
    have lines : ∀ line ∈ splitLines newline a, Readable line := by
      intro line member
      refine Text.readable_of_mem_splitLines readable ?_
      show line ∈ splitLines newline (a ++ b)
      rw [parts]
      exact List.mem_append_left _ member
    rw [lastFile_eq, lastFile_eq]
    simp only [List.flatMap_append, List.flatMap_cons, accepted_append lines ended,
      List.append_assoc]
  case unreadable =>
    have lines : ∀ line ∈ splitLines newline a, Readable line :=
      fun line => Text.readable_of_mem_splitLines readable
    rw [lastFile_eq, lastFile_eq]
    simp only [List.flatMap_append, List.flatMap_cons, accepted_append lines ended,
      accepted_of_unreadable first unreadable, List.append_nil]

/-- For an entry that is repeated in the next session, a cut, and a line that is no text. -/
theorem sessions_keep_history_of_repeated :
    savedAfter (some "#V2\n7\n") (encode "7\n".toList) = some "#V2\n7\n" ∧
    lastFile [encode "7\n+7\n".toList ++ encode "+7\n8".toList] =
      lastFile [encode "7\n+7\n".toList, encode "+7\n8".toList] ∧
    lastFile [encode "7\n".toList ++ [0xFF]] = lastFile [encode "7\n".toList] := by
  obtain ⟨-, -, repeated, cut, unreadable⟩ := sessions_keep_history
  refine ⟨repeated _ _ (by decide +kernel), ?_, ?_⟩
  · exact cut [] _ _ [] (by decide +kernel) (Or.inr (by decide +kernel))
  · exact unreadable [] _ [0xFF] [0xFF] [] [] (Text.readable_encode _) (Or.inr (by decide +kernel))
      (.last (by decide) (by decide)) (by decide +kernel)

example : lastFile [encode "7\n 07 \nx\n".toList, encode "07\n7".toList] =
    some "#V2\n7\n07\n7\n" := by
  decide +kernel

end SeedGrammar.Repl
