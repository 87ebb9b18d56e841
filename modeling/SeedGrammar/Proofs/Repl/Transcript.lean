/-
# SeedGrammar.Proofs.Repl.Transcript — sessions answer line by line

`Transcript input out entries` says what a session prints from its first prompt on, and
which entries it adds to a history: its input is empty, or begins with a line that is
answered (`Replies`) before the session goes on with the rest, or with one that is no text
and ends it. Nothing is carried from a line to the next. A session has this transcript and
no other (`transcript_iff`), so what it prints for lines of text that are ended is the start
of what it prints for any more input (`output_append`).
-/
import SeedGrammar.Proofs.Repl.Reply
import SeedGrammar.Proofs.Text.Encoding

namespace SeedGrammar.Repl

set_option autoImplicit false

open Text (FirstLine Readable encode splitLines)

/-! ## Turns -/

section Turns

variable {line input rest : List UInt8}

theorem ofLine_encode (cs : List Char) :
    Turn.ofLine (encode cs) = .answered (.ofText (String.ofList cs)) := by
  rw [Turn.ofLine, Text.fromUTF8?_encode]

theorem ofLine_of_not_readable (unreadable : ¬ Readable line) : Turn.ofLine line = .unreadable := by
  rw [Turn.ofLine, Text.fromUTF8?_of_not_readable unreadable]

theorem turns_of_answered {cs : List Char} (first : FirstLine newline (encode cs) input rest) :
    turns (splitLines newline input) =
      .answered (.ofText (String.ofList cs)) :: turns (splitLines newline rest) := by
  rw [first.splitLines, turns, ofLine_encode]

theorem turns_of_unreadable (first : FirstLine newline line input rest)
    (unreadable : ¬ Readable line) : turns (splitLines newline input) = [.unreadable] := by
  rw [first.splitLines, turns, ofLine_of_not_readable unreadable]

/-- Lines of text are answered one by one, whatever comes after them. -/
theorem turns_append {lines : List (List UInt8)} (readable : ∀ line ∈ lines, Readable line) :
    ∃ answers : List Answer, ∀ more, turns (lines ++ more) = answers.map .answered ++ turns more := by
  induction lines with
  | nil => exact ⟨[], fun more => rfl⟩
  | cons line lines ih =>
    obtain ⟨here, later⟩ := List.forall_mem_cons.1 readable
    obtain ⟨cs, rfl⟩ := here.exists_encode
    obtain ⟨answers, onward⟩ := ih later
    refine ⟨.ofText (String.ofList cs) :: answers, fun more => ?_⟩
    rw [List.cons_append, turns, ofLine_encode, onward]
    rfl

/-- What is printed with some answers, before the next prompt. -/
def printed (answers : List Answer) : String :=
  String.join (answers.map fun answer => prompt ++ answer.text)

theorem dialogue_append (answers : List Answer) (more : List Turn) :
    dialogue (answers.map .answered ++ more) = printed answers ++ dialogue more := by
  induction answers with
  | nil => exact String.empty_append.symm
  | cons answer answers ih =>
    have opening : printed (answer :: answers) = prompt ++ answer.text ++ printed answers :=
      String.join_cons
    rw [List.map_cons, List.cons_append, dialogue, ih, opening, String.append_assoc,
      String.append_assoc, String.append_assoc]

end Turns

/-! ## Transcripts -/

/-- What stands behind the prompt for a line that is no text. -/
def noText : String :=
  "Error: Io(Error \x7b kind: InvalidData, message: \"stream did not contain valid UTF-8\" \x7d)\n"

/-- What is printed from the first prompt on, and the entries that are added to a history. -/
inductive Transcript : List UInt8 → String → List String → Prop where
  | ended : Transcript [] "seed> Ctrl-D pressed. Exiting.\n" []
  | answered {line : List Char} {input rest : List UInt8} {reply out : String}
      {entries more : List String} (first : FirstLine 0x0A (encode line) input rest)
      (replies : Replies line reply entries) (onward : Transcript rest out more) :
      Transcript input ("seed> " ++ reply ++ out) (entries ++ more)
  | unreadable {line input rest : List UInt8} (first : FirstLine 0x0A line input rest)
      (unreadable : ¬ Readable line) : Transcript input ("seed> " ++ noText) []

theorem transcript_dialogue (input : List UInt8) :
    Transcript input (dialogue (turns (splitLines newline input))) (accepted input) := by
  -- the rest behind the first line is shorter, which is why this ends
  by_cases nothing : input = []
  · subst nothing
    exact .ended
  · obtain ⟨line, rest, first, shorter⟩ := Text.exists_firstLine newline nothing
    by_cases readable : Readable line
    · obtain ⟨cs, rfl⟩ := readable.exists_encode
      rw [accepted, turns_of_answered first]
      exact .answered first (replies_ofText cs) (transcript_dialogue rest)
    · rw [accepted, turns_of_unreadable first readable]
      exact .unreadable first readable
termination_by input.length

theorem transcript_iff {input : List UInt8} {out : String} {entries : List String} :
    Transcript input out entries ↔ output input = banner ++ out ∧ accepted input = entries := by
  rw [output, String.append_right_inj]
  constructor
  · intro transcript
    induction transcript with
    | ended => exact ⟨rfl, rfl⟩
    | answered first replies onward ih =>
      obtain ⟨printed, added⟩ := ih
      obtain ⟨rfl, rfl⟩ := replies_iff.1 replies
      rw [accepted, turns_of_answered first]
      exact ⟨congrArg _ printed, congrArg _ added⟩
    | unreadable first unreadable =>
      rw [accepted, turns_of_unreadable first unreadable]
      exact ⟨rfl, rfl⟩
  · rintro ⟨rfl, rfl⟩
    exact transcript_dialogue input

/-! ## Inputs one after another -/

section Appending

variable {a : List UInt8} (readable : ∀ line ∈ splitLines newline a, Readable line)
  (ended : a = [] ∨ a.getLast? = some newline)

include readable ended

theorem turns_append_input : ∃ answers : List Answer, ∀ b,
    turns (splitLines newline (a ++ b)) = answers.map .answered ++ turns (splitLines newline b) := by
  obtain ⟨answers, onward⟩ := turns_append readable
  refine ⟨answers, fun b => ?_⟩
  rw [Text.splitLines_append_of_ended ended, onward]

/-- What is printed for text of which all lines are ended comes first. -/
theorem output_append : ∃ front, ∀ b,
    output (a ++ b) = front ++ dialogue (turns (splitLines newline b)) := by
  obtain ⟨answers, onward⟩ := turns_append_input readable ended
  refine ⟨banner ++ printed answers, fun b => ?_⟩
  rw [output, onward, dialogue_append, String.append_assoc]

theorem accepted_append (b : List UInt8) : accepted (a ++ b) = accepted a ++ accepted b := by
  obtain ⟨answers, onward⟩ := turns_append_input readable ended
  have alone : turns (splitLines newline a) = answers.map .answered := by
    simpa [splitLines, turns] using onward []
  rw [accepted, onward, List.flatMap_append, ← alone]
  rfl

end Appending

/-! ## Answers line by line -/

theorem map_fst_sessionsFrom (home : StateHome) (saved : Option String)
    (inputs : List (List UInt8)) :
    (sessionsFrom home saved inputs).map Prod.fst = inputs.map output := by
  induction inputs generalizing saved with
  | nil => rfl
  | cons input inputs ih => exact congrArg _ (ih _)

theorem ofText_ne_failed (line : List Char) (typed : String) (e : Error) :
    Answer.ofText (String.ofList line) ≠ .program typed (.error e) := by
  rcases ofText_cases line with ⟨-, same⟩ | ⟨_, _, _, -, -, -, same⟩ | ⟨_, _, -, -, -, same⟩
  all_goals simp [same]

/-- **Sessions answer line by line.** Every line has one answer. What a session prints is the
banner and a transcript of its input, whatever has been printed or kept before and wherever
histories are kept, if they are. All spellings of a seed are answered alike, with its
program, as there is one for every seed. So what is printed for text that is empty or ends in
a newline is, less the farewell, the start of what is printed for any input that it begins,
and after it a line that is no text is the end, whatever follows. -/
theorem output_line_by_line :
    (∀ line, ∃! answer : String × List String, Replies line answer.1 answer.2) ∧
    (∀ input text, output input = text ↔
      ∃ out entries, Transcript input out entries ∧
        text = "Enter a seed to generate its test program.\n" ++ out) ∧
    (∀ home saved inputs, (sessionsFrom home saved inputs).map Prod.fst = inputs.map output) ∧
    (∀ seed, ∃ program, generate seed = .ok program ∧ ∀ line typed, Trims line typed →
      Spells typed seed → ∀ reply entries, Replies line reply entries →
        reply = program ++ "\n") ∧
    (∀ line typed e, Answer.ofText line ≠ .program typed (.error e)) ∧
    ∀ a, Readable a → (a = [] ∨ a.getLast? = some 0x0A) →
      ∃ front, output a = front ++ "seed> Ctrl-D pressed. Exiting.\n" ∧
        (∀ b, ∃ back, output b = "Enter a seed to generate its test program.\n" ++ back ∧
          output (a ++ b) = front ++ back) ∧
        ∀ line input rest, FirstLine 0x0A line input rest → ¬ Readable line →
          output (a ++ input) = front ++ ("seed> " ++ noText) := by
  refine ⟨fun line => ?one, fun input text => ?transcript, map_fst_sessionsFrom,
    fun seed => ?alike, fun line typed e => ?programs, fun a readable ended => ?onward⟩
  case one =>
    refine ⟨(_, _), replies_ofText line, fun answer replies => ?_⟩
    obtain ⟨reply, entries⟩ := replies_iff.1 replies
    exact Prod.ext reply.symm entries.symm
  case transcript =>
    constructor
    · rintro rfl
      exact ⟨_, _, transcript_dialogue input, rfl⟩
    · rintro ⟨out, entries, transcript, rfl⟩
      exact (transcript_iff.1 transcript).1
  case alike =>
    obtain ⟨program, generated⟩ := exists_generate seed
    refine ⟨program, generated, fun line typed trims spells reply entries replies => ?_⟩
    obtain ⟨same, -⟩ := replies_iff.1 replies
    rw [← same, ofText_of_spells trims spells, generated]
    rfl
  case programs =>
    rw [← String.ofList_toList (s := line)]
    exact ofText_ne_failed line.toList typed e
  case onward =>
    obtain ⟨front, onward⟩ := output_append
      (fun line => Text.readable_of_mem_splitLines readable) ended
    refine ⟨front, ?_, fun b => ⟨_, rfl, onward b⟩, fun line input rest first unreadable => ?_⟩
    · have alone := onward []
      rw [List.append_nil] at alone
      exact alone
    · rw [onward, turns_of_unreadable first unreadable]
      rfl

/-- For a seed in two spellings, and a line that is no text. -/
theorem output_line_by_line_of_spellings :
    let a := encode " +07 \n".toList
    (∀ reply reply' entries entries', Replies "7".toList reply entries →
      Replies " +07 ".toList reply' entries' → reply = reply') ∧
    ∃ front, output a = front ++ "seed> Ctrl-D pressed. Exiting.\n" ∧
      (∀ b, ∃ back, output b = "Enter a seed to generate its test program.\n" ++ back ∧
        output (a ++ b) = front ++ back) ∧
      output (a ++ [0xFF, 0x0A, 0x37]) = front ++ ("seed> " ++ noText) := by
  obtain ⟨-, -, -, alike, -, onward⟩ := output_line_by_line
  intro a
  refine ⟨fun reply reply' entries entries' plain signed => ?_, ?_⟩
  · obtain ⟨program, -, answers⟩ := alike 7
    have read (typed : List Char) (spelled : readSeed typed = .ok 7) : Spells typed 7 :=
      readSeed_eq_ok_iff.1 spelled
    have first := answers _ _ (trims_trim "7".toList) (read _ (by rfl)) reply entries plain
    have second := answers _ _ (trims_trim " +07 ".toList) (read _ (by rfl)) reply' entries' signed
    rw [first, second]
  · obtain ⟨front, alone, more, cut⟩ := onward a (Text.readable_encode _) (Or.inr (by decide +kernel))
    refine ⟨front, alone, more, cut [0xFF] _ [0x37] (.ended (by decide) _) ?_⟩
    decide +kernel

end SeedGrammar.Repl
