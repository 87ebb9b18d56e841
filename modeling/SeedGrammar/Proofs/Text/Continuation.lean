/-
# SeedGrammar.Proofs.Text.Continuation — what a text could have gone on with

`reader.Follows On L` relates a reader to a language `L`, on texts that meet `On`.
What the reader takes is in `L`. Wherever it misses something, the text up to there
can be completed to a text of `L`, and this with whatever was wanted there: an
attempt that is given up later was as good as any at the place where it got stuck.

There is one rule for each way to build a reader, and the language is built in the
same way. A reader of the end of the text follows no language, as nothing may come
where it wants something.
-/
import SeedGrammar.Proofs.Text.Missing
import Mathlib.Computability.Language
import Mathlib.Order.CompletePartialOrder

namespace SeedGrammar.Text

set_option autoImplicit false

open Computability

/-! ## Languages -/

/-- Texts of white space. -/
def blanks : Language Char :=
  {w | ∀ c ∈ w, White c}

theorem nil_mem_blanks : [] ∈ blanks := by
  intro c member
  cases member

theorem spaced_mem {L : Language Char} {a w b : List Char} (blankA : a ∈ blanks) (member : w ∈ L)
    (blankB : b ∈ blanks) : a ++ w ++ b ∈ blanks * L * blanks :=
  Language.append_mem_mul (Language.append_mem_mul blankA member) blankB

theorem append_mem_kstar {L : Language Char} {v w : List Char} (one : v ∈ L) (more : w ∈ L∗) :
    v ++ w ∈ L∗ := by
  have unrolled : L * L∗ ≤ L∗ := mul_kstar_le_kstar
  exact unrolled (Language.append_mem_mul one more)

/-- Texts that have none of some characters. -/
def without (stops : List Char) : Language Char :=
  {w | ∀ c ∈ w, c ∉ stops}

/-- The texts of some values. -/
def texts {α : Type} (Of : α → List Char → Prop) : Language Char :=
  {w | ∃ x, Of x w}

/-- A text goes on with what is expected. -/
def Expectation.Admits : Expectation → List Char → Prop
  | char c, w => w.head? = some c
  | identifier, _ => True
  | any, _ => True
  | somethingElse, _ => True
  | endOfInput, _ => False

theorem Expectation.Admits.append {e : Expectation} {w : List Char} (admits : e.Admits w)
    (v : List Char) : e.Admits (w ++ v) := by
  cases e with
  | char c =>
    change w.head? = some c at admits
    change (w ++ v).head? = some c
    simp [List.head?_append, admits]
  | identifier => trivial
  | any => trivial
  | somethingElse => trivial
  | endOfInput => exact admits

namespace Reader

variable {α β : Type}

/-- On texts that meet `On`, the reader takes texts of `L`, and what it misses is
always the next part of a text of `L`. -/
structure Follows (reader : Reader α) (On : List Char → Prop) (L : Language Char) : Prop where
  inhabited : ∃ w, w ∈ L
  takes : ∀ {s x rest}, On s → reader.Takes s x rest → ∃ front ∈ L, s = front ++ rest
  misses : ∀ {s}, On s → ∀ m ∈ (reader s).misses,
    ∃ front more, s = front ++ m.rest ∧ m.wanted.Admits more ∧ front ++ more ∈ L

variable {reader : Reader α} {On On' : List Char → Prop} {L M : Language Char}

theorem Follows.mono (follows : reader.Follows On L) (le : L ≤ M) : reader.Follows On M where
  inhabited := by
    obtain ⟨w, member⟩ := follows.inhabited
    exact ⟨w, le member⟩
  takes := by
    intro s x rest on taken
    obtain ⟨front, member, cut⟩ := follows.takes on taken
    exact ⟨front, le member, cut⟩
  misses := by
    intro s on m missed
    obtain ⟨front, more, cut, admits, member⟩ := follows.misses on m missed
    exact ⟨front, more, cut, admits, le member⟩

/-- What holds on all texts holds on some. -/
theorem Follows.restrict (follows : reader.Follows (fun _ => True) L) : reader.Follows On L where
  inhabited := follows.inhabited
  takes := fun _ => follows.takes trivial
  misses := fun _ => follows.misses trivial

/-! ## Characters -/

theorem follows_literal (text : String) : (literal text).Follows On {text.toList} where
  inhabited := ⟨_, rfl⟩
  takes := by
    intro s x rest _ taken
    exact ⟨text.toList, rfl, takes_literal.1 taken⟩
  misses := by
    intro s _ m missed
    obtain ⟨pre, c, post, rest, spelled, rfl, -, rfl⟩ := mem_misses_literal.1 missed
    exact ⟨pre, c :: post, rfl, rfl, spelled.symm⟩

theorem follows_upTo (stops : List Char) :
    (upTo stops).Follows On (without stops) where
  inhabited := ⟨[], fun c member => absurd member List.not_mem_nil⟩
  takes := by
    intro s taken rest _ took
    obtain ⟨cut, inside, -⟩ := takes_upTo.1 took
    exact ⟨taken, inside, cut⟩
  misses := by
    intro s _ m missed
    obtain ⟨taken, rest, took, rfl⟩ := mem_misses_upTo.1 missed
    obtain ⟨rfl, inside, -⟩ := takes_upTo.1 took
    refine ⟨taken, [], rfl, trivial, ?_⟩
    rw [List.append_nil]
    exact inside

/-- A letter or underscore, and all that may come after it in a name. -/
def names : Language Char :=
  {w | ∃ c cs, w = c :: cs ∧ isNameStart c ∧ ∀ d ∈ cs, isNamePart d}

theorem singleton_mem_names : ['a'] ∈ names :=
  ⟨'a', [], rfl, by decide, by simp⟩

/-- Where a name is missed, anything might come. -/
theorem admits_nameEnd (s w : List Char) : (nameEnd s).wanted.Admits w := by
  cases s with
  | nil => trivial
  | cons c s => trivial

theorem follows_identifier : identifier.Follows On names where
  inhabited := ⟨_, singleton_mem_names⟩
  takes := by
    intro s name rest _ taken
    obtain ⟨cut, named, -⟩ := takes_identifier.1 taken
    exact ⟨name, named, cut⟩
  misses := by
    intro s _ m missed
    rcases mem_misses_identifier.1 missed with ⟨rfl, -⟩ | ⟨name, rest, taken, rfl⟩
    · exact ⟨[], ['a'], by simp, admits_nameEnd _ _, singleton_mem_names⟩
    · obtain ⟨rfl, named, -⟩ := takes_identifier.1 taken
      refine ⟨name, [], by simp, admits_nameEnd _ _, ?_⟩
      rw [List.append_nil]
      exact named

/-! ## Sequences and alternatives -/

theorem follows_pure (x : α) : (pure x : Reader α).Follows On 1 where
  inhabited := ⟨[], Language.nil_mem_one⟩
  takes := by
    intro s y rest _ taken
    obtain ⟨-, rfl⟩ := takes_pure.1 taken
    exact ⟨[], Language.nil_mem_one, rfl⟩
  misses := by simp

theorem Follows.bind [Nonempty α] (follows : reader.Follows On L) {next : α → Reader β}
    (onward : ∀ {s x mid}, On s → reader.Takes s x mid → On' mid)
    (followed : ∀ x, (next x).Follows On' M) : (reader >>= next).Follows On (L * M) where
  inhabited := by
    obtain ⟨v, first⟩ := follows.inhabited
    obtain ⟨w, second⟩ := (followed (Classical.arbitrary α)).inhabited
    exact ⟨v ++ w, Language.append_mem_mul first second⟩
  takes := by
    intro s y rest on taken
    obtain ⟨x, mid, first, second⟩ := takes_bind.1 taken
    obtain ⟨front, member, rfl⟩ := follows.takes on first
    obtain ⟨front', member', rfl⟩ := (followed x).takes (onward on first) second
    exact ⟨front ++ front', Language.append_mem_mul member member', by simp⟩
  misses := by
    intro s on m missed
    rcases mem_misses_bind.1 missed with here | ⟨x, mid, first, later⟩
    · obtain ⟨front, more, cut, admits, member⟩ := follows.misses on m here
      -- whatever completes the first part, any text of the second may follow
      obtain ⟨w, second⟩ := (followed (Classical.arbitrary α)).inhabited
      refine ⟨front, more ++ w, cut, admits.append w, ?_⟩
      rw [← List.append_assoc]
      exact Language.append_mem_mul member second
    · obtain ⟨front, member, rfl⟩ := follows.takes on first
      obtain ⟨front', more, cut, admits, member'⟩ := (followed x).misses (onward on first) m later
      refine ⟨front ++ front', more, by rw [cut, List.append_assoc], admits, ?_⟩
      rw [List.append_assoc]
      exact Language.append_mem_mul member member'

/-- Where the second reader does not mind what it is given. -/
theorem Follows.andThen [Nonempty α] (follows : reader.Follows On L) {next : α → Reader β}
    (followed : ∀ x, (next x).Follows (fun _ => True) M) : (reader >>= next).Follows On (L * M) :=
  follows.bind (fun _ _ => trivial) followed

theorem Follows.orElse {second : Reader α} (follows : reader.Follows On L)
    (other : second.Follows On M) : (reader.orElse second).Follows On (L + M) where
  inhabited := by
    obtain ⟨w, member⟩ := follows.inhabited
    exact ⟨w, Or.inl member⟩
  takes := by
    intro s x rest on taken
    rcases takes_orElse.1 taken with taken | ⟨-, taken⟩
    · obtain ⟨front, member, cut⟩ := follows.takes on taken
      exact ⟨front, Or.inl member, cut⟩
    · obtain ⟨front, member, cut⟩ := other.takes on taken
      exact ⟨front, Or.inr member, cut⟩
  misses := by
    intro s on m missed
    rcases mem_misses_orElse.1 missed with here | ⟨-, later⟩
    · obtain ⟨front, more, cut, admits, member⟩ := follows.misses on m here
      exact ⟨front, more, cut, admits, Or.inl member⟩
    · obtain ⟨front, more, cut, admits, member⟩ := other.misses on m later
      exact ⟨front, more, cut, admits, Or.inr member⟩

theorem Follows.succeeds [Nonempty α] (follows : reader.Follows On L) :
    (succeeds reader).Follows On (L + 1) := by
  have marked : (reader >>= fun _ => (pure true : Reader Bool)).Follows On (L * 1) :=
    follows.andThen fun _ => follows_pure true
  rw [mul_one] at marked
  exact marked.orElse (follows_pure false)

/-! ## White space -/

theorem Follows.padded (follows : reader.Follows Flush L) :
    (padded reader).Follows On (blanks * L * blanks) where
  inhabited := by
    obtain ⟨w, member⟩ := follows.inhabited
    exact ⟨_, spaced_mem nil_mem_blanks member nil_mem_blanks⟩
  takes := by
    intro s x rest _ taken
    obtain ⟨a, inner, b, blankA, flush, blankB, -, rfl, inside⟩ := takes_padded.1 taken
    obtain ⟨front, member, rfl⟩ := follows.takes flush inside
    exact ⟨a ++ front ++ b, spaced_mem blankA member blankB, by simp⟩
  misses := by
    intro s _ m missed
    rw [misses_padded] at missed
    obtain ⟨a, blankA, cutA⟩ := exists_eq_append_skipBlank s
    obtain ⟨front, more, cut, admits, member⟩ := follows.misses (flush_skipBlank s) m missed
    refine ⟨a ++ front, more, by rw [List.append_assoc, ← cut, ← cutA], admits, ?_⟩
    have spaced := spaced_mem blankA member nil_mem_blanks
    rwa [List.append_nil, ← List.append_assoc] at spaced

/-- Where no white space stands in front. -/
theorem Follows.padded_flush (follows : reader.Follows Flush L) :
    (Reader.padded reader).Follows Flush (L * blanks) where
  inhabited := by
    obtain ⟨w, member⟩ := follows.inhabited
    exact ⟨_, Language.append_mem_mul member nil_mem_blanks⟩
  takes := by
    intro s x rest flush taken
    obtain ⟨a, inner, b, blankA, -, blankB, -, rfl, inside⟩ := takes_padded.1 taken
    obtain rfl := eq_nil_of_flush_append blankA flush
    obtain ⟨front, member, rfl⟩ := follows.takes flush inside
    exact ⟨front ++ b, Language.append_mem_mul member blankB, by simp⟩
  misses := by
    intro s flush m missed
    rw [misses_padded, flush] at missed
    obtain ⟨front, more, cut, admits, member⟩ := follows.misses flush m missed
    have ended := Language.append_mem_mul member nil_mem_blanks
    rw [List.append_nil] at ended
    exact ⟨front, more, cut, admits, ended⟩

/-- A padded reader leaves no white space in front of what comes next. -/
theorem flush_of_takes_padded {s rest : List Char} {x : α} (taken : (padded reader).Takes s x rest) :
    Flush rest := by
  obtain ⟨mid, -, rfl⟩ := takes_padded_skip.1 taken
  exact flush_skipBlank mid

/-! ## Repetition -/

theorem Follows.many (follows : reader.Follows (fun _ => True) L) (consuming : reader.Consuming) :
    (many reader).Follows (fun _ => True) L∗ where
  inhabited := ⟨[], Language.nil_mem_kstar L⟩
  takes := by
    intro s xs rest _ taken
    induction xs generalizing s with
    | nil =>
      rcases (takes_many_iff consuming).1 taken with ⟨_, _, _, -, -, impossible⟩ | ⟨-, -, rfl⟩
      · cases impossible
      · exact ⟨[], Language.nil_mem_kstar L, rfl⟩
    | cons x xs ih =>
      rcases (takes_many_iff consuming).1 taken with ⟨_, mid, _, first, more, same⟩ | ⟨-, impossible, -⟩
      · cases same
        obtain ⟨front, member, rfl⟩ := follows.takes trivial first
        obtain ⟨body, row, rfl⟩ := ih more
        exact ⟨front ++ body, append_mem_kstar member row, by simp⟩
      · cases impossible
  misses := by
    intro s _
    -- on the length of what is left to read
    induction h : s.length using Nat.strong_induction_on generalizing s with
    | _ n ih =>
      intro m missed
      rcases (mem_misses_many consuming).1 missed with here | ⟨x, mid, first, later⟩
      · obtain ⟨front, more, cut, admits, member⟩ := follows.misses trivial m here
        have one := append_mem_kstar member (Language.nil_mem_kstar L)
        rw [List.append_nil] at one
        exact ⟨front, more, cut, admits, one⟩
      · have shorter : mid.length < n := h ▸ consuming s x mid first
        obtain ⟨front, member, rfl⟩ := follows.takes trivial first
        obtain ⟨front', more, cut, admits, row⟩ := ih mid.length shorter rfl m later
        refine ⟨front ++ front', more, by rw [cut, List.append_assoc], admits, ?_⟩
        rw [List.append_assoc]
        exact append_mem_kstar member row

end Reader

end SeedGrammar.Text
