/-
# SeedGrammar.Proofs.Text.Taking — what a reader takes off the front of a text

`reader.Takes s x rest` says that the reader succeeds on `s` with the value `x`
and leaves `rest`; `reader.Fails s` says that it does not succeed. Neither speaks
of misses. One law for each way to build a reader:

* sequences, alternatives and padding by what their parts take (`takes_bind`,
  `takes_orElse`, `takes_padded`);
* characters by how `s` is cut in two (`takes_literal`, `takes_upTo`,
  `takes_identifier`);
* repetition by its first round (`takes_many_iff`), for readers that take at
  least one character. The fuel of `manyWithin` is gone from there on.
-/
import SeedGrammar.Text.Reader
import Mathlib.Data.List.DropRight
import Mathlib.Data.List.TakeDrop
import Mathlib.Data.List.TakeWhile

namespace SeedGrammar.Text

set_option autoImplicit false

/-! ## White space -/

theorem skipBlank_append {a : List Char} (blank : ∀ c ∈ a, White c) (s : List Char) :
    skipBlank (a ++ s) = skipBlank s :=
  List.dropWhile_append_of_pos fun c member => isBlank_iff.2 (blank c member)

theorem skipBlank_eq_nil {a : List Char} (blank : ∀ c ∈ a, White c) : skipBlank a = [] :=
  List.dropWhile_eq_nil_iff.2 fun c member => isBlank_iff.2 (blank c member)

theorem skipBlank_cons_of_not {c : Char} (ink : ¬ White c) (s : List Char) :
    skipBlank (c :: s) = c :: s :=
  List.dropWhile_cons_of_neg (mt isBlank_iff.1 ink)

@[simp] theorem skipBlank_skipBlank (s : List Char) : skipBlank (skipBlank s) = skipBlank s :=
  List.dropWhile_idempotent isBlank s

/-- What is skipped is white space. -/
theorem exists_eq_append_skipBlank (s : List Char) :
    ∃ a, (∀ c ∈ a, White c) ∧ s = a ++ skipBlank s :=
  ⟨s.takeWhile isBlank, fun _ member => isBlank_iff.1 (List.mem_takeWhile_imp member),
    List.takeWhile_append_dropWhile.symm⟩

/-- A text that does not begin with white space. -/
def Flush (s : List Char) : Prop :=
  skipBlank s = s

theorem flush_skipBlank (s : List Char) : Flush (skipBlank s) :=
  skipBlank_skipBlank s

theorem flush_cons {c : Char} (ink : ¬ White c) (s : List Char) : Flush (c :: s) :=
  skipBlank_cons_of_not ink s

theorem skipBlank_append_flush {a s : List Char} (blank : ∀ c ∈ a, White c) (flush : Flush s) :
    skipBlank (a ++ s) = s :=
  (skipBlank_append blank s).trans flush

theorem eq_nil_of_flush_append {a s : List Char} (blank : ∀ c ∈ a, White c)
    (flush : Flush (a ++ s)) : a = [] := by
  cases a with
  | nil => rfl
  | cons c a =>
    have skipped : skipBlank (c :: a ++ s) = skipBlank s := skipBlank_append blank s
    have shorter : (skipBlank s).length ≤ s.length := s.length_dropWhile_le isBlank
    rw [flush] at skipped
    have longer := congrArg List.length skipped
    simp only [List.length_append, List.length_cons] at longer
    omega

theorem ink_of_flush_cons {c : Char} {s : List Char} (flush : Flush (c :: s)) : ¬ White c := by
  intro blank
  have none : [c] = [] := eq_nil_of_flush_append (by simpa using blank) flush
  cases none

namespace Reader

variable {α β : Type}

/-- The reader succeeds on `s` with the value `x`, and `rest` is left. -/
def Takes (reader : Reader α) (s : List Char) (x : α) (rest : List Char) : Prop :=
  (reader s).value = some (x, rest)

/-- The reader does not succeed on `s`. -/
def Fails (reader : Reader α) (s : List Char) : Prop :=
  (reader s).value = none

theorem fails_iff {reader : Reader α} {s : List Char} :
    reader.Fails s ↔ ∀ x rest, ¬ reader.Takes s x rest := by
  simp [Fails, Takes, Option.eq_none_iff_forall_ne_some]

/-! ## Sequences and alternatives -/

@[simp] theorem takes_pure {x y : α} {s rest : List Char} :
    (pure x : Reader α).Takes s y rest ↔ y = x ∧ rest = s := by
  change some (x, s) = some (y, rest) ↔ _
  simp [eq_comm]

theorem takes_bind {reader : Reader α} {next : α → Reader β} {s rest : List Char} {y : β} :
    (reader >>= next).Takes s y rest ↔
      ∃ x mid, reader.Takes s x mid ∧ (next x).Takes mid y rest := by
  change (Reader.bind reader next s).value = _ ↔ _
  unfold Reader.bind Takes
  rcases reader s with ⟨_ | ⟨x, mid⟩, misses⟩ <;> simp

theorem fails_bind {reader : Reader α} {next : α → Reader β} {s : List Char} :
    (reader >>= next).Fails s ↔
      reader.Fails s ∨ ∃ x mid, reader.Takes s x mid ∧ (next x).Fails mid := by
  change (Reader.bind reader next s).value = _ ↔ _
  unfold Reader.bind Takes Fails
  rcases reader s with ⟨_ | ⟨x, mid⟩, misses⟩ <;> simp

theorem takes_orElse {first second : Reader α} {s rest : List Char} {x : α} :
    (first.orElse second).Takes s x rest ↔
      first.Takes s x rest ∨ first.Fails s ∧ second.Takes s x rest := by
  simp only [Reader.orElse, Takes, Fails]
  rcases first s with ⟨_ | ⟨y, mid⟩, misses⟩ <;> simp

theorem fails_orElse {first second : Reader α} {s : List Char} :
    (first.orElse second).Fails s ↔ first.Fails s ∧ second.Fails s := by
  simp only [Reader.orElse, Fails]
  rcases first s with ⟨_ | ⟨y, mid⟩, misses⟩ <;> simp

theorem takes_succeeds {reader : Reader α} {s rest : List Char} {b : Bool} :
    (succeeds reader).Takes s b rest ↔
      (b = true ∧ ∃ x, reader.Takes s x rest) ∨ (b = false ∧ reader.Fails s ∧ rest = s) := by
  change ((reader >>= fun _ => (pure true : Reader Bool)).orElse (pure false)).Takes s b rest ↔ _
  rw [takes_orElse, takes_bind, fails_bind]
  constructor
  · rintro (⟨x, mid, taken, result⟩ | ⟨failed, result⟩)
    · obtain ⟨rfl, rfl⟩ := takes_pure.1 result
      exact Or.inl ⟨rfl, x, taken⟩
    · obtain ⟨rfl, rfl⟩ := takes_pure.1 result
      refine Or.inr ⟨rfl, ?_, rfl⟩
      rcases failed with failed | ⟨x, mid, -, impossible⟩
      · exact failed
      · cases impossible
  · rintro (⟨rfl, x, taken⟩ | ⟨rfl, failed, rfl⟩)
    · exact Or.inl ⟨x, rest, taken, takes_pure.2 ⟨rfl, rfl⟩⟩
    · exact Or.inr ⟨Or.inl failed, takes_pure.2 ⟨rfl, rfl⟩⟩

theorem takes_padded_skip {reader : Reader α} {s rest : List Char} {x : α} :
    (padded reader).Takes s x rest ↔
      ∃ mid, reader.Takes (skipBlank s) x mid ∧ rest = skipBlank mid := by
  simp only [padded, Takes]
  rcases reader (skipBlank s) with ⟨_ | ⟨y, mid⟩, misses⟩
  · simp
  · simp only [Option.some.injEq, Prod.mk.injEq]
    constructor
    · rintro ⟨rfl, rfl⟩
      exact ⟨mid, ⟨rfl, rfl⟩, rfl⟩
    · rintro ⟨_, ⟨rfl, rfl⟩, rfl⟩
      exact ⟨rfl, rfl⟩

/-- A padded reader takes white space, what the reader takes, and all the white
space after that. -/
theorem takes_padded {reader : Reader α} {s rest : List Char} {x : α} :
    (padded reader).Takes s x rest ↔
      ∃ a inner b, (∀ c ∈ a, White c) ∧ Flush inner ∧ (∀ c ∈ b, White c) ∧ Flush rest ∧
        s = a ++ inner ∧ reader.Takes inner x (b ++ rest) := by
  rw [takes_padded_skip]
  constructor
  · rintro ⟨mid, taken, rfl⟩
    obtain ⟨a, blankA, cutA⟩ := exists_eq_append_skipBlank s
    obtain ⟨b, blankB, cutB⟩ := exists_eq_append_skipBlank mid
    exact ⟨a, skipBlank s, b, blankA, flush_skipBlank s, blankB, flush_skipBlank mid, cutA,
      cutB ▸ taken⟩
  · rintro ⟨a, inner, b, blankA, flushA, blankB, flushB, rfl, taken⟩
    rw [skipBlank_append_flush blankA flushA]
    exact ⟨b ++ rest, taken, (skipBlank_append_flush blankB flushB).symm⟩

theorem fails_padded {reader : Reader α} {s : List Char} :
    (padded reader).Fails s ↔ reader.Fails (skipBlank s) := by
  simp only [padded, Fails]
  rcases reader (skipBlank s) with ⟨_ | ⟨y, mid⟩, misses⟩ <;> simp

/-- A padded reader does not care for white space in front. -/
theorem padded_skipBlank (reader : Reader α) (s : List Char) :
    padded reader (skipBlank s) = padded reader s := by
  unfold padded
  rw [skipBlank_skipBlank]

/-! ## Characters -/

theorem takes_literalChars {cs s rest : List Char} {x : Unit} :
    (literalChars cs).Takes s x rest ↔ s = cs ++ rest := by
  induction cs generalizing s with
  | nil => simp [Takes, literalChars]
  | cons c cs ih =>
    cases s with
    | nil => simp [Takes, literalChars]
    | cons d s =>
      by_cases same : c = d
      · subst same
        simpa [Takes, literalChars] using ih
      · simp [Takes, literalChars, same, Ne.symm same]

theorem takes_literal {text : String} {s rest : List Char} {x : Unit} :
    (literal text).Takes s x rest ↔ s = text.toList ++ rest :=
  takes_literalChars

theorem fails_literal {text : String} {s : List Char} :
    (literal text).Fails s ↔ ¬ text.toList <+: s := by
  rw [fails_iff]
  constructor
  · rintro none ⟨rest, rfl⟩
    exact none () rest (takes_literal.2 rfl)
  · intro apart _ rest taken
    exact apart ⟨rest, (takes_literal.1 taken).symm⟩

/-- Taking the longest run of characters of one kind. -/
theorem span_eq_iff {p : Char → Bool} {s taken rest : List Char} :
    s.span p = (taken, rest) ↔
      s = taken ++ rest ∧ (∀ c ∈ taken, p c) ∧ ∀ c ∈ rest.head?, p c = false := by
  rw [List.span_eq_takeWhile_dropWhile, Prod.mk.injEq]
  constructor
  · rintro ⟨rfl, rfl⟩
    refine ⟨List.takeWhile_append_dropWhile.symm, fun _ => List.mem_takeWhile_imp, ?_⟩
    intro c first
    have stop := List.head?_dropWhile_not p s
    rw [Option.mem_def.1 first] at stop
    exact stop
  · rintro ⟨rfl, run, stop⟩
    rw [List.takeWhile_append_of_pos run, List.dropWhile_append_of_pos run]
    cases rest with
    | nil => simp
    | cons c rest => simp [stop c (by simp)]

theorem takes_upTo {stops s rest taken : List Char} :
    (upTo stops).Takes s taken rest ↔
      s = taken ++ rest ∧ (∀ c ∈ taken, c ∉ stops) ∧ ∀ c ∈ rest.head?, c ∈ stops := by
  have cut : s.span (fun c => decide (c ∉ stops)) = (taken, rest) ↔ _ := span_eq_iff
  simp only [decide_eq_true_eq, decide_eq_false_iff_not, not_not] at cut
  rw [← cut]
  simp [Takes, upTo, Prod.ext_iff]

theorem takes_identifier {s rest name : List Char} :
    identifier.Takes s name rest ↔
      s = name ++ rest ∧
        (∃ c cs, name = c :: cs ∧ isNameStart c ∧ ∀ d ∈ cs, isNamePart d) ∧
        ∀ d ∈ rest.head?, isNamePart d = false := by
  cases s with
  | nil =>
    constructor
    · intro impossible
      cases impossible
    · rintro ⟨same, ⟨c, cs, rfl, -⟩, -⟩
      cases same
  | cons c s =>
    by_cases start : isNameStart c
    · simp only [Takes, identifier, start, if_true, Option.some.injEq, Prod.mk.injEq]
      constructor
      · rintro ⟨rfl, rfl⟩
        obtain ⟨same, parts, stop⟩ := span_eq_iff.1 (Prod.eta (s.span isNamePart)).symm
        exact ⟨congrArg (List.cons c) same, ⟨c, _, rfl, start, parts⟩, stop⟩
      · rintro ⟨same, ⟨c', cs, rfl, -, parts⟩, stop⟩
        obtain ⟨rfl, tail⟩ := List.cons.inj same
        have cut : s.span isNamePart = (cs, rest) := span_eq_iff.2 ⟨tail, parts, stop⟩
        rw [cut]
        exact ⟨rfl, rfl⟩
    · constructor
      · intro impossible
        simp [Takes, identifier, start] at impossible
      · rintro ⟨same, ⟨c', cs, rfl, start', -⟩, -⟩
        obtain ⟨rfl, -⟩ := List.cons.inj same
        exact absurd start' start

theorem takes_endOfText {s rest : List Char} {x : Unit} :
    endOfText.Takes s x rest ↔ s = [] ∧ rest = [] := by
  cases s <;> simp [Takes, endOfText, eq_comm]

/-! ## Repetition -/

/-- Where the reader succeeds, it takes at least one character. -/
def Consuming (reader : Reader α) : Prop :=
  ∀ s x rest, reader.Takes s x rest → rest.length < s.length

/-- All fuel above the length of the text is as good. -/
theorem manyWithin_eq {reader : Reader α} (consuming : reader.Consuming) (fuel other : Nat)
    (s : List Char) (enough : s.length < fuel) (enough' : s.length < other) :
    reader.manyWithin fuel s = reader.manyWithin other s := by
  induction fuel generalizing other s with
  | zero => omega
  | succ fuel ih =>
    cases other with
    | zero => omega
    | succ other =>
      unfold manyWithin Reader.orElse Reader.bind
      have shorter : ∀ x rest, reader.Takes s x rest → rest.length < s.length := consuming s
      unfold Takes at shorter
      revert shorter
      rcases reader s with ⟨_ | ⟨x, rest⟩, misses⟩
      · intro _
        rfl
      · intro shorter
        have less := shorter x rest rfl
        simp only [ih other rest (by omega) (by omega)]

/-- A repetition is one round and then a repetition, or it stops at once. -/
theorem many_eq {reader : Reader α} (consuming : reader.Consuming) (s : List Char) :
    many reader s =
      ((do
        let first ← reader
        let rest ← many reader
        return first :: rest).orElse (pure [])) s := by
  change reader.manyWithin (s.length + 1) s =
    ((reader.bind fun first => (many reader).bind fun rest => succeed (first :: rest)).orElse
      (succeed [])) s
  rw [manyWithin]
  unfold Reader.orElse Reader.bind
  have shorter : ∀ x rest, reader.Takes s x rest → rest.length < s.length := consuming s
  unfold Takes at shorter
  revert shorter
  rcases reader s with ⟨_ | ⟨x, rest⟩, misses⟩
  · intro _
    rfl
  · intro shorter
    have less := shorter x rest rfl
    simp only [many, manyWithin_eq consuming s.length (rest.length + 1) rest less (by omega)]

theorem many_stops {reader : Reader α} (consuming : reader.Consuming) (s : List Char) :
    ¬ (many reader).Fails s := by
  intro failed
  unfold Fails at failed
  rw [many_eq consuming s] at failed
  obtain ⟨-, impossible⟩ := fails_orElse.1 failed
  cases impossible

theorem takes_many_iff {reader : Reader α} (consuming : reader.Consuming) {s rest : List Char}
    {xs : List α} :
    (many reader).Takes s xs rest ↔
      (∃ x mid ys, reader.Takes s x mid ∧ (many reader).Takes mid ys rest ∧ xs = x :: ys) ∨
        reader.Fails s ∧ xs = [] ∧ rest = s := by
  have round : (many reader).Takes s xs rest ↔
      ((do
        let first ← reader
        let rest ← many reader
        return first :: rest).orElse (pure [])).Takes s xs rest := by
    unfold Takes
    rw [many_eq consuming s]
  have going : ∀ mid, ¬ (many reader).Fails mid := many_stops consuming
  rw [round, takes_orElse, takes_bind, fails_bind]
  simp only [takes_bind, fails_bind, takes_pure]
  constructor
  · rintro (⟨x, mid, taken, ys, _, more, rfl, rfl⟩ | ⟨failed | ⟨x, mid, -, failed⟩, rfl, rfl⟩)
    · exact Or.inl ⟨x, mid, ys, taken, more, rfl⟩
    · exact Or.inr ⟨failed, rfl, rfl⟩
    · rcases failed with failed | ⟨ys, _, -, impossible⟩
      · exact absurd failed (going mid)
      · cases impossible
  · rintro (⟨x, mid, ys, taken, more, rfl⟩ | ⟨failed, rfl, rfl⟩)
    · exact Or.inl ⟨x, mid, taken, ys, rest, more, rfl, rfl⟩
    · exact Or.inr ⟨Or.inl failed, rfl, rfl⟩

end Reader

end SeedGrammar.Text
