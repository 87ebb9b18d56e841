/-
# SeedGrammar.Proofs.Text.Missing — what a reader misses on its way

A reading of a text keeps the misses of every attempt, also of those given up. For
each way to build a reader, the places where it misses something and what it wants
there, in terms of its parts (`mem_misses_bind`, `mem_misses_many`) or of how the text
is cut (`mem_misses_literal`, `mem_misses_upTo`, `mem_misses_identifier`).
-/
import SeedGrammar.Proofs.Text.Frontier
import SeedGrammar.Proofs.Text.Taking

namespace SeedGrammar.Text.Reader

set_option autoImplicit false

variable {α β : Type} {s : List Char} {m : Miss}

/-! ## Sequences and alternatives -/

@[simp] theorem misses_pure (x : α) (s : List Char) : ((pure x : Reader α) s).misses = [] :=
  rfl

theorem mem_misses_bind {reader : Reader α} {next : α → Reader β} :
    m ∈ ((reader >>= next) s).misses ↔
      m ∈ (reader s).misses ∨ ∃ x mid, reader.Takes s x mid ∧ m ∈ (next x mid).misses := by
  change m ∈ (Reader.bind reader next s).misses ↔ _
  unfold Reader.bind Takes
  rcases reader s with ⟨_ | ⟨x, mid⟩, misses⟩
  · simp
  · simp

theorem mem_misses_orElse {first second : Reader α} :
    m ∈ ((first.orElse second) s).misses ↔
      m ∈ (first s).misses ∨ first.Fails s ∧ m ∈ (second s).misses := by
  unfold Reader.orElse Fails
  rcases first s with ⟨_ | result, misses⟩
  · simp
  · simp

theorem misses_padded (reader : Reader α) (s : List Char) :
    (padded reader s).misses = (reader (skipBlank s)).misses := by
  unfold padded
  rcases reader (skipBlank s) with ⟨_ | ⟨x, rest⟩, misses⟩
  · rfl
  · rfl

theorem mem_misses_many {reader : Reader α} (consuming : reader.Consuming) :
    m ∈ (many reader s).misses ↔
      m ∈ (reader s).misses ∨ ∃ x mid, reader.Takes s x mid ∧ m ∈ (many reader mid).misses := by
  rw [many_eq consuming, mem_misses_orElse, mem_misses_bind]
  simp [mem_misses_bind]

/-! ## Characters -/

theorem mem_misses_literalChars {cs : List Char} :
    m ∈ (literalChars cs s).misses ↔
      ∃ pre c post rest, cs = pre ++ c :: post ∧ s = pre ++ rest ∧ rest.head? ≠ some c ∧
        m = .mismatch rest (.char c) := by
  induction cs generalizing s with
  | nil => simp [literalChars]
  | cons d cs ih =>
    constructor
    · intro member
      cases s with
      | nil =>
        obtain rfl := List.mem_singleton.1 member
        exact ⟨[], d, cs, [], rfl, rfl, by simp, rfl⟩
      | cons e s =>
        rw [literalChars] at member
        by_cases same : d = e
        · subst same
          rw [if_pos rfl] at member
          obtain ⟨pre, c, post, rest, rfl, rfl, apart, rfl⟩ := ih.1 member
          exact ⟨d :: pre, c, post, rest, rfl, rfl, apart, rfl⟩
        · rw [if_neg same] at member
          obtain rfl := List.mem_singleton.1 member
          refine ⟨[], d, cs, e :: s, rfl, rfl, ?_, rfl⟩
          intro first
          exact same (Option.some.inj first).symm
    · rintro ⟨pre, c, post, rest, cut, rfl, apart, rfl⟩
      cases pre with
      | nil =>
        obtain ⟨rfl, rfl⟩ := List.cons.inj cut
        cases rest with
        | nil => exact List.mem_singleton_self _
        | cons e rest =>
          have other : ¬ d = e := fun same => apart (congrArg some same.symm)
          rw [List.nil_append, literalChars, if_neg other]
          exact List.mem_singleton_self _
      | cons e pre =>
        obtain ⟨rfl, rfl⟩ := List.cons.inj cut
        rw [List.cons_append, literalChars, if_pos rfl]
        exact ih.2 ⟨pre, c, post, rest, rfl, rfl, apart, rfl⟩

/-- A literal misses the first of its characters that is not there. -/
theorem mem_misses_literal {text : String} :
    m ∈ (literal text s).misses ↔
      ∃ pre c post rest, text.toList = pre ++ c :: post ∧ s = pre ++ rest ∧ rest.head? ≠ some c ∧
        m = .mismatch rest (.char c) :=
  mem_misses_literalChars

theorem mem_misses_upTo {stops : List Char} :
    m ∈ (upTo stops s).misses ↔
      ∃ taken rest, (upTo stops).Takes s taken rest ∧ m = .mismatch rest .somethingElse := by
  simp [upTo, Takes]

/-- An identifier is missed where it should begin, or where it ends. -/
theorem mem_misses_identifier :
    m ∈ (identifier s).misses ↔
      m = nameEnd s ∧ identifier.Fails s ∨
        ∃ name rest, identifier.Takes s name rest ∧ m = nameEnd rest := by
  cases s with
  | nil => simp [identifier, Takes, Fails]
  | cons c s =>
    by_cases start : isNameStart c
    · simp [identifier, Takes, Fails, start]
    · simp [identifier, Takes, Fails, start]

@[simp] theorem rest_nameEnd (s : List Char) : (nameEnd s).rest = s := by
  cases s <;> rfl

theorem mem_misses_endOfText :
    m ∈ (endOfText s).misses ↔ s ≠ [] ∧ m = .mismatch s .endOfInput := by
  cases s <;> simp [endOfText]

end SeedGrammar.Text.Reader
