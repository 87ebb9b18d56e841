/-
# SeedGrammar.Proofs.Text.Lookahead — a reader looks no further than it misses

Let a text be `front ++ c :: t`, and let a reader miss nothing inside `t` and leave
at least `c :: t`. Then it has looked at `c` at most, and not taken it: it comes to
the same on `front` followed by any other text that begins with `c`, and also on
`front` alone. `Steady` says so, and that a reader that fails has missed something.

The one reader that is not steady is the one for the end of the text, which looks at
`c` and is content without it. All others are, and so is whatever is built from
steady readers; nothing is said of what a reader takes.
-/
import SeedGrammar.Proofs.Text.Missing

namespace SeedGrammar.Text

set_option autoImplicit false

/-- Begins with `c`, or is the end of the text. -/
def Resumes (c : Char) (t : List Char) : Prop :=
  ∀ d ∈ t.head?, d = c

theorem resumes_nil (c : Char) : Resumes c [] := by
  simp [Resumes]

theorem resumes_cons (c : Char) (t : List Char) : Resumes c (c :: t) := by
  simp [Resumes]

variable {front rest t t' : List Char} {c : Char}

/-- What is left of a text, if it is no less than `t`. -/
theorem exists_eq_append_of_suffix (suffix : rest <:+ front ++ t) (enough : t.length ≤ rest.length) :
    ∃ g, rest = g ++ t := by
  obtain ⟨g, same⟩ := List.suffix_of_suffix_length_le (List.suffix_append front t) suffix enough
  exact ⟨g, same.symm⟩

/-- What comes after a place is looked at through its first character only. -/
theorem head?_append_resumes {g : List Char} {p : Char → Prop} (resumes : Resumes c t')
    (first : ∀ d ∈ (g ++ c :: t).head?, p d) : ∀ d ∈ (g ++ t').head?, p d := by
  intro d here
  cases g with
  | nil =>
    obtain rfl := resumes d here
    exact first d (by simp)
  | cons e g => exact first d here

/-- White space ends in front of `c`, whatever follows it. -/
theorem skipBlank_resumes (resumes : Resumes c t')
    (enough : (c :: t).length ≤ (skipBlank (front ++ c :: t)).length) :
    skipBlank (front ++ c :: t) = skipBlank front ++ c :: t ∧
      skipBlank (front ++ t') = skipBlank front ++ t' := by
  unfold skipBlank at *
  rw [List.dropWhile_append, List.dropWhile_append]
  by_cases skipped : (List.dropWhile isBlank front).isEmpty
  · have nothing : List.dropWhile isBlank front = [] := List.isEmpty_iff.1 skipped
    rw [List.dropWhile_append, if_pos skipped] at enough
    rw [if_pos skipped, if_pos skipped, nothing]
    have ink : ¬ isBlank c := by
      intro blank
      rw [List.dropWhile_cons_of_pos blank] at enough
      have shorter := t.length_dropWhile_le isBlank
      simp only [List.length_cons] at enough
      omega
    refine ⟨List.dropWhile_cons_of_neg ink, ?_⟩
    cases t' with
    | nil => rfl
    | cons d t' =>
      obtain rfl := resumes d rfl
      exact List.dropWhile_cons_of_neg ink
  · rw [if_neg skipped, if_neg skipped]
    exact ⟨rfl, rfl⟩

namespace Reader

variable {α β : Type}

/-- No miss lies inside `t`. -/
def Stays (reader : Reader α) (s t : List Char) : Prop :=
  ∀ m ∈ (reader s).misses, t.length ≤ m.rest.length

/-- The reader does not look past the furthest place where it missed something. -/
structure Steady (reader : Reader α) : Prop where
  leaves : ∀ {s x rest}, reader.Takes s x rest → rest <:+ s
  misses : ∀ {s}, ∀ m ∈ (reader s).misses, m.rest <:+ s
  explains : ∀ {s}, reader.Fails s → ∃ m, m ∈ (reader s).misses
  takes : ∀ {front c t t' x g}, Resumes c t' → reader.Stays (front ++ c :: t) (c :: t) →
    reader.Takes (front ++ c :: t) x (g ++ c :: t) → reader.Takes (front ++ t') x (g ++ t')
  fails : ∀ {front c t t'}, Resumes c t' → reader.Stays (front ++ c :: t) (c :: t) →
    reader.Fails (front ++ c :: t) → reader.Fails (front ++ t')

/-! ## Characters -/

theorem literalChars_explains {cs s : List Char} (failed : (literalChars cs).Fails s) :
    ∃ m, m ∈ (literalChars cs s).misses := by
  induction cs generalizing s with
  | nil => cases failed
  | cons d cs ih =>
    cases s with
    | nil => exact ⟨_, List.mem_singleton_self _⟩
    | cons e s =>
      unfold Fails at failed
      rw [literalChars] at failed ⊢
      by_cases same : d = e
      · rw [if_pos same] at failed ⊢
        exact ih failed
      · rw [if_neg same]
        exact ⟨_, List.mem_singleton_self _⟩

theorem steady_literal (text : String) : (literal text).Steady where
  leaves := by
    intro s x rest taken
    obtain rfl := takes_literal.1 taken
    exact List.suffix_append text.toList rest
  misses := by
    intro s m member
    obtain ⟨pre, d, post, rest, -, rfl, -, rfl⟩ := mem_misses_literal.1 member
    exact List.suffix_append pre rest
  explains := literalChars_explains
  takes := by
    intro front c t t' x g _ _ taken
    have cut := takes_literal.1 taken
    rw [← List.append_assoc] at cut
    have whole : front = text.toList ++ g := List.append_cancel_right cut
    rw [takes_literal, whole, List.append_assoc]
  fails := by
    intro front c t t' resumes stays failed
    obtain ⟨m, member⟩ := literalChars_explains failed
    obtain ⟨pre, d, post, rest, spelled, cut, apart, rfl⟩ := mem_misses_literal.1 member
    have suffix : rest <:+ front ++ c :: t := ⟨pre, cut.symm⟩
    obtain ⟨k, rfl⟩ := exists_eq_append_of_suffix suffix (stays _ member)
    rw [← List.append_assoc] at cut
    have whole : front = pre ++ k := List.append_cancel_right cut
    have other : ∀ e ∈ (k ++ c :: t).head?, e ≠ d := by
      intro e first same
      exact apart (same ▸ first)
    have still := head?_append_resumes resumes other
    rw [fails_iff]
    intro x rest taken
    have spelledOut := takes_literal.1 taken
    rw [spelled, whole, List.append_assoc, List.append_assoc, List.append_cancel_left_eq] at spelledOut
    exact still d (by simp [spelledOut]) rfl

theorem steady_upTo (stops : List Char) : (upTo stops).Steady where
  leaves := by
    intro s taken rest took
    obtain ⟨rfl, -, -⟩ := takes_upTo.1 took
    exact List.suffix_append taken rest
  misses := by
    intro s m member
    obtain ⟨taken, rest, took, rfl⟩ := mem_misses_upTo.1 member
    obtain ⟨rfl, -, -⟩ := takes_upTo.1 took
    exact List.suffix_append taken rest
  explains := by
    intro s failed
    cases failed
  takes := by
    intro front c t t' taken g resumes _ took
    obtain ⟨cut, inside, stop⟩ := takes_upTo.1 took
    rw [← List.append_assoc] at cut
    have whole : front = taken ++ g := List.append_cancel_right cut
    refine takes_upTo.2 ⟨?_, inside, head?_append_resumes resumes stop⟩
    rw [whole, List.append_assoc]
  fails := by
    intro front c t t' _ _ failed
    cases failed

theorem steady_identifier : identifier.Steady where
  leaves := by
    intro s name rest taken
    obtain ⟨rfl, -, -⟩ := takes_identifier.1 taken
    exact List.suffix_append name rest
  misses := by
    intro s m member
    rcases mem_misses_identifier.1 member with ⟨rfl, -⟩ | ⟨name, rest, taken, rfl⟩
    · simp
    · obtain ⟨rfl, -, -⟩ := takes_identifier.1 taken
      rw [rest_nameEnd]
      exact List.suffix_append name rest
  explains := by
    intro s failed
    exact ⟨nameEnd s, mem_misses_identifier.2 (Or.inl ⟨rfl, failed⟩)⟩
  takes := by
    intro front c t t' name g resumes _ taken
    obtain ⟨cut, named, stop⟩ := takes_identifier.1 taken
    rw [← List.append_assoc] at cut
    have whole : front = name ++ g := List.append_cancel_right cut
    refine takes_identifier.2 ⟨?_, named, head?_append_resumes resumes stop⟩
    rw [whole, List.append_assoc]
  fails := by
    intro front c t t' resumes _ failed
    have start : ∀ d ∈ (front ++ c :: t).head?, isNameStart d = false := by
      intro d first
      cases begins : front ++ c :: t with
      | nil => simp [begins] at first
      | cons e s =>
        obtain rfl : e = d := by simpa [begins] using first
        by_contra start
        rw [begins] at failed
        simp [Fails, identifier, start] at failed
    have still := head?_append_resumes resumes start
    cases begins : front ++ t' with
    | nil => rfl
    | cons d s =>
      have none := still d (by simp [begins])
      simp [Fails, identifier, none]

/-! ## Sequences and alternatives -/

variable {reader : Reader α}

theorem steady_pure (x : α) : (pure x : Reader α).Steady where
  leaves := by
    intro s y rest taken
    obtain ⟨-, rfl⟩ := takes_pure.1 taken
    exact List.suffix_refl rest
  misses := by simp
  explains := by
    intro s failed
    cases failed
  takes := by
    intro front c t t' y g _ _ taken
    obtain ⟨rfl, same⟩ := takes_pure.1 taken
    exact takes_pure.2 ⟨rfl, by rw [List.append_cancel_right same]⟩
  fails := by
    intro front c t t' _ _ failed
    cases failed

/-- A reader that leaves no less than `c :: t` leaves a text that ends in it. -/
theorem Steady.leaves_append (steady : reader.Steady) {front t : List Char} {c : Char} {x : α}
    {mid : List Char} (taken : reader.Takes (front ++ c :: t) x mid)
    (enough : (c :: t).length ≤ mid.length) : ∃ g, mid = g ++ c :: t :=
  exists_eq_append_of_suffix (steady.leaves taken) enough

theorem Steady.bind (steady : reader.Steady) {next : α → Reader β}
    (onward : ∀ x, (next x).Steady) : (reader >>= next).Steady where
  leaves := by
    intro s y rest taken
    obtain ⟨x, mid, first, second⟩ := takes_bind.1 taken
    exact ((onward x).leaves second).trans (steady.leaves first)
  misses := by
    intro s m member
    rcases mem_misses_bind.1 member with here | ⟨x, mid, first, later⟩
    · exact steady.misses m here
    · exact ((onward x).misses m later).trans (steady.leaves first)
  explains := by
    intro s failed
    rcases fails_bind.1 failed with failed | ⟨x, mid, first, failed⟩
    · obtain ⟨m, member⟩ := steady.explains failed
      exact ⟨m, mem_misses_bind.2 (Or.inl member)⟩
    · obtain ⟨m, member⟩ := (onward x).explains failed
      exact ⟨m, mem_misses_bind.2 (Or.inr ⟨x, mid, first, member⟩)⟩
  takes := by
    intro front c t t' y g resumes stays taken
    obtain ⟨x, mid, first, second⟩ := takes_bind.1 taken
    have enough : (c :: t).length ≤ mid.length := by
      have shorter := ((onward x).leaves second).length_le
      rw [List.length_append] at shorter
      omega
    obtain ⟨k, rfl⟩ := steady.leaves_append first enough
    have here : reader.Stays (front ++ c :: t) (c :: t) :=
      fun m member => stays m (mem_misses_bind.2 (Or.inl member))
    have later : (next x).Stays (k ++ c :: t) (c :: t) :=
      fun m member => stays m (mem_misses_bind.2 (Or.inr ⟨x, _, first, member⟩))
    exact takes_bind.2 ⟨x, k ++ t', steady.takes resumes here first,
      (onward x).takes resumes later second⟩
  fails := by
    intro front c t t' resumes stays failed
    have here : reader.Stays (front ++ c :: t) (c :: t) :=
      fun m member => stays m (mem_misses_bind.2 (Or.inl member))
    rcases fails_bind.1 failed with failed | ⟨x, mid, first, failed⟩
    · exact fails_bind.2 (Or.inl (steady.fails resumes here failed))
    · have later : ∀ m ∈ (next x mid).misses, (c :: t).length ≤ m.rest.length :=
        fun m member => stays m (mem_misses_bind.2 (Or.inr ⟨x, _, first, member⟩))
      -- the second reader has missed something, and not inside `t`
      obtain ⟨m, member⟩ := (onward x).explains failed
      have enough : (c :: t).length ≤ mid.length :=
        Nat.le_trans (later m member) ((onward x).misses m member).length_le
      obtain ⟨k, rfl⟩ := steady.leaves_append first enough
      exact fails_bind.2 (Or.inr ⟨x, k ++ t', steady.takes resumes here first,
        (onward x).fails resumes later failed⟩)

theorem Steady.orElse {second : Reader α} (steady : reader.Steady) (other : second.Steady) :
    (reader.orElse second).Steady where
  leaves := by
    intro s x rest taken
    rcases takes_orElse.1 taken with taken | ⟨-, taken⟩
    · exact steady.leaves taken
    · exact other.leaves taken
  misses := by
    intro s m member
    rcases mem_misses_orElse.1 member with here | ⟨-, later⟩
    · exact steady.misses m here
    · exact other.misses m later
  explains := by
    intro s failed
    obtain ⟨failed, -⟩ := fails_orElse.1 failed
    obtain ⟨m, member⟩ := steady.explains failed
    exact ⟨m, mem_misses_orElse.2 (Or.inl member)⟩
  takes := by
    intro front c t t' x g resumes stays taken
    have here : reader.Stays (front ++ c :: t) (c :: t) :=
      fun m member => stays m (mem_misses_orElse.2 (Or.inl member))
    rcases takes_orElse.1 taken with taken | ⟨failed, taken⟩
    · exact takes_orElse.2 (Or.inl (steady.takes resumes here taken))
    · have later : second.Stays (front ++ c :: t) (c :: t) :=
        fun m member => stays m (mem_misses_orElse.2 (Or.inr ⟨failed, member⟩))
      exact takes_orElse.2 (Or.inr ⟨steady.fails resumes here failed,
        other.takes resumes later taken⟩)
  fails := by
    intro front c t t' resumes stays failed
    obtain ⟨failed, failedToo⟩ := fails_orElse.1 failed
    have here : reader.Stays (front ++ c :: t) (c :: t) :=
      fun m member => stays m (mem_misses_orElse.2 (Or.inl member))
    have later : second.Stays (front ++ c :: t) (c :: t) :=
      fun m member => stays m (mem_misses_orElse.2 (Or.inr ⟨failed, member⟩))
    exact fails_orElse.2 ⟨steady.fails resumes here failed, other.fails resumes later failedToo⟩

theorem Steady.succeeds (steady : reader.Steady) : (succeeds reader).Steady :=
  (steady.bind fun _ => steady_pure true).orElse (steady_pure false)

theorem suffix_skipBlank (s : List Char) : skipBlank s <:+ s :=
  List.dropWhile_suffix isBlank

theorem Steady.padded (steady : reader.Steady) : (padded reader).Steady where
  leaves := by
    intro s x rest taken
    obtain ⟨mid, inside, rfl⟩ := takes_padded_skip.1 taken
    exact (suffix_skipBlank mid).trans ((steady.leaves inside).trans (suffix_skipBlank s))
  misses := by
    intro s m member
    rw [misses_padded] at member
    exact (steady.misses m member).trans (suffix_skipBlank s)
  explains := by
    intro s failed
    rw [misses_padded]
    exact steady.explains (fails_padded.1 failed)
  takes := by
    intro front c t t' x g resumes stays taken
    unfold Stays at stays
    rw [misses_padded] at stays
    obtain ⟨mid, inside, left⟩ := takes_padded_skip.1 taken
    have enough : (c :: t).length ≤ (skipBlank mid).length := by
      rw [← left, List.length_append]
      exact Nat.le_add_left _ _
    have enoughBefore : (c :: t).length ≤ (skipBlank (front ++ c :: t)).length :=
      Nat.le_trans enough
        ((suffix_skipBlank mid).length_le.trans (steady.leaves inside).length_le)
    obtain ⟨before, after⟩ := skipBlank_resumes resumes enoughBefore
    rw [before] at inside stays
    obtain ⟨k, rfl⟩ :=
      steady.leaves_append inside (Nat.le_trans enough (suffix_skipBlank mid).length_le)
    obtain ⟨skipped, skippedToo⟩ := skipBlank_resumes resumes enough
    have whole : g = skipBlank k := List.append_cancel_right (left.trans skipped)
    refine takes_padded_skip.2 ⟨k ++ t', ?_, ?_⟩
    · rw [after]
      exact steady.takes resumes stays inside
    · rw [skippedToo, whole]
  fails := by
    intro front c t t' resumes stays failed
    unfold Stays at stays
    rw [misses_padded] at stays
    rw [fails_padded] at failed ⊢
    obtain ⟨m, member⟩ := steady.explains failed
    have enough : (c :: t).length ≤ (skipBlank (front ++ c :: t)).length :=
      Nat.le_trans (stays m member) (steady.misses m member).length_le
    obtain ⟨before, after⟩ := skipBlank_resumes resumes enough
    rw [before] at failed stays
    rw [after]
    exact steady.fails resumes stays failed

/-! ## Repetition -/

theorem Steady.leaves_many (steady : reader.Steady) (consuming : reader.Consuming)
    {s rest : List Char} {xs : List α} (taken : (many reader).Takes s xs rest) : rest <:+ s := by
  induction xs generalizing s with
  | nil =>
    rcases (takes_many_iff consuming).1 taken with ⟨_, _, _, -, -, impossible⟩ | ⟨-, -, rfl⟩
    · cases impossible
    · exact List.suffix_refl rest
  | cons x xs ih =>
    rcases (takes_many_iff consuming).1 taken with ⟨_, mid, _, first, more, same⟩ | ⟨-, impossible, -⟩
    · cases same
      exact (ih more).trans (steady.leaves first)
    · cases impossible

theorem Steady.many (steady : reader.Steady) (consuming : reader.Consuming) :
    (many reader).Steady where
  leaves := steady.leaves_many consuming
  misses := by
    intro s
    -- on the length of what is left to read
    induction h : s.length using Nat.strong_induction_on generalizing s with
    | _ n ih =>
      intro m member
      rcases (mem_misses_many consuming).1 member with here | ⟨x, mid, first, later⟩
      · exact steady.misses m here
      · have shorter : mid.length < n := h ▸ consuming s x mid first
        exact (ih mid.length shorter rfl m later).trans (steady.leaves first)
  explains := by
    intro s failed
    exact absurd failed (many_stops consuming s)
  takes := by
    intro front c t t' xs g resumes stays taken
    have here {front : List Char} (stays : (Reader.many reader).Stays (front ++ c :: t) (c :: t)) :
        reader.Stays (front ++ c :: t) (c :: t) :=
      fun m member => stays m ((mem_misses_many consuming).2 (Or.inl member))
    induction xs generalizing front with
    | nil =>
      rcases (takes_many_iff consuming).1 taken with ⟨_, _, _, -, -, impossible⟩ | ⟨failed, -, same⟩
      · cases impossible
      · have whole : g = front := List.append_cancel_right same
        refine (takes_many_iff consuming).2 (Or.inr ⟨?_, rfl, by rw [whole]⟩)
        exact steady.fails resumes (here stays) failed
    | cons x xs ih =>
      rcases (takes_many_iff consuming).1 taken with ⟨_, mid, _, first, more, same⟩ | ⟨-, impossible, -⟩
      · cases same
        have shorter := (steady.leaves_many consuming more).length_le
        have enough : (c :: t).length ≤ mid.length := by
          rw [List.length_append] at shorter
          omega
        obtain ⟨k, rfl⟩ := steady.leaves_append first enough
        have later : (Reader.many reader).Stays (k ++ c :: t) (c :: t) :=
          fun m member => stays m ((mem_misses_many consuming).2 (Or.inr ⟨x, _, first, member⟩))
        exact (takes_many_iff consuming).2 (Or.inl ⟨x, k ++ t', xs,
          steady.takes resumes (here stays) first, ih later more, rfl⟩)
      · cases impossible
  fails := by
    intro front c t t' _ _ failed
    exact absurd failed (many_stops consuming _)

end Reader

end SeedGrammar.Text
