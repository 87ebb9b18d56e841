/-
# SeedGrammar.Proofs.Text.Cutting — cutting a text where a marker stands

`occurrences` counts the places of a text where a marker stands, and `cutBefore` cuts a
text immediately before each of them, without regard to what the text means. Nothing is
lost in cutting (`flatten_cutBefore`), and there is one cut for each place but the first
one (`length_cutBefore`).

A search like this can find what was not meant as a marker: within a piece, or where the
end of one piece and the start of the next one make up a marker together. Neither happens
if every piece is `Headed`: it begins with a character that the marker does not have, then
has the marker, and then nothing of the marker's last character. So the cut gives such
pieces back (`cutBefore_flatten`), with as many markers as there are
(`occurrences_flatten`).
-/
import Mathlib.Data.List.Infix

namespace SeedGrammar.Text

set_option autoImplicit false

/-! ## Searching and cutting -/

/-- How often a marker stands in a text. -/
def occurrences (marker text : List Char) : Nat :=
  text.tails.countP fun rest => marker.isPrefixOf rest

/-- The pieces of a text that is cut immediately before each place where a mark stands.
There is no empty piece in front of a mark that the text begins with. -/
def cutBefore (mark : List Char) : List Char → List (List Char)
  | [] => []
  | c :: s =>
    match cutBefore mark s with
    | [] => [[c]]
    | piece :: pieces =>
      if mark.isPrefixOf s then [c] :: piece :: pieces else (c :: piece) :: pieces

variable {marker mark s rest : List Char} {c d : Char}

theorem occurrences_cons (marker : List Char) (c : Char) (s : List Char) :
    occurrences marker (c :: s) =
      (if marker <+: c :: s then 1 else 0) + occurrences marker s := by
  unfold occurrences
  rw [List.tails_cons, List.countP_cons, Nat.add_comm]
  simp only [List.isPrefixOf_iff_prefix]

theorem occurrences_nil (nonempty : marker ≠ []) : occurrences marker [] = 0 := by
  cases marker with
  | nil => exact absurd rfl nonempty
  | cons c cs => rfl

theorem cutBefore_ne_nil (mark : List Char) (nonempty : s ≠ []) : cutBefore mark s ≠ [] := by
  cases s with
  | nil => exact absurd rfl nonempty
  | cons c s =>
    unfold cutBefore
    split
    · simp
    · split <;> simp

theorem cutBefore_cons_of_ne_nil (mark : List Char) (c : Char) (nonempty : s ≠ []) :
    ∃ piece pieces, cutBefore mark s = piece :: pieces ∧
      cutBefore mark (c :: s) =
        if mark <+: s then [c] :: piece :: pieces else (c :: piece) :: pieces := by
  obtain ⟨piece, pieces, cut⟩ := List.exists_cons_of_ne_nil (cutBefore_ne_nil mark nonempty)
  refine ⟨piece, pieces, cut, ?_⟩
  rw [cutBefore, cut]
  simp only [List.isPrefixOf_iff_prefix]

/-- The pieces one after another are the text. -/
theorem flatten_cutBefore (mark s : List Char) : (cutBefore mark s).flatten = s := by
  induction s with
  | nil => rfl
  | cons c s ih =>
    cases s with
    | nil => rfl
    | cons d s =>
      obtain ⟨piece, pieces, cut, cut'⟩ := cutBefore_cons_of_ne_nil mark c (s := d :: s) (by simp)
      rw [cut] at ih
      rw [cut', ← ih]
      split <;> rfl

/-- One cut for each place where the mark stands, except at the start. -/
theorem length_cutBefore (nonempty : mark ≠ []) (c : Char) (s : List Char) :
    (cutBefore mark (c :: s)).length = occurrences mark s + 1 := by
  induction s generalizing c with
  | nil => rw [occurrences_nil nonempty]; rfl
  | cons d s ih =>
    obtain ⟨piece, pieces, cut, cut'⟩ := cutBefore_cons_of_ne_nil mark c (s := d :: s) (by simp)
    have length := ih d
    rw [cut, List.length_cons] at length
    rw [cut', occurrences_cons]
    by_cases here : mark <+: d :: s
    · simp only [if_pos here, List.length_cons]
      omega
    · simp only [if_neg here, List.length_cons]
      omega

/-! ## Places without a marker -/

/-- Nothing is found from the characters of `s` on. -/
theorem occurrences_append_of_none
    (none : ∀ front t, s = front ++ t → t ≠ [] → ¬ marker <+: t ++ rest) :
    occurrences marker (s ++ rest) = occurrences marker rest := by
  induction s with
  | nil => rfl
  | cons c s ih =>
    have here : ¬ marker <+: c :: (s ++ rest) := none [] (c :: s) rfl (by simp)
    rw [List.cons_append, occurrences_cons, if_neg here, Nat.zero_add]
    apply ih
    intro front t cut nonempty
    exact none (c :: front) t (by rw [cut, List.cons_append]) nonempty

/-- No cut is made within `s`, and then one is made unless the text ends there. -/
theorem cutBefore_append_of_none (nonempty : s ≠ [])
    (none : ∀ front t, s = front ++ t → front ≠ [] → t ≠ [] → ¬ mark <+: t ++ rest)
    (stop : rest = [] ∨ mark <+: rest) :
    cutBefore mark (s ++ rest) = s :: cutBefore mark rest := by
  induction s with
  | nil => exact absurd rfl nonempty
  | cons c s ih =>
    by_cases last : s = []
    · subst last
      by_cases ended : rest = []
      · subst ended
        rfl
      · obtain ⟨piece, pieces, cut, cut'⟩ := cutBefore_cons_of_ne_nil mark c ended
        have marked : mark <+: rest := stop.resolve_left ended
        rw [List.singleton_append, cut', if_pos marked, cut]
    · have inner : ¬ mark <+: s ++ rest := none [c] s rfl (by simp) last
      obtain ⟨piece, pieces, cut, cut'⟩ :=
        cutBefore_cons_of_ne_nil mark c (s := s ++ rest) (by simp [last])
      have shorter := ih last fun front t same front_ne t_ne =>
        none (c :: front) t (by rw [same, List.cons_append]) (by simp) t_ne
      rw [cut] at shorter
      obtain ⟨rfl, rfl⟩ := List.cons.inj shorter
      rw [List.cons_append, cut', if_neg inner]

/-! ## Headed pieces -/

/-- A marker does not reach past a character that it does not have. -/
theorem prefix_of_prefix_append (apart : c ∉ marker) (stop : ∀ x ∈ rest.head?, x = c)
    (found : marker <+: s ++ rest) : marker <+: s := by
  induction s generalizing marker with
  | nil =>
    cases marker with
    | nil => exact List.nil_prefix
    | cons x xs =>
      cases rest with
      | nil => simp at found
      | cons y ys =>
        obtain ⟨rfl, -⟩ := List.cons_prefix_cons.1 found
        have same : x = c := stop x rfl
        exact absurd (same ▸ List.mem_cons_self) apart
  | cons y s ih =>
    cases marker with
    | nil => exact List.nil_prefix
    | cons x xs =>
      obtain ⟨rfl, later⟩ := List.cons_prefix_cons.1 found
      have fine : c ∉ xs := fun member => apart (List.mem_cons_of_mem _ member)
      exact List.cons_prefix_cons.2 ⟨rfl, ih fine later⟩

/-- A marker does not stand again behind its own place, if its last character does not
stand there again. -/
theorem not_prefix_of_later {m tail front t : List Char} (once : d ∉ tail)
    (cut : m ++ d :: tail = front ++ t) (later : front ≠ []) : ¬ m ++ [d] <+: t := by
  rintro ⟨after, rfl⟩
  have behind : m ++ d :: tail = (front ++ m) ++ d :: after := by simpa using cut
  rcases List.append_eq_append_iff.1 behind with ⟨between, longer, rest⟩ | ⟨between, longer, rest⟩
  · cases between with
    | nil =>
      have length := congrArg List.length longer
      have positive := List.length_pos_iff.2 later
      simp only [List.append_nil, List.length_append] at length
      omega
    | cons x between =>
      obtain ⟨-, rfl⟩ := List.cons.inj rest
      exact once (by simp)
  · have length := congrArg List.length longer
    have positive := List.length_pos_iff.2 later
    simp only [List.length_append] at length
    omega

/-- A piece that begins with `c` and the marker `m ++ [d]`, and has no other `d`. -/
def Headed (c : Char) (m : List Char) (d : Char) (piece : List Char) : Prop :=
  ∃ tail, d ∉ tail ∧ piece = c :: (m ++ d :: tail)

/-- Headed pieces in a row begin with the mark, if there are any. -/
theorem prefix_flatten_of_headed {m : List Char} {pieces : List (List Char)}
    (headed : ∀ piece ∈ pieces, Headed c m d piece) :
    pieces.flatten = [] ∨ c :: (m ++ [d]) <+: pieces.flatten := by
  cases pieces with
  | nil => exact Or.inl rfl
  | cons piece pieces =>
    obtain ⟨tail, -, rfl⟩ := headed piece (by simp)
    exact Or.inr ⟨tail ++ pieces.flatten, by simp⟩

section Headed

variable {m : List Char} (apart : c ∉ m ++ [d])

include apart

/-- Behind its first two places a headed piece has no marker, also with what follows. -/
theorem not_prefix_of_headed {tail front t : List Char} (once : d ∉ tail)
    (stop : ∀ x ∈ rest.head?, x = c) (cut : m ++ d :: tail = front ++ t) (later : front ≠ []) :
    ¬ m ++ [d] <+: t ++ rest :=
  fun found => not_prefix_of_later once cut later (prefix_of_prefix_append apart stop found)

theorem occurrences_headed {piece : List Char} (headed : Headed c m d piece)
    (stop : ∀ x ∈ rest.head?, x = c) :
    occurrences (m ++ [d]) (piece ++ rest) = occurrences (m ++ [d]) rest + 1 := by
  obtain ⟨tail, once, rfl⟩ := headed
  have first : ¬ m ++ [d] <+: c :: (m ++ d :: tail ++ rest) := by
    intro found
    obtain ⟨x, xs, begins⟩ := List.exists_cons_of_ne_nil (l := m ++ [d]) (by simp)
    rw [begins] at found
    obtain ⟨rfl, -⟩ := List.cons_prefix_cons.1 found
    exact apart (begins ▸ List.mem_cons_self)
  have second : m ++ [d] <+: m ++ d :: tail ++ rest := ⟨tail ++ rest, by simp⟩
  rw [List.cons_append, occurrences_cons, if_neg first, Nat.zero_add]
  obtain ⟨x, xs, begins⟩ := List.exists_cons_of_ne_nil (l := m ++ d :: tail) (by simp)
  rw [begins, List.cons_append] at second
  have others : occurrences (m ++ [d]) (xs ++ rest) = occurrences (m ++ [d]) rest := by
    apply occurrences_append_of_none
    intro front t cut _
    have place : m ++ d :: tail = x :: front ++ t := by rw [begins, cut, List.cons_append]
    exact not_prefix_of_headed apart once stop place (by simp)
  rw [begins, List.cons_append, occurrences_cons, if_pos second, others, Nat.add_comm]

theorem cutBefore_headed {piece : List Char} (headed : Headed c m d piece)
    (stop : rest = [] ∨ c :: (m ++ [d]) <+: rest) :
    cutBefore (c :: (m ++ [d])) (piece ++ rest) = piece :: cutBefore (c :: (m ++ [d])) rest := by
  obtain ⟨tail, once, rfl⟩ := headed
  have begins : ∀ x ∈ rest.head?, x = c := by
    rcases stop with rfl | ⟨after, rfl⟩ <;> simp
  refine cutBefore_append_of_none (by simp) ?_ stop
  intro front t cut front_ne t_ne found
  cases front with
  | nil => exact front_ne rfl
  | cons x front =>
    cases t with
    | nil => exact t_ne rfl
    | cons y t =>
      obtain ⟨-, later⟩ := List.cons.inj cut
      obtain ⟨-, found⟩ := List.cons_prefix_cons.1 found
      have place : m ++ d :: tail = front ++ [y] ++ t := by
        rw [later]
        simp
      exact not_prefix_of_headed apart once begins place (by simp) found

/-- There are as many markers as there are pieces. -/
theorem occurrences_flatten {pieces : List (List Char)}
    (headed : ∀ piece ∈ pieces, Headed c m d piece) :
    occurrences (m ++ [d]) pieces.flatten = pieces.length := by
  induction pieces with
  | nil => exact occurrences_nil (by simp)
  | cons piece pieces ih =>
    have others : ∀ piece ∈ pieces, Headed c m d piece := fun p member => headed p (by simp [member])
    have stop : ∀ x ∈ pieces.flatten.head?, x = c := by
      rcases prefix_flatten_of_headed others with ended | ⟨after, follows⟩
      · simp [ended]
      · simp [← follows]
    rw [List.flatten_cons, occurrences_headed apart (headed piece (by simp)) stop, ih others,
      List.length_cons]

/-- Cutting gives the pieces back. -/
theorem cutBefore_flatten {pieces : List (List Char)}
    (headed : ∀ piece ∈ pieces, Headed c m d piece) :
    cutBefore (c :: (m ++ [d])) pieces.flatten = pieces := by
  induction pieces with
  | nil => rfl
  | cons piece pieces ih =>
    have others : ∀ piece ∈ pieces, Headed c m d piece := fun p member => headed p (by simp [member])
    rw [List.flatten_cons, cutBefore_headed apart (headed piece (by simp))
      (prefix_flatten_of_headed others), ih others]

end Headed

end SeedGrammar.Text
