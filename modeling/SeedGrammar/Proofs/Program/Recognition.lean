/-
# SeedGrammar.Proofs.Program.Recognition — readers take exactly the layouts

Each reader of program texts is compared with the layout of what it reads. A
reader never backs out of a choice, a layout leaves every choice open; they agree
because each token ends where the next one cannot continue it:

* white space is no part of a name, so a name ends before it or before a bracket;
* a path begins after all white space and ends at a space;
* no keyword begins with another one, so at most one alternative gets past its
  keyword.

`takes_functionDecl`, `takes_items`, `takes_sourceUnit` and `takes_program` go from
the members of a contract up to whole programs. Rows of repeated parts go through
`takes_many_of_row` one way and `row_of_takes_many` the other.
-/
import SeedGrammar.Program.Layout
import SeedGrammar.Program.Reader
import SeedGrammar.Proofs.Text.Taking

namespace SeedGrammar

set_option autoImplicit false

open Text Text.Reader Program.Reader Layout

/-! ## Tokens -/

theorem Layout.Blank.nil : Blank [] := by
  simp [Blank]

theorem Layout.Blank.append {a b : List Char} (blankA : Blank a) (blankB : Blank b) :
    Blank (a ++ b) :=
  List.forall_mem_append.2 ⟨blankA, blankB⟩

theorem isAlpha_iff {c : Char} : c.isAlpha ↔ Letter c := by
  show (decide ('A' ≤ c ∧ c ≤ 'Z') || (decide ('a' ≤ c) && decide (c ≤ 'z'))) = true ↔ _
  simp only [Bool.or_eq_true, Bool.and_eq_true, decide_eq_true_eq, Letter]

theorem isDigit_iff {c : Char} : c.isDigit ↔ Digit c := by
  show (decide ('0' ≤ c) && decide (c ≤ '9')) = true ↔ _
  simp only [Bool.and_eq_true, decide_eq_true_eq, Digit]

theorem isNameStart_iff {c : Char} : isNameStart c ↔ Letter c ∨ c = '_' := by
  simp only [isNameStart, Bool.or_eq_true, isAlpha_iff, beq_iff_eq]

theorem isNamePart_iff {c : Char} : isNamePart c ↔ NamePart c := by
  show ((c.isAlpha || c.isDigit) || c == '_') = true ↔ _
  simp only [Bool.or_eq_true, isAlpha_iff, isDigit_iff, beq_iff_eq, or_assoc, NamePart]

theorem range_of_namePart {c : Char} (part : NamePart c) : 48 ≤ c.toNat ∧ c.toNat ≤ 122 := by
  simp only [NamePart, Letter, Digit, Char.le_def, UInt32.le_iff_toNat_le] at part
  rcases part with (⟨low, high⟩ | ⟨low, high⟩) | ⟨low, high⟩ | rfl
  · exact ⟨Nat.le_trans (by decide) low, Nat.le_trans high (by decide)⟩
  · exact ⟨Nat.le_trans (by decide) low, Nat.le_trans high (by decide)⟩
  · exact ⟨low, Nat.le_trans high (by decide)⟩
  · decide

theorem not_white_of_namePart {c : Char} (part : NamePart c) : ¬ White c := by
  have range := range_of_namePart part
  simp only [White, List.mem_cons, List.not_mem_nil, or_false]
  omega

theorem namePart_of_start {c : Char} (start : Letter c ∨ c = '_') : NamePart c :=
  start.imp_right Or.inr

/-- What ends a name after white space, if any. -/
theorem name_stops {b : List Char} (blank : Blank b) {c : Char} (stop : ¬ NamePart c)
    (s : List Char) : ∀ d ∈ (b ++ c :: s).head?, ¬ NamePart d := by
  intro d first
  cases b with
  | nil =>
    obtain rfl : c = d := by simpa using first
    exact stop
  | cons e b =>
    obtain rfl : e = d := by simpa using first
    exact fun part => not_white_of_namePart part (blank e (by simp))

theorem takes_name {s rest name : List Char} :
    identifier.Takes s name rest ↔
      s = name ++ rest ∧ Name name ∧ ∀ d ∈ rest.head?, ¬ NamePart d := by
  simp only [takes_identifier, ← Bool.not_eq_true, isNameStart_iff, isNamePart_iff]
  constructor
  · rintro ⟨same, ⟨c, cs, rfl, start, parts⟩, stop⟩
    exact ⟨same, .mk start parts, stop⟩
  · rintro ⟨same, ⟨start, parts⟩, stop⟩
    exact ⟨same, ⟨_, _, rfl, start, parts⟩, stop⟩

theorem flush_name {name : List Char} (named : Name name) (s : List Char) : Flush (name ++ s) := by
  obtain ⟨start, -⟩ := named
  exact flush_cons (not_white_of_namePart (namePart_of_start start)) _

/-- A padded name, and what follows it begins with a character no name can have. -/
theorem takes_padded_name {a name b s : List Char} (blankA : Blank a) (named : Name name)
    (blankB : Blank b) {c : Char} (ink : ¬ White c) (stop : ¬ NamePart c) :
    (padded identifier).Takes (a ++ (name ++ (b ++ c :: s))) name (c :: s) :=
  takes_padded.2 ⟨a, name ++ (b ++ c :: s), b, blankA, flush_name named _, blankB,
    flush_cons ink s, rfl, takes_name.2 ⟨rfl, named, name_stops blankB stop s⟩⟩

/-- Whether a token begins with a character other than white space. -/
def inked (token : String) : Bool :=
  token.toList.head?.any fun c => ¬ White c

theorem flush_token (token : String) (ink : inked token = true) (s : List Char) :
    Flush (token.toList ++ s) := by
  unfold inked at ink
  cases begins : token.toList with
  | nil => simp [begins] at ink
  | cons c cs =>
    have start : ¬ White c := by simpa [begins] using ink
    exact flush_cons start _

theorem takes_padded_literal {text : String} {s rest : List Char} {x : Unit}
    (ink : inked text = true) :
    (padded (literal text)).Takes s x rest ↔
      ∃ a b, Blank a ∧ Blank b ∧ Flush rest ∧ s = a ++ (text.toList ++ (b ++ rest)) := by
  rw [takes_padded]
  constructor
  · rintro ⟨a, inner, b, blankA, -, blankB, flush, rfl, taken⟩
    obtain rfl := takes_literal.1 taken
    exact ⟨a, b, blankA, blankB, flush, rfl⟩
  · rintro ⟨a, b, blankA, blankB, flush, rfl⟩
    exact ⟨a, text.toList ++ (b ++ rest), b, blankA, flush_token _ ink _, blankB, flush, rfl,
      takes_literal.2 rfl⟩

theorem takes_token (text : String) {a b rest : List Char} (ink : inked text = true)
    (blankA : Blank a) (blankB : Blank b) (flush : Flush rest) :
    (padded (literal text)).Takes (a ++ (text.toList ++ (b ++ rest))) () rest :=
  (takes_padded_literal ink).2 ⟨a, b, blankA, blankB, flush, rfl⟩

/-- A token where no white space stands before it. -/
theorem takes_keyword {text : String} {s rest : List Char} {x : Unit} (ink : inked text = true)
    (flush : Flush s) :
    (padded (literal text)).Takes s x rest ↔
      ∃ b, Blank b ∧ Flush rest ∧ s = text.toList ++ (b ++ rest) := by
  rw [takes_padded_literal ink]
  constructor
  · rintro ⟨a, b, blankA, blankB, flushed, rfl⟩
    obtain rfl := eq_nil_of_flush_append blankA flush
    exact ⟨b, blankB, flushed, rfl⟩
  · rintro ⟨b, blankB, flushed, rfl⟩
    exact ⟨[], b, .nil, blankB, flushed, rfl⟩

/-! ## Functions -/

theorem takes_functionDecl {s rest : List Char} {decl : FunctionDecl} :
    functionDecl.Takes s decl rest ↔ ∃ front, OfFunction decl front ∧ s = front ++ rest := by
  simp only [functionDecl, takes_bind, takes_literal, takes_pure]
  constructor
  · rintro ⟨_, _, rfl, name, _, nameTaken, _, _, rfl, isPublic, _, marked, _, _, pureTaken, _, _,
      rfl, rfl, rfl⟩
    obtain ⟨a, _, b, blankA, -, blankB, -, rfl, taken⟩ := takes_padded.1 nameTaken
    obtain ⟨rfl, named, -⟩ := takes_name.1 taken
    obtain ⟨c, d, blankC, blankD, -, rfl⟩ := (takes_padded_literal (by rfl)).1 pureTaken
    rcases takes_succeeds.1 marked with ⟨rfl, _, taken⟩ | ⟨rfl, -, rfl⟩
    · obtain ⟨c', d', blankC', blankD', -, rfl⟩ := (takes_padded_literal (by rfl)).1 taken
      exact ⟨_, .marked named blankA blankB blankC' (blankD'.append blankC) blankD, by simp⟩
    · exact ⟨_, .unmarked named blankA blankB blankC blankD, by simp⟩
  · rintro ⟨front, layout, rfl⟩
    cases layout with
    | @unmarked name a b c d named blankA blankB blankC blankD =>
      have braces : Flush ("\x7b\x7d".toList ++ rest) := flush_token _ (by rfl) rest
      have pureTaken := takes_token "pure" (by rfl) blankC blankD braces
      have nameTaken := takes_padded_name (s := ')' :: (c ++ ("pure".toList ++ (d ++
        ("\x7b\x7d".toList ++ rest))))) blankA named blankB (c := '(') (by decide) (by decide)
      have unmarked : (padded (literal "public")).Fails
          (c ++ ("pure".toList ++ (d ++ ("\x7b\x7d".toList ++ rest)))) := by
        rw [fails_padded, skipBlank_append_flush blankC (flush_token _ (by rfl) _), fails_literal]
        simp
      simp only [List.append_assoc]
      exact ⟨(), _, rfl, name, _, nameTaken, (), _, rfl, false, _,
        takes_succeeds.2 (Or.inr ⟨rfl, unmarked, rfl⟩), (), _, pureTaken, (), _, rfl, rfl, rfl⟩
    | @marked name a b c d e named blankA blankB blankC blankD blankE =>
      have braces : Flush ("\x7b\x7d".toList ++ rest) := flush_token _ (by rfl) rest
      have pureTaken := takes_token "pure" (by rfl) .nil blankE braces
      have publicTaken := takes_token "public" (by rfl) blankC blankD
        (flush_token "pure" (by rfl) (e ++ ("\x7b\x7d".toList ++ rest)))
      simp only [List.append_assoc]
      exact ⟨(), _, rfl, name, _,
        takes_padded_name blankA named blankB (by decide) (by decide), (), _, rfl, true, _,
        takes_succeeds.2 (Or.inl ⟨rfl, (), publicTaken⟩), (), _, pureTaken, (), _, rfl, rfl, rfl⟩

/-! ## Rows -/

/-- Whatever the reader takes is a layout of its value. -/
def Recovers {α : Type} (reader : Reader α) (Of : α → List Char → Prop) : Prop :=
  ∀ ⦃s x rest⦄, reader.Takes s x rest → ∃ front, Of x front ∧ s = front ++ rest

section Rows

variable {α : Type} {reader : Reader α} {Of : α → List Char → Prop}

theorem Recovers.consuming (recovers : Recovers reader Of)
    (nonempty : ∀ {x front}, Of x front → front ≠ []) : reader.Consuming := by
  intro s x rest taken
  obtain ⟨front, layout, rfl⟩ := recovers taken
  have longer := List.length_pos_iff.2 (nonempty layout)
  rw [List.length_append]
  omega

theorem row_of_takes_many (recovers : Recovers reader Of) (consuming : reader.Consuming) :
    Recovers (many reader) (Row Of) := by
  intro s xs rest taken
  induction xs generalizing s with
  | nil =>
    rcases (takes_many_iff consuming).1 taken with ⟨_, _, _, -, -, impossible⟩ | ⟨-, -, rfl⟩
    · cases impossible
    · exact ⟨[], .nil, rfl⟩
  | cons x xs ih =>
    rcases (takes_many_iff consuming).1 taken with ⟨_, mid, _, first, more, same⟩ | ⟨-, impossible, -⟩
    · cases same
      obtain ⟨front, layout, rfl⟩ := recovers first
      obtain ⟨body, row, rfl⟩ := ih more
      exact ⟨front ++ body, .cons layout row, (List.append_assoc _ _ _).symm⟩
    · cases impossible

/-- A row is taken part by part where no part runs on into what follows it, and
the reader fails on what follows the row. White space in front of the row is not
seen, as the parts before it have skipped it. -/
theorem takes_many_of_row (Follow : List Char → Prop) (consuming : reader.Consuming)
    (blind : ∀ s, reader (skipBlank s) = reader s)
    (round : ∀ {x front rest}, Of x front → Follow rest →
      reader.Takes (front ++ rest) x (skipBlank rest))
    (follow : ∀ {x front rest}, Of x front → Follow (front ++ rest))
    {xs : List α} {front rest : List Char} (row : Row Of xs front) (last : Follow rest)
    (stop : reader.Fails rest) :
    (many reader).Takes (skipBlank (front ++ rest)) xs (skipBlank rest) := by
  induction row with
  | nil =>
    refine (takes_many_iff consuming).2 (Or.inr ⟨?_, rfl, rfl⟩)
    unfold Fails
    rw [List.nil_append, blind]
    exact stop
  | @cons x xs s t head tail ih =>
    have followed : Follow (t ++ rest) := by
      cases tail with
      | nil => exact last
      | cons next more =>
        rw [List.append_assoc]
        exact follow next
    have first : reader.Takes (skipBlank (s ++ t ++ rest)) x (skipBlank (t ++ rest)) := by
      unfold Takes
      rw [blind, List.append_assoc]
      exact round head followed
    exact (takes_many_iff consuming).2 (Or.inl ⟨x, _, xs, first, ih, rfl⟩)

theorem Recovers.padded (recovers : ∀ ⦃s x rest⦄, Flush s → reader.Takes s x rest →
      ∃ front, Of x front ∧ s = front ++ rest) :
    Recovers (padded reader) (Spaced Of) := by
  intro s x rest taken
  obtain ⟨a, inner, b, blankA, flush, blankB, -, rfl, inside⟩ := takes_padded.1 taken
  obtain ⟨front, layout, rfl⟩ := recovers flush inside
  exact ⟨a ++ front ++ b, .mk blankA layout blankB, by simp⟩

theorem takes_padded_of_spaced (complete : ∀ {x front rest}, Of x front →
      reader.Takes (front ++ rest) x rest)
    (ink : ∀ {x front rest}, Of x front → Flush (front ++ rest))
    {x : α} {front rest : List Char} (spaced : Spaced Of x front) :
    (padded reader).Takes (front ++ rest) x (skipBlank rest) := by
  obtain ⟨blankA, layout, blankB⟩ := spaced
  rename_i before s after
  have taken : (padded reader).Takes (before ++ s ++ after ++ rest) x (skipBlank (after ++ rest)) := by
    refine takes_padded_skip.2 ⟨after ++ rest, ?_, rfl⟩
    rw [List.append_assoc, List.append_assoc, skipBlank_append_flush blankA (ink layout)]
    exact complete layout
  rwa [skipBlank_append blankB] at taken

theorem spaced_ne_nil (nonempty : ∀ {x front}, Of x front → front ≠ []) {x : α}
    {front : List Char} (spaced : Spaced Of x front) : front ≠ [] := by
  obtain ⟨-, layout, -⟩ := spaced
  simp [nonempty layout]

end Rows

theorem functionDecl_ne_nil {decl : FunctionDecl} {front : List Char}
    (layout : OfFunction decl front) : front ≠ [] := by
  cases layout <;> simp

theorem flush_functionDecl {decl : FunctionDecl} {front rest : List Char}
    (layout : OfFunction decl front) : Flush (front ++ rest) := by
  cases layout <;> rfl

theorem recovers_member : Recovers (padded functionDecl) (Spaced OfFunction) :=
  Recovers.padded fun _ _ _ _ taken => takes_functionDecl.1 taken

theorem consuming_member : (padded functionDecl).Consuming :=
  recovers_member.consuming (spaced_ne_nil functionDecl_ne_nil)

/-! ## Items -/

/-- An item without the white space around it. -/
def bareItem : Reader Item :=
  importItem.orElse (pragmaItem.orElse (contractItem.orElse functionItem))

theorem importItem_fails {s : List Char} (flush : Flush s) (apart : ¬ "import".toList <+: s) :
    importItem.Fails s := by
  refine fails_bind.2 (Or.inl ?_)
  rw [fails_padded, flush, fails_literal]
  exact apart

theorem pragmaItem_fails {s : List Char} (apart : ¬ "pragma".toList <+: s) : pragmaItem.Fails s :=
  fails_bind.2 (Or.inl (fails_literal.2 apart))

theorem contractItem_fails {s : List Char} (flush : Flush s) (apart : ¬ "contract".toList <+: s) :
    contractItem.Fails s := by
  refine fails_bind.2 (Or.inl ?_)
  rw [fails_padded, flush, fails_literal]
  exact apart

theorem takes_importItem {s rest : List Char} {x : Item} (flush : Flush s) :
    importItem.Takes s x rest ↔
      ∃ a path, Blank a ∧ '"' ∉ path ∧ x = .importing (String.ofList path) ∧
        s = "import".toList ++ a ++ '"' :: path ++ "\";".toList ++ rest := by
  simp only [importItem, takes_bind, takes_literal, takes_pure, takes_upTo]
  constructor
  · rintro ⟨_, _, keyword, _, _, rfl, path, _, ⟨rfl, inside, -⟩, _, _, rfl, _, _, rfl, rfl, rfl⟩
    obtain ⟨a, blank, -, rfl⟩ := (takes_keyword (by rfl) flush).1 keyword
    exact ⟨a, path, blank, fun member => inside _ member (by simp), rfl, by simp⟩
  · rintro ⟨a, path, blank, unquoted, rfl, rfl⟩
    have keyword := takes_token "import" (by rfl) .nil blank
      (flush_token "\"" (by rfl) (path ++ ("\";".toList ++ rest)))
    have inside : ∀ c ∈ path, c ∉ ['"'] := by
      intro c member quote
      obtain rfl := List.mem_singleton.1 quote
      exact unquoted member
    simp only [List.append_assoc, List.cons_append]
    exact ⟨(), _, keyword, (), _, rfl, path, _, ⟨rfl, inside, by simp⟩, (), _, rfl, (), _, rfl, rfl,
      rfl⟩

theorem takes_pragmaItem {s rest : List Char} {x : Item} :
    pragmaItem.Takes s x rest ↔
      ∃ body, ';' ∉ body ∧ x = .pragma (String.ofList ("pragma".toList ++ body ++ [';'])) ∧
        s = "pragma".toList ++ body ++ [';'] ++ rest := by
  simp only [pragmaItem, takes_bind, takes_literal, takes_pure, takes_upTo]
  have whole (body : List Char) :
      "pragma" ++ String.ofList body ++ ";" = String.ofList ("pragma".toList ++ body ++ [';']) := by
    rw [String.ofList_append, String.ofList_append, String.ofList_toList]
  constructor
  · rintro ⟨_, _, rfl, body, _, ⟨rfl, inside, -⟩, _, _, rfl, rfl, rfl⟩
    exact ⟨body, fun member => inside _ member (by simp), by rw [whole], by simp⟩
  · rintro ⟨body, unclosed, rfl, rfl⟩
    have inside : ∀ c ∈ body, c ∉ [';'] := by
      intro c member closed
      obtain rfl := List.mem_singleton.1 closed
      exact unclosed member
    simp only [List.append_assoc]
    exact ⟨(), _, rfl, body, _, ⟨rfl, inside, by simp⟩, (), _, rfl,
      by rw [whole, List.append_assoc], rfl⟩

/-- The members of a contract and the bracket after them. -/
theorem takes_members {members : List FunctionDecl} {body : List Char}
    (row : Row (Spaced OfFunction) members body) (rest : List Char) :
    (many (padded functionDecl)).Takes (skipBlank (body ++ ("\x7d".toList ++ rest))) members
      ("\x7d".toList ++ rest) := by
  have stop : (padded functionDecl).Fails ("\x7d".toList ++ rest) := by
    rw [fails_padded, flush_token _ (by rfl)]
    refine fails_bind.2 (Or.inl (fails_literal.2 ?_))
    simp
  have taken := takes_many_of_row (fun _ => True) consuming_member
    (padded_skipBlank functionDecl)
    (fun spaced _ => takes_padded_of_spaced (fun layout => takes_functionDecl.2 ⟨_, layout, rfl⟩)
      flush_functionDecl spaced)
    (fun _ => trivial) row trivial stop
  rwa [flush_token _ (by rfl)] at taken

theorem takes_contractItem {s rest : List Char} {x : Item} (flush : Flush s) :
    contractItem.Takes s x rest ↔
      ∃ decl front, OfContract decl front ∧ x = .contract decl ∧ s = front ++ rest := by
  simp only [contractItem, takes_bind, takes_literal, takes_pure]
  constructor
  · rintro ⟨_, _, keyword, name, _, nameTaken, _, _, opening, members, _, membersTaken, _, _, rfl,
      rfl, rfl⟩
    obtain ⟨b, blankB, -, rfl⟩ := (takes_keyword (by rfl) flush).1 keyword
    obtain ⟨rfl, named, -⟩ := takes_name.1 nameTaken
    obtain ⟨c, d, blankC, blankD, -, rfl⟩ := (takes_padded_literal (by rfl)).1 opening
    obtain ⟨body, row, rfl⟩ := row_of_takes_many recovers_member consuming_member membersTaken
    exact ⟨_, _, .mk named blankB blankC blankD row, rfl, by simp⟩
  · rintro ⟨decl, front, layout, rfl, rfl⟩
    obtain ⟨named, blankA, blankB, blankC, row⟩ := layout
    rename_i name a b c body members
    have keyword := takes_token "contract" (by rfl) .nil blankA
      (flush_name named (b ++ ("\x7b".toList ++ (c ++ (body ++ ("\x7d".toList ++ rest))))))
    have nameTaken := takes_name.2 ⟨rfl, named,
      name_stops blankB (c := '\x7b') (by decide) (c ++ (body ++ ("\x7d".toList ++ rest)))⟩
    -- the bracket takes the white space that the members begin with
    obtain ⟨d, blankD, cut⟩ := exists_eq_append_skipBlank (body ++ ("\x7d".toList ++ rest))
    have opening := takes_token "\x7b" (by rfl) blankB (blankC.append blankD)
      (flush_skipBlank (body ++ ("\x7d".toList ++ rest)))
    rw [List.append_assoc c, ← cut] at opening
    simp only [List.append_assoc]
    exact ⟨(), _, keyword, name, _, nameTaken, (), _, opening, members, _, takes_members row rest,
      (), _, rfl, rfl, rfl⟩

theorem takes_functionItem {s rest : List Char} {x : Item} :
    functionItem.Takes s x rest ↔
      ∃ decl front, OfFunction decl front ∧ x = .function decl ∧ s = front ++ rest := by
  simp only [functionItem, takes_bind, takes_pure, takes_functionDecl]
  constructor
  · rintro ⟨decl, _, ⟨front, layout, rfl⟩, rfl, rfl⟩
    exact ⟨decl, front, layout, rfl, rfl⟩
  · rintro ⟨decl, front, layout, rfl, rfl⟩
    exact ⟨decl, rest, ⟨front, layout, rfl⟩, rfl, rfl⟩

theorem flush_item {x : Item} {front rest : List Char} (layout : OfItem x front) :
    Flush (front ++ rest) := by
  cases layout with
  | importing blank unquoted => rfl
  | pragma unclosed => rfl
  | contract layout =>
    obtain ⟨-⟩ := layout
    rfl
  | function layout => exact flush_functionDecl layout

theorem takes_bareItem {s rest : List Char} {x : Item} (flush : Flush s) :
    bareItem.Takes s x rest ↔ ∃ front, OfItem x front ∧ s = front ++ rest := by
  simp only [bareItem, takes_orElse, takes_importItem flush, takes_pragmaItem,
    takes_contractItem flush, takes_functionItem]
  constructor
  · rintro (⟨a, path, blank, unquoted, rfl, rfl⟩ | ⟨-, ⟨body, unclosed, rfl, rfl⟩ | ⟨-,
      ⟨decl, front, layout, rfl, rfl⟩ | ⟨-, decl, front, layout, rfl, rfl⟩⟩⟩)
    · exact ⟨_, .importing blank unquoted, rfl⟩
    · exact ⟨_, .pragma unclosed, rfl⟩
    · exact ⟨_, .contract layout, rfl⟩
    · exact ⟨_, .function layout, rfl⟩
  · rintro ⟨front, layout, rfl⟩
    cases layout with
    | @importing path a blank unquoted => exact Or.inl ⟨a, path, blank, unquoted, rfl, rfl⟩
    | @pragma body unclosed =>
      refine Or.inr ⟨importItem_fails flush (by simp), Or.inl ⟨body, unclosed, rfl, rfl⟩⟩
    | @contract decl front layout =>
      have apart : ¬ "import".toList <+: front ++ rest ∧ ¬ "pragma".toList <+: front ++ rest := by
        cases layout
        simp
      exact Or.inr ⟨importItem_fails flush apart.1, Or.inr ⟨pragmaItem_fails apart.2,
        Or.inl ⟨decl, front, layout, rfl, rfl⟩⟩⟩
    | @function decl front layout =>
      have apart : ¬ "import".toList <+: front ++ rest ∧ ¬ "pragma".toList <+: front ++ rest ∧
          ¬ "contract".toList <+: front ++ rest := by
        cases layout <;> simp
      exact Or.inr ⟨importItem_fails flush apart.1, Or.inr ⟨pragmaItem_fails apart.2.1,
        Or.inr ⟨contractItem_fails flush apart.2.2, decl, front, layout, rfl, rfl⟩⟩⟩

theorem recovers_item : Recovers item (Spaced OfItem) :=
  Recovers.padded fun _ _ _ flush taken => (takes_bareItem flush).1 taken

theorem item_ne_nil {x : Item} {front : List Char} (layout : OfItem x front) : front ≠ [] := by
  cases layout with
  | importing blank unquoted => simp
  | pragma unclosed => simp
  | contract layout =>
    obtain ⟨-⟩ := layout
    simp
  | function layout => exact functionDecl_ne_nil layout

theorem consuming_item : item.Consuming :=
  recovers_item.consuming (spaced_ne_nil item_ne_nil)

theorem fails_item {s : List Char} : item.Fails s ↔ bareItem.Fails (skipBlank s) :=
  fails_padded

/-- A row of items, up to a place where no item begins. -/
theorem takes_items {items : List Item} {body rest : List Char}
    (row : Row (Spaced OfItem) items body) (stop : item.Fails rest) :
    (many item).Takes (skipBlank (body ++ rest)) items (skipBlank rest) :=
  takes_many_of_row (fun _ => True) consuming_item (padded_skipBlank bareItem)
    (fun spaced _ => takes_padded_of_spaced
      (fun layout => (takes_bareItem (flush_item layout)).2 ⟨_, layout, rfl⟩) flush_item spaced)
    (fun _ => trivial) row trivial stop

/-! ## Units -/

theorem takes_header {s rest : List Char} {path : String} (flush : Flush s) :
    header.Takes s path rest ↔
      ∃ a cs, Blank a ∧ Path cs ∧ path = String.ofList cs ∧
        s = "==== Source:".toList ++ a ++ cs ++ " ====".toList ++ rest := by
  simp only [header, takes_bind, takes_literal, takes_pure, takes_upTo]
  constructor
  · rintro ⟨_, _, marker, cs, _, ⟨rfl, inside, stop⟩, _, _, rfl, rfl, rfl⟩
    obtain ⟨b, blankB, flushed, rfl⟩ := (takes_keyword (by rfl) flush).1 marker
    refine ⟨b, cs, blankB, ?_, rfl, by simp⟩
    cases cs with
    | nil =>
      -- the space before the closing mark would have been skipped
      cases flushed
    | cons c cs =>
      have parts : ∀ d ∈ c :: cs, d ≠ ' ' ∧ d ≠ '\n' := by
        intro d member
        simpa using inside d member
      exact .mk (ink_of_flush_cons flushed) parts
  · rintro ⟨a, cs, blank, named, rfl, rfl⟩
    obtain ⟨ink, parts⟩ := named
    rename_i c cs
    have marker := takes_token "==== Source:" (by rfl) .nil blank
      (flush_cons ink (cs ++ (" ====".toList ++ rest)))
    have inside : ∀ d ∈ c :: cs, d ∉ [' ', '\n'] := by
      intro d member
      simpa using parts d member
    simp only [List.append_assoc]
    exact ⟨(), _, marker, c :: cs, _, ⟨rfl, inside, by simp⟩, (), _, rfl, rfl, rfl⟩

theorem recovers_sourceUnit : Recovers sourceUnit OfUnit := by
  intro s unit rest taken
  simp only [sourceUnit, takes_bind, takes_pure] at taken
  obtain ⟨path, _, headed, items, _, listed, rfl, rfl⟩ := taken
  obtain ⟨a, inner, c, blankA, flush, blankC, -, rfl, introduced⟩ := takes_padded.1 headed
  obtain ⟨b, cs, blankB, named, rfl, rfl⟩ := (takes_header flush).1 introduced
  obtain ⟨body, row, rfl⟩ := row_of_takes_many recovers_item consuming_item listed
  exact ⟨_, .mk named blankA blankB blankC row, by simp⟩

theorem sourceUnit_ne_nil {unit : SourceUnit} {front : List Char} (layout : OfUnit unit front) :
    front ≠ [] := by
  obtain ⟨-⟩ := layout
  simp

theorem consuming_sourceUnit : sourceUnit.Consuming :=
  recovers_sourceUnit.consuming sourceUnit_ne_nil

theorem sourceUnit_skipBlank (s : List Char) : sourceUnit (skipBlank s) = sourceUnit s := by
  change Reader.bind (padded header) _ (skipBlank s) = Reader.bind (padded header) _ s
  unfold Reader.bind
  rw [padded_skipBlank]

/-- The items of a unit end where the next unit is introduced. -/
theorem item_fails_of_unit {unit : SourceUnit} {front rest : List Char}
    (layout : OfUnit unit front) : item.Fails (front ++ rest) := by
  obtain ⟨-, blank, -, -, -⟩ := layout
  simp only [List.append_assoc]
  rw [fails_item, skipBlank_append_flush blank (flush_token _ (by rfl) _)]
  rfl

/-- The items of the last unit end with the text. -/
theorem item_fails_of_blank {s : List Char} (blank : Blank s) : item.Fails s := by
  rw [fails_item, skipBlank_eq_nil blank]
  rfl

theorem sourceUnit_fails_of_blank {s : List Char} (blank : Blank s) : sourceUnit.Fails s := by
  refine fails_bind.2 (Or.inl ?_)
  rw [fails_padded, skipBlank_eq_nil blank]
  rfl

theorem takes_sourceUnit {unit : SourceUnit} {front rest : List Char}
    (layout : OfUnit unit front) (stop : item.Fails rest) :
    sourceUnit.Takes (front ++ rest) unit (skipBlank rest) := by
  obtain ⟨named, blankA, blankB, blankC, row⟩ := layout
  rename_i path a b c body items
  have headed : (padded header).Takes
      (a ++ ("==== Source:".toList ++ (b ++ (path ++ (" ====".toList ++ (c ++ (body ++ rest)))))))
      (String.ofList path) (skipBlank (body ++ rest)) := by
    refine takes_padded_skip.2 ⟨c ++ (body ++ rest), ?_, (skipBlank_append blankC _).symm⟩
    rw [skipBlank_append_flush blankA (flush_token _ (by rfl) _)]
    exact (takes_header (flush_token _ (by rfl) _)).2 ⟨b, path, blankB, named, rfl, by simp⟩
  simp only [sourceUnit, takes_bind, takes_pure, List.append_assoc]
  exact ⟨_, _, headed, items, _, takes_items row stop, rfl, rfl⟩

/-! ## Programs -/

theorem takes_program {s rest : List Char} {p : Program} :
    program.Takes s p rest ↔ rest = [] ∧ OfProgram p s := by
  simp only [program, takes_bind, takes_pure, takes_endOfText]
  constructor
  · rintro ⟨units, _, taken, _, _, ⟨rfl, rfl⟩, rfl, rfl⟩
    obtain ⟨a, inner, b, blankA, -, blankB, -, rfl, listed⟩ := takes_padded.1 taken
    obtain ⟨body, row, rfl⟩ := row_of_takes_many recovers_sourceUnit consuming_sourceUnit listed
    refine ⟨rfl, ?_⟩
    rw [List.append_nil, ← List.append_assoc]
    exact .mk blankA blankB row
  · rintro ⟨rfl, layout⟩
    obtain ⟨blankA, blankB, row⟩ := layout
    rename_i a b body units
    have listed : (many sourceUnit).Takes (skipBlank (body ++ b)) units (skipBlank b) :=
      takes_many_of_row item.Fails consuming_sourceUnit sourceUnit_skipBlank takes_sourceUnit
        item_fails_of_unit row (item_fails_of_blank blankB) (sourceUnit_fails_of_blank blankB)
    have taken : (padded (many sourceUnit)).Takes (a ++ body ++ b) units [] := by
      refine takes_padded_skip.2 ⟨skipBlank b, ?_, ?_⟩
      · rwa [List.append_assoc, skipBlank_append blankA]
      · rw [skipBlank_eq_nil blankB]
        rfl
    exact ⟨units, [], taken, (), [], ⟨rfl, rfl⟩, rfl, rfl⟩

theorem Text.Reader.read_eq_ok_iff {α : Type} {reader : Reader α} {s : List Char} {x : α} :
    reader.read s = .ok x ↔ ∃ rest, reader.Takes s x rest := by
  unfold Reader.read Takes
  rcases reader s with ⟨_ | ⟨y, rest⟩, misses⟩ <;> simp [eq_comm]

theorem read_of_layout {p : Program} {text : String} (layout : OfProgram p text.toList) :
    Program.read text = .ok p :=
  read_eq_ok_iff.2 ⟨[], takes_program.2 ⟨rfl, layout⟩⟩

/-- **Reading accepts exactly the layouts of programs**, and gives back the
program that was laid out. -/
theorem read_eq_ok_iff_ofProgram (text : String) (p : Program) :
    Program.read text = .ok p ↔ OfProgram p text.toList := by
  constructor
  · intro read
    obtain ⟨rest, taken⟩ := read_eq_ok_iff.1 read
    exact (takes_program.1 taken).2
  · exact read_of_layout

end SeedGrammar
