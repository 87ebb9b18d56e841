/-
# SeedGrammar.Proofs.Text.Frontier — what is kept of the misses of a reading

Misses are met in the order of a reading, which goes back and forth in the text. A
frontier keeps the ones furthest into it (`collects_ofMisses`): none lies beyond it,
whatever it wants was wanted there, and nothing wanted there is lost. Only a miss
at the end of the text may push out others at the same place, as a text cut short in
an identifier does.
-/
import SeedGrammar.Text.Diagnostic
import Mathlib.Data.List.Induction
import Mathlib.Data.List.Infix

namespace SeedGrammar.Text

set_option autoImplicit false

namespace Miss

/-- What is left of the text where the miss is. -/
def rest : Miss → List Char
  | mismatch rest _ => rest
  | cutShort => []

def wanted : Miss → Expectation
  | mismatch _ wanted => wanted
  | cutShort => .any

end Miss

namespace Frontier

/-- The frontier is the furthest place of any miss in a text, and wants what was
wanted there. -/
structure Collects (text : List Char) (misses : List Miss) (f : Frontier) : Prop where
  place : f.rest <:+ text
  furthest : ∀ m ∈ misses, f.rest.length ≤ m.rest.length
  source : ∀ e ∈ f.wanted, ∃ m ∈ misses, m.rest = f.rest ∧ m.wanted = e
  kept : f.rest ≠ [] → ∀ m ∈ misses, m.rest = f.rest → m.wanted ∈ f.wanted
  blank : f.wanted = [] → misses = [] ∧ f.rest = text

theorem collects_nil (text : List Char) : Collects text [] ⟨text, []⟩ where
  place := List.suffix_refl text
  furthest := by simp
  source := by simp
  kept := by simp
  blank := fun _ => ⟨rfl, rfl⟩

variable {text rest : List Char} {misses : List Miss} {f : Frontier} {wanted : Expectation}

/-- A text cut short leaves nothing but that. -/
theorem collects_cutShort (text : List Char) (misses : List Miss) :
    Collects text (misses ++ [.cutShort]) ⟨[], [.any]⟩ where
  place := List.nil_suffix
  furthest := by simp
  source := by
    intro e found
    obtain rfl := List.mem_singleton.1 found
    exact ⟨.cutShort, by simp, rfl, rfl⟩
  kept := fun inside => absurd rfl inside
  blank := by simp

/-- A miss further on replaces all that was collected. -/
theorem Collects.replace (collects : Collects text misses f) (place : rest <:+ text)
    (further : rest.length < f.rest.length) :
    Collects text (misses ++ [.mismatch rest wanted]) ⟨rest, [wanted]⟩ where
  place := place
  furthest := by
    intro m member
    rcases List.mem_append.1 member with earlier | new
    · exact Nat.le_of_lt (Nat.lt_of_lt_of_le further (collects.furthest m earlier))
    · obtain rfl := List.mem_singleton.1 new
      exact Nat.le_refl _
  source := by
    intro e found
    obtain rfl := List.mem_singleton.1 found
    exact ⟨_, List.mem_append_right _ (List.mem_singleton_self _), rfl, rfl⟩
  kept := by
    intro _ m member here
    rcases List.mem_append.1 member with earlier | new
    · have beyond := collects.furthest m earlier
      rw [here] at beyond
      exact absurd further (Nat.not_lt.2 beyond)
    · obtain rfl := List.mem_singleton.1 new
      exact List.mem_singleton_self _
  blank := by simp

/-- A miss at the frontier joins what was collected. -/
theorem Collects.join (collects : Collects text misses f) (place : rest <:+ text)
    (level : rest.length = f.rest.length) :
    Collects text (misses ++ [.mismatch rest wanted]) ⟨f.rest, f.wanted ++ [wanted]⟩ := by
  have here : rest = f.rest :=
    (List.suffix_of_suffix_length_le place collects.place (Nat.le_of_eq level)).eq_of_length level
  subst here
  constructor
  case place => exact place
  case furthest =>
    intro m member
    rcases List.mem_append.1 member with earlier | new
    · exact collects.furthest m earlier
    · obtain rfl := List.mem_singleton.1 new
      exact Nat.le_refl _
  case source =>
    intro e found
    rcases List.mem_append.1 found with known | new
    · obtain ⟨m, member, place, wants⟩ := collects.source e known
      exact ⟨m, List.mem_append_left _ member, place, wants⟩
    · obtain rfl := List.mem_singleton.1 new
      exact ⟨_, List.mem_append_right _ (List.mem_singleton_self _), rfl, rfl⟩
  case kept =>
    intro inside m member here
    rcases List.mem_append.1 member with earlier | new
    · exact List.mem_append_left _ (collects.kept inside m earlier here)
    · obtain rfl := List.mem_singleton.1 new
      exact List.mem_append_right _ (List.mem_singleton_self _)
  case blank => simp

/-- A miss before the frontier is dropped. -/
theorem Collects.drop (collects : Collects text misses f) (place : rest <:+ text)
    (behind : f.rest.length < rest.length) :
    Collects text (misses ++ [.mismatch rest wanted]) f where
  place := collects.place
  furthest := by
    intro m member
    rcases List.mem_append.1 member with earlier | new
    · exact collects.furthest m earlier
    · obtain rfl := List.mem_singleton.1 new
      exact Nat.le_of_lt behind
  source := by
    intro e found
    obtain ⟨m, member, place, wants⟩ := collects.source e found
    exact ⟨m, List.mem_append_left _ member, place, wants⟩
  kept := by
    intro inside m member here
    rcases List.mem_append.1 member with earlier | new
    · exact collects.kept inside m earlier here
    · obtain rfl := List.mem_singleton.1 new
      have level : rest.length = f.rest.length := congrArg List.length here
      omega
  blank := by
    intro nothing
    have whole := (collects.blank nothing).2
    have shorter := place.length_le
    rw [whole] at behind
    omega

theorem Collects.note (collects : Collects text misses f) {m : Miss} (place : m.rest <:+ text) :
    Collects text (misses ++ [m]) (f.note m) := by
  cases m with
  | cutShort => exact collects_cutShort text misses
  | mismatch rest wanted =>
    rw [Frontier.note]
    split
    case isTrue further => exact collects.replace place further
    case isFalse notFurther =>
      split
      case isTrue level => exact collects.join place level
      case isFalse apart => exact collects.drop place (by omega)

theorem collects_ofMisses (places : ∀ m ∈ misses, m.rest <:+ text) :
    Collects text misses (ofMisses text misses) := by
  induction misses using List.reverseRecOn with
  | nil => exact collects_nil text
  | append_singleton misses m ih =>
    have before := ih fun m' member => places m' (List.mem_append_left _ member)
    unfold ofMisses at before ⊢
    rw [List.foldl_concat]
    exact before.note (places m (by simp))

end Frontier

/-! ## Places in bytes -/

theorem utf8Length_append (s t : List Char) : utf8Length (s ++ t) = utf8Length s + utf8Length t := by
  induction s with
  | nil => simp [utf8Length]
  | cons c s ih => simp [utf8Length, ih, Nat.add_assoc]

theorem utf8Length_eq_utf8ByteSize (s : List Char) :
    utf8Length s = (String.ofList s).utf8ByteSize := by
  induction s with
  | nil => rfl
  | cons c s ih => simp [utf8Length, ih, String.ofList_cons]

end SeedGrammar.Text
