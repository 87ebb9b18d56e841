/-
# SeedGrammar.Proofs.Text.Encoding — lines of bytes, and what they say

A text that is not empty begins with a line, and the cut into lines goes on behind it
(`FirstLine.splitLines`). In UTF-8 a newline is one byte, which stands in the encoding of no
other character (`newline_mem_utf8EncodeChar`). So bytes can be cut before they are decoded:
the lines of a text in bytes are the lines of its encoding (`splitLines_encode`), and a
readable input has readable lines.
-/
import Mathlib.Data.List.Basic
import SeedGrammar.Text.Lines

namespace SeedGrammar.Text

set_option autoImplicit false

/-! ## First lines -/

section FirstLines

variable {α : Type} [DecidableEq α] {newline : α} {line input rest : List α}

/-- An input that begins with a line, and the rest of it, behind the newline. A last line
may lack its newline, unless it is empty. -/
inductive FirstLine (newline : α) (line : List α) : List α → List α → Prop where
  | ended (inside : newline ∉ line) (rest : List α) :
      FirstLine newline line (line ++ newline :: rest) rest
  | last (inside : newline ∉ line) (nonempty : line ≠ []) : FirstLine newline line line []

theorem splitLines_word_append (nonempty : line ≠ []) (inside : newline ∉ line) (rest : List α) :
    splitLines newline (line ++ rest) =
      match splitLines newline rest with
      | [] => [line]
      | next :: lines => (line ++ next) :: lines := by
  induction line with
  | nil => exact absurd rfl nonempty
  | cons c cs ih =>
    obtain ⟨other, inside⟩ := not_or.1 (mt List.mem_cons.2 inside)
    rw [List.cons_append, splitLines, if_neg (Ne.symm other)]
    by_cases single : cs = []
    · subst single
      rw [List.nil_append]
      cases splitLines newline rest <;> rfl
    · rw [ih single inside]
      cases splitLines newline rest <;> rfl

theorem FirstLine.splitLines (first : FirstLine newline line input rest) :
    splitLines newline input = line :: splitLines newline rest := by
  cases first with
  | ended inside =>
    by_cases empty : line = []
    · subst empty
      simp [Text.splitLines]
    · simp [splitLines_word_append empty inside, Text.splitLines]
  | last inside nonempty =>
    simpa [Text.splitLines] using splitLines_word_append nonempty inside []

/-- Lines that are all ended are found again. -/
theorem splitLines_flatMap {lines : List (List α)} (inside : ∀ line ∈ lines, newline ∉ line) :
    Text.splitLines newline (lines.flatMap (· ++ [newline])) = lines := by
  induction lines with
  | nil => rfl
  | cons line lines ih =>
    obtain ⟨here, later⟩ := List.forall_mem_cons.1 inside
    have first := FirstLine.ended here (lines.flatMap (· ++ [newline]))
    rw [List.flatMap_cons, List.append_assoc, List.singleton_append, first.splitLines, ih later]

theorem exists_firstLine (newline : α) (nonempty : input ≠ []) :
    ∃ line rest, FirstLine newline line input rest ∧ rest.length < input.length := by
  by_cases member : newline ∈ input
  · obtain ⟨line, rest, rfl, inside⟩ := List.eq_append_cons_of_mem member
    exact ⟨line, rest, .ended inside rest, by simp; omega⟩
  · exact ⟨input, [], .last member nonempty, List.length_pos_of_ne_nil nonempty⟩

/-- Behind whole lines a first line is the first of what is left. -/
theorem splitLines_append_of_ended {front : List α}
    (ended : front = [] ∨ front.getLast? = some newline) (rest : List α) :
    splitLines newline (front ++ rest) = splitLines newline front ++ splitLines newline rest := by
  rcases ended with rfl | last
  · rfl
  · obtain ⟨lines, rfl⟩ := List.getLast?_eq_some_iff.1 last
    rw [List.append_assoc]
    exact splitLines_append newline lines rest

end FirstLines

/-! ## UTF-8 -/

/-- The bytes are a text in UTF-8. -/
def Readable (bytes : List UInt8) : Prop :=
  (ByteArray.mk bytes.toArray).IsValidUTF8

instance (bytes : List UInt8) : Decidable (Readable bytes) :=
  inferInstanceAs (Decidable (ByteArray.mk bytes.toArray).IsValidUTF8)

/-- The bytes of a text in UTF-8. -/
def encode (cs : List Char) : List UInt8 :=
  cs.flatMap String.utf8EncodeChar

theorem utf8Encode_eq_encode (cs : List Char) : cs.utf8Encode = ⟨(encode cs).toArray⟩ := by
  rw [List.utf8Encode, encode]
  exact ByteArray.ext List.data_toByteArray

theorem readable_encode (cs : List Char) : Readable (encode cs) :=
  ⟨cs, (utf8Encode_eq_encode cs).symm⟩

theorem Readable.exists_encode {bytes : List UInt8} (readable : Readable bytes) :
    ∃ cs, encode cs = bytes := by
  obtain ⟨cs, same⟩ := readable
  rw [utf8Encode_eq_encode, ByteArray.mk.injEq] at same
  exact ⟨cs, (List.toArray_inj same).symm⟩

theorem fromUTF8?_encode (cs : List Char) :
    String.fromUTF8? ⟨(encode cs).toArray⟩ = some (String.ofList cs) := by
  refine (dif_pos (readable_encode cs)).trans (congrArg some ?_)
  rw [← String.toByteArray_inj, String.toByteArray_ofList, utf8Encode_eq_encode]
  rfl

theorem fromUTF8?_of_not_readable {bytes : List UInt8} (unreadable : ¬ Readable bytes) :
    String.fromUTF8? ⟨bytes.toArray⟩ = none :=
  dif_neg unreadable

/-- The byte 10 is a newline and nothing else: all bytes of longer encodings are large. -/
theorem newline_mem_utf8EncodeChar {c : Char} : 10 ∈ String.utf8EncodeChar c ↔ c = '\n' := by
  have single : c = '\n' ↔ c.val.toNat = 10 := by
    rw [← Char.val_inj, ← UInt32.toNat_inj]
    rfl
  rw [single, String.utf8EncodeChar.eq_def]
  dsimp only
  generalize c.val.toNat = v
  split_ifs
  all_goals
    simp only [List.mem_cons, List.not_mem_nil, or_false, ← UInt8.toNat_inj, UInt8.toNat_ofNat',
      UInt8.reduceToNat]
    omega

/-- It does not matter whether bytes are cut into lines or the text that they encode. -/
theorem splitLines_encode (cs : List Char) :
    splitLines 10 (encode cs) = (splitLines '\n' cs).map encode := by
  induction cs with
  | nil => rfl
  | cons c cs ih =>
    have one : encode (c :: cs) = String.utf8EncodeChar c ++ encode cs := rfl
    by_cases ends : c = '\n'
    · subst ends
      rw [one, splitLines, if_pos rfl, List.map_cons, ← ih]
      rfl
    · have inside : 10 ∉ String.utf8EncodeChar c := mt newline_mem_utf8EncodeChar.1 ends
      rw [one, splitLines_word_append String.utf8EncodeChar_ne_nil inside, ih, splitLines,
        if_neg ends]
      cases splitLines '\n' cs with
      | nil => simp [encode]
      | cons line lines => rfl

theorem readable_of_mem_splitLines {bytes line : List UInt8} (readable : Readable bytes)
    (member : line ∈ splitLines 10 bytes) : Readable line := by
  obtain ⟨cs, rfl⟩ := readable.exists_encode
  rw [splitLines_encode] at member
  obtain ⟨text, -, rfl⟩ := List.mem_map.1 member
  exact readable_encode text

end SeedGrammar.Text
