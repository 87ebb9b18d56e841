/-
# SeedGrammar.Text.Blank — white space

The characters with the Unicode property White_Space (`White`). Readers skip them
between tokens, and a line of input is trimmed of them at both ends. They go by
ranges instead of single characters (`isBlank`).
-/
namespace SeedGrammar.Text

set_option autoImplicit false

/-- One of the characters with the property. -/
def White (c : Char) : Prop :=
  c.toNat ∈ [0x09, 0x0A, 0x0B, 0x0C, 0x0D, 0x20, 0x85, 0xA0, 0x1680, 0x2000, 0x2001, 0x2002,
    0x2003, 0x2004, 0x2005, 0x2006, 0x2007, 0x2008, 0x2009, 0x200A, 0x2028, 0x2029, 0x202F,
    0x205F, 0x3000]

instance (c : Char) : Decidable (White c) :=
  inferInstanceAs (Decidable (c.toNat ∈ _))

def isBlank (c : Char) : Bool :=
  let n := c.toNat
  (0x09 ≤ n && n ≤ 0x0D) || n == 0x20 || n == 0x85 || n == 0xA0 || n == 0x1680 ||
    (0x2000 ≤ n && n ≤ 0x200A) || n == 0x2028 || n == 0x2029 || n == 0x202F || n == 0x205F ||
    n == 0x3000

theorem isBlank_iff {c : Char} : isBlank c ↔ White c := by
  simp only [isBlank, White, Bool.or_eq_true, Bool.and_eq_true, decide_eq_true_eq, beq_iff_eq,
    List.mem_cons, List.not_mem_nil, or_false]
  omega

def skipBlank (cs : List Char) : List Char :=
  cs.dropWhile isBlank

/-- Without the white space at both ends. -/
def trim (cs : List Char) : List Char :=
  (skipBlank (skipBlank cs).reverse).reverse

end SeedGrammar.Text
