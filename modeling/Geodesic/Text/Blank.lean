/-!
# Blank characters and fields

Blanks are the characters with the Unicode property `White_Space`. Fields are the longest pieces of
a text without blanks.
-/

namespace Geodesic.Text

/-- The code points of the property `White_Space`, as inclusive ranges. -/
def blankRanges : List (Nat × Nat) :=
  [(0x09, 0x0D), (0x20, 0x20), (0x85, 0x85), (0xA0, 0xA0), (0x1680, 0x1680), (0x2000, 0x200A),
    (0x2028, 0x2029), (0x202F, 0x202F), (0x205F, 0x205F), (0x3000, 0x3000)]

def isBlank (c : Char) : Bool :=
  blankRanges.any fun r => r.1 ≤ c.toNat && c.toNat ≤ r.2

def trim (cs : List Char) : List Char :=
  ((cs.dropWhile isBlank).reverse.dropWhile isBlank).reverse

/-- The fields of a text, after the characters `acc` of a field that has begun, latest first. -/
def fieldsFrom (acc : List Char) : List Char → List (List Char)
  | [] => if acc.isEmpty then [] else [acc.reverse]
  | c :: rest =>
      if !isBlank c then fieldsFrom (c :: acc) rest
      else if acc.isEmpty then fieldsFrom [] rest
      else acc.reverse :: fieldsFrom [] rest

def fields (cs : List Char) : List (List Char) :=
  fieldsFrom [] cs

theorem forall_mem_fieldsFrom {acc : List Char} (hacc : ∀ c ∈ acc, isBlank c = false)
    (cs : List Char) :
    ∀ f ∈ fieldsFrom acc cs, f ≠ [] ∧ ∀ c ∈ f, isBlank c = false ∧ (c ∈ acc ∨ c ∈ cs) := by
  induction cs generalizing acc with
  | nil => cases acc <;> grind [fieldsFrom]
  | cons c rest ih =>
      have hnil := @ih [] (by simp)
      unfold fieldsFrom
      split
      next hc =>
          intro f hf
          have := @ih (c :: acc) (by simp_all) f hf
          grind
      next hc =>
          split
          · intro f hf
            have := hnil f hf
            grind
          · intro f hf
            rcases List.mem_cons.1 hf with rfl | hf
            · simp_all
            · have := hnil f hf
              grind

/-- A field is not empty, holds no blank, and consists of characters of the text. -/
theorem forall_mem_fields {cs f : List Char} (hf : f ∈ fields cs) :
    f ≠ [] ∧ ∀ c ∈ f, isBlank c = false ∧ c ∈ cs := by
  simpa using forall_mem_fieldsFrom (by simp) cs f hf

end Geodesic.Text
