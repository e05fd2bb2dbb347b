import Geodesic.Distance

/-!
# Laws of path lengths

What a search by total weight relies on. Machine addition rounds, so it is neither associative nor
cancellative; what is left is that the two tests compare like a total preorder, and that adding a
weight is monotone and never makes a path shorter. Nothing is asked of inadmissible values.
-/

namespace Geodesic.Distance

variable {D : Type} [Distance D]

/-- `a` is no longer than `b`. -/
def AtMost (a b : D) : Prop :=
  shorter b a = false

/-- `d` is the length of some path, not the mark for "not reached". -/
def Reached (d : D) : Prop :=
  same d unreached = false

def Admissible (w : D) : Prop :=
  admissible w = true

class Lawful (D : Type) [Distance D] : Prop where
  zero_admissible : Admissible (zero : D)
  unreached_admissible : Admissible (unreached : D)
  add_admissible : ∀ {a b : D}, Admissible a → Admissible b → Admissible (add a b)
  total : ∀ {a b : D}, Admissible a → Admissible b → AtMost a b ∨ AtMost b a
  trans : ∀ {a b c : D}, Admissible a → Admissible b → Admissible c →
    AtMost a b → AtMost b c → AtMost a c
  same_iff : ∀ {a b : D}, Admissible a → Admissible b →
    (same a b = true ↔ AtMost a b ∧ AtMost b a)
  atMost_unreached : ∀ {a : D}, Admissible a → AtMost a unreached
  zero_reached : Reached (zero : D)
  add_mono : ∀ {a b c : D}, Admissible a → Admissible b → Admissible c →
    AtMost a b → AtMost (add a c) (add b c)
  atMost_add : ∀ {a b : D}, Admissible a → Admissible b → AtMost a (add a b)

theorem atMost_of_shorter [Lawful D] {a b : D} (ha : Admissible a) (hb : Admissible b)
    (h : shorter a b = true) : AtMost a b := by
  rcases Lawful.total ha hb with hab | hba
  · exact hab
  · rw [AtMost, h] at hba
    cases hba

theorem AtMost.refl [Lawful D] {a : D} (ha : Admissible a) : AtMost a a := by
  rcases Lawful.total ha ha with h | h <;> exact h

theorem same_self [Lawful D] {a : D} (ha : Admissible a) : same a a = true :=
  (Lawful.same_iff ha ha).mpr ⟨AtMost.refl ha, AtMost.refl ha⟩

theorem not_reached_unreached [Lawful D] : ¬ Reached (unreached : D) := by
  rw [Reached, same_self Lawful.unreached_admissible]
  simp

/-- Nothing shorter than an attained length is the mark. -/
theorem Reached.mono [Lawful D] {a b : D} (ha : Admissible a) (hb : Admissible b)
    (hab : AtMost a b) (hr : Reached b) : Reached a := by
  cases hs : same a (unreached : D) with
  | false => exact hs
  | true =>
      have hua := ((Lawful.same_iff ha Lawful.unreached_admissible).mp hs).2
      have hub := Lawful.trans Lawful.unreached_admissible ha hb hua hab
      have : same b (unreached : D) = true :=
        (Lawful.same_iff hb Lawful.unreached_admissible).mpr ⟨Lawful.atMost_unreached hb, hub⟩
      rw [Reached, this] at hr
      cases hr

/-! ## Values of one length -/

/-- What is no longer than another value is no longer than any value of that length. -/
theorem AtMost.congr [Lawful D] {a a' b b' : D} (ha : Admissible a) (ha' : Admissible a')
    (hb : Admissible b) (hb' : Admissible b') (haa : same a a' = true) (hbb : same b b' = true)
    (h : AtMost a b) : AtMost a' b' := by
  have hback := ((Lawful.same_iff ha ha').mp haa).2
  have hforth := ((Lawful.same_iff hb hb').mp hbb).1
  exact Lawful.trans ha' ha hb' hback (Lawful.trans ha hb hb' h hforth)

end Geodesic.Distance
