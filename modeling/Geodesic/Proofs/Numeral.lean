import Geodesic.Decimal.Numeral
import Mathlib.Data.List.TakeDrop
import Mathlib.Data.List.TakeWhile

/-!
# The grammar of numerals

Which texts are numerals, and what they denote. Reading a text gives its numeral if it has one, so no
text has two.
-/

namespace Geodesic.Decimal

variable {cs ds fs x : List Char} {negative : Bool} {n : Nat} {e : Int}

/-- A row of digits, which may be empty. -/
def Digits (cs : List Char) : Prop :=
  ∀ c ∈ cs, c.isDigit = true

/-- A sign, or none; `true` stands for minus. -/
inductive Sign : List Char → Bool → Prop
  | none : Sign [] false
  | plus : Sign ['+'] false
  | minus : Sign ['-'] true

inductive Exponent : List Char → Int → Prop
  | none : Exponent [] 0
  | some {c : Char} {sign ds : List Char} {negative : Bool} : c = 'e' ∨ c = 'E' →
      Sign sign negative → Digits ds → ds ≠ [] →
      Exponent (c :: (sign ++ ds)) (if negative then -(ofDigits ds : Int) else ofDigits ds)

/-- A digit at least, a point at most, and perhaps an exponent: `n · 10 ^ e`. -/
inductive Magnitude : List Char → Nat → Int → Prop
  | whole {ds x : List Char} {e : Int} : Digits ds → ds ≠ [] → Exponent x e →
      Magnitude (ds ++ x) (ofDigits ds) e
  | pointed {ds fs x : List Char} {e : Int} : Digits ds → Digits fs → ds ≠ [] ∨ fs ≠ [] →
      Exponent x e →
      Magnitude (ds ++ '.' :: (fs ++ x)) (ofDigits (ds ++ fs)) (e - fs.length)

/-- The text is a numeral. -/
inductive Denotes : List Char → Numeral → Prop
  | finite {sign m : List Char} {negative : Bool} {n : Nat} {e : Int} : Sign sign negative →
      Magnitude m n e → Denotes (sign ++ m) (.finite negative n e)
  | infinite {sign w : List Char} {negative : Bool} : Sign sign negative →
      w.map Char.toLower = "inf".toList ∨ w.map Char.toLower = "infinity".toList →
      Denotes (sign ++ w) (.infinite negative)
  | nan {sign w : List Char} {negative : Bool} : Sign sign negative →
      w.map Char.toLower = "nan".toList → Denotes (sign ++ w) .nan

/-! ## Rows of digits -/

theorem digits_takeWhile (cs : List Char) : Digits (cs.takeWhile Char.isDigit) :=
  fun _ hc => List.mem_takeWhile_imp hc

theorem span_digits (hds : Digits ds) (hx : ∀ c ∈ x.head?, c.isDigit = false) :
    (ds ++ x).span Char.isDigit = (ds, x) := by
  have hnone : x.takeWhile Char.isDigit = [] ∧ x.dropWhile Char.isDigit = x := by
    cases x with
    | nil => exact ⟨rfl, rfl⟩
    | cons c rest =>
        have hc := hx c rfl
        simp [hc]
  rw [List.span_eq_takeWhile_dropWhile, List.takeWhile_append_of_pos hds,
    List.dropWhile_append_of_pos hds, hnone.1, hnone.2, List.append_nil]

theorem digits?_eq_some_iff : digits? ds = some n ↔ Digits ds ∧ ds ≠ [] ∧ ofDigits ds = n := by
  unfold digits?
  rw [Option.ite_none_right_eq_some]
  simp only [Bool.and_eq_true, Bool.not_eq_true', List.isEmpty_eq_false_iff, List.all_eq_true,
    Option.some.injEq, Digits]
  tauto

/-! ## Signs and exponents -/

/-- No digit and no letter is taken for a sign. -/
theorem splitSign_append {sign : List Char} (hsign : Sign sign negative)
    (hcs : ∀ c ∈ cs.head?, c ≠ '+' ∧ c ≠ '-') : splitSign (sign ++ cs) = (negative, cs) := by
  cases hsign with
  | plus => rfl
  | minus => rfl
  | none =>
      rw [List.nil_append]
      unfold splitSign
      split
      · exact absurd rfl (hcs '-' rfl).2
      · exact absurd rfl (hcs '+' rfl).1
      · rfl

theorem exists_sign (cs : List Char) : ∃ sign negative rest,
    splitSign cs = (negative, rest) ∧ Sign sign negative ∧ cs = sign ++ rest := by
  unfold splitSign
  split
  · exact ⟨_, _, _, rfl, .minus, rfl⟩
  · exact ⟨_, _, _, rfl, .plus, rfl⟩
  · exact ⟨_, _, _, rfl, .none, rfl⟩

theorem head?_of_digits (hds : Digits ds) (hne : ds ≠ []) (x : List Char) :
    ∀ c ∈ (ds ++ x).head?, c.isDigit = true := by
  obtain ⟨c, rest, rfl⟩ := List.exists_cons_of_ne_nil hne
  intro c' hc'
  obtain rfl : c = c' := by simpa using hc'
  exact hds c (by simp)

theorem ne_sign_of_isDigit {c : Char} (hc : c.isDigit = true) : c ≠ '+' ∧ c ≠ '-' := by
  constructor <;> rintro rfl <;> exact absurd hc (by decide)

theorem exponent?_eq_some_iff : exponent? x = some e ↔ Exponent x e := by
  constructor
  · intro h
    unfold exponent? at h
    split at h
    · obtain rfl := Option.some.inj h
      exact .none
    · rename_i c rest
      rw [Option.ite_none_right_eq_some] at h
      obtain ⟨hc, h⟩ := h
      obtain ⟨sign, negative, ds, hsplit, hsign, rfl⟩ := exists_sign rest
      rw [hsplit] at h
      cases hdigits : digits? ds with
      | none => simp [hdigits] at h
      | some n =>
          obtain ⟨hds, hne, rfl⟩ := digits?_eq_some_iff.mp hdigits
          obtain rfl : (if negative then -(ofDigits ds : Int) else ofDigits ds) = e := by
            simpa [hdigits] using h
          exact .some hc hsign hds hne
  · intro h
    cases h with
    | none => rfl
    | @some c sign ds negative hc hsign hds hne =>
        have hhead := head?_of_digits hds hne []
        rw [List.append_nil] at hhead
        have hsplit := splitSign_append hsign fun c' hc' => ne_sign_of_isDigit (hhead c' hc')
        have hread := digits?_eq_some_iff.mpr ⟨hds, hne, rfl⟩
        simp [exponent?, hc, hsplit, hread]

/-- An exponent is not taken for a digit or a point. -/
theorem Exponent.head? (h : Exponent x e) : ∀ c ∈ x.head?, c.isDigit = false ∧ c ≠ '.' := by
  cases h with
  | none => simp
  | some hc hsign hds hne =>
      intro c' hc'
      obtain rfl := Option.some.inj hc'
      rcases hc with rfl | rfl <;> decide

/-! ## Numerals without a sign -/

theorem splitFraction_of_ne (hx : ∀ c ∈ x.head?, c ≠ '.') : splitFraction x = ([], x) := by
  unfold splitFraction
  split
  · exact absurd rfl (hx '.' rfl)
  · rfl

theorem splitFraction_pointed (hfs : Digits fs) (hx : ∀ c ∈ x.head?, c.isDigit = false) :
    splitFraction ('.' :: (fs ++ x)) = (fs, x) :=
  span_digits hfs hx

theorem unsigned?_eq {whole rest fraction : List Char}
    (hspan : cs.span Char.isDigit = (whole, rest)) (hsplit : splitFraction rest = (fraction, x)) :
    unsigned? cs = if whole = [] ∧ fraction = [] then none
      else (exponent? x).map fun e : Int =>
        (ofDigits (whole ++ fraction), e - (fraction.length : Int)) := by
  unfold unsigned?
  rw [hspan]
  dsimp only
  rw [hsplit]
  simp

theorem unsigned?_eq_some_iff : unsigned? cs = some (n, e) ↔ Magnitude cs n e := by
  constructor
  · intro h
    have hwhole := digits_takeWhile cs
    have hcs := List.takeWhile_append_dropWhile (p := Char.isDigit) (l := cs)
    have hspan := List.span_eq_takeWhile_dropWhile (p := Char.isDigit) cs
    generalize cs.takeWhile Char.isDigit = whole at *
    generalize cs.dropWhile Char.isDigit = rest at *
    subst hcs
    rcases hsplit : splitFraction rest with ⟨fraction, x⟩
    rw [unsigned?_eq hspan hsplit, Option.ite_none_left_eq_some] at h
    obtain ⟨hne, hexponent⟩ := h
    obtain ⟨e, hx, heq⟩ := Option.map_eq_some_iff.mp hexponent
    obtain ⟨rfl, rfl⟩ := Prod.mk.inj heq
    rw [exponent?_eq_some_iff] at hx
    unfold splitFraction at hsplit
    split at hsplit
    · rename_i r
      have hfraction := digits_takeWhile r
      have hr := List.takeWhile_append_dropWhile (p := Char.isDigit) (l := r)
      rw [List.span_eq_takeWhile_dropWhile] at hsplit
      obtain ⟨rfl, rfl⟩ := Prod.mk.inj hsplit
      have hpointed := Magnitude.pointed hwhole hfraction (by tauto) hx
      rwa [hr] at hpointed
    · obtain ⟨rfl, rfl⟩ := Prod.mk.inj hsplit
      simpa using Magnitude.whole hwhole (by tauto) hx
  · intro h
    cases h with
    | whole hds hne hx =>
        have hspan := span_digits hds fun c hc => (hx.head? c hc).1
        have hsplit := splitFraction_of_ne fun c hc => (hx.head? c hc).2
        simp [unsigned?_eq hspan hsplit, hne, exponent?_eq_some_iff.mpr hx]
    | @pointed ds fs x e hds hfs hne hx =>
        have hpoint : ∀ c ∈ ('.' :: (fs ++ x)).head?, c.isDigit = false := by
          rintro c hc
          obtain rfl := Option.some.inj hc
          decide
        have hspan := span_digits hds hpoint
        have hsplit := splitFraction_pointed hfs fun c hc => (hx.head? c hc).1
        have hboth : ¬ (ds = [] ∧ fs = []) := by tauto
        simp [unsigned?_eq hspan hsplit, hboth, exponent?_eq_some_iff.mpr hx]

theorem Magnitude.head? (h : Magnitude cs n e) :
    ∀ c ∈ cs.head?, c.isDigit = true ∨ c = '.' := by
  cases h with
  | @whole ds x e hds hne hx => exact fun c hc => Or.inl (head?_of_digits hds hne x c hc)
  | @pointed ds fs x e hds hfs hne hx =>
      intro c hc
      by_cases hnil : ds = []
      · subst hnil
        exact Or.inr (Option.some.inj hc).symm
      · exact Or.inl (head?_of_digits hds hnil _ c hc)

/-! ## All numerals -/

theorem toLower_of_isDigit {c : Char} (hc : c.isDigit = true) : c.toLower = c := by
  have hupper : ¬ (c.val ≥ 'A'.val ∧ c.val ≤ 'Z'.val) := by
    simp only [Char.isDigit] at hc
    grind
  exact dif_neg hupper

theorem ofList_eq_iff {s : String} : String.ofList cs = s ↔ cs = s.toList :=
  ⟨fun h => by rw [← h, String.toList_ofList], fun h => by rw [h, String.ofList_toList]⟩

theorem word?_eq_some_iff {v : Numeral} : word? negative (String.ofList cs) = some v ↔
    cs = "nan".toList ∧ v = .nan ∨
      (cs = "inf".toList ∨ cs = "infinity".toList) ∧ v = .infinite negative := by
  simp only [word?, ofList_eq_iff]
  split
  · rename_i hnan
    subst hnan
    have hother : ¬ ("nan".toList = "inf".toList ∨ "nan".toList = "infinity".toList) := by decide
    rw [Option.some.injEq, and_iff_right rfl, or_iff_left fun h => hother h.1,
      eq_comm]
  · rename_i hnan
    have hother : ¬ (cs = "nan".toList ∧ v = .nan) := fun h => hnan h.1
    rw [Option.ite_none_right_eq_some, Option.some.injEq, or_iff_right hother, eq_comm (a := v)]

/-- A name begins with a letter. -/
theorem head?_of_word? {w : List Char} {v : Numeral}
    (h : word? negative (String.ofList (w.map Char.toLower)) = some v) :
    ∃ c rest, w = c :: rest ∧ (c.toLower = 'i' ∨ c.toLower = 'n') := by
  rw [word?_eq_some_iff] at h
  cases w with
  | nil => simp at h
  | cons c rest =>
      refine ⟨c, rest, rfl, ?_⟩
      rcases h with ⟨h, -⟩ | ⟨h | h, -⟩
      · exact Or.inr (List.cons.inj h).1
      · exact Or.inl (List.cons.inj h).1
      · exact Or.inl (List.cons.inj h).1

theorem letter_cases {c : Char} (hc : c.toLower = 'i' ∨ c.toLower = 'n') :
    c.isDigit = false ∧ c ≠ '.' ∧ c ≠ '+' ∧ c ≠ '-' := by
  refine ⟨?_, ?_, ?_, ?_⟩
  · rw [Bool.eq_false_iff]
    intro hd
    rw [toLower_of_isDigit hd] at hc
    rcases hc with rfl | rfl <;> exact absurd hd (by decide)
  all_goals
    rintro rfl
    exact absurd hc (by decide)

theorem unsigned?_of_letter {c : Char} {rest : List Char}
    (hc : c.toLower = 'i' ∨ c.toLower = 'n') : unsigned? (c :: rest) = none := by
  obtain ⟨hdigit, hpoint, -⟩ := letter_cases hc
  have hnone : Digits [] := by simp [Digits]
  have hspan : (c :: rest).span Char.isDigit = ([], c :: rest) :=
    span_digits hnone (by simpa using hdigit)
  rw [unsigned?_eq hspan (splitFraction_of_ne (by simpa using hpoint))]
  simp

namespace Numeral

/-- A text is read as what it denotes. -/
theorem ofChars?_eq_some_iff {v : Numeral} : ofChars? cs = some v ↔ Denotes cs v := by
  constructor
  · intro h
    obtain ⟨sign, negative, rest, hsplit, hsign, rfl⟩ := exists_sign cs
    unfold ofChars? at h
    rw [hsplit] at h
    dsimp only at h
    split at h
    · rename_i n e hread
      obtain rfl := Option.some.inj h
      exact .finite hsign (unsigned?_eq_some_iff.mp hread)
    · obtain ⟨hw, rfl⟩ | ⟨hw, rfl⟩ := word?_eq_some_iff.mp h
      · exact .nan hsign hw
      · exact .infinite hsign hw
  · intro h
    have hword : ∀ {sign w : List Char} {negative : Bool}, Sign sign negative →
        word? negative (String.ofList (w.map Char.toLower)) = some v →
        ofChars? (sign ++ w) = some v := by
      intro sign w negative hsign hw
      obtain ⟨c, rest, rfl, hc⟩ := head?_of_word? hw
      have hsplit : splitSign (sign ++ c :: rest) = (negative, c :: rest) :=
        splitSign_append hsign (by simpa using (letter_cases hc).2.2)
      rw [ofChars?, hsplit]
      simp only [unsigned?_of_letter hc, hw]
    cases h with
    | finite hsign hm =>
        have hsplit := splitSign_append hsign fun c hc => by
          rcases hm.head? c hc with hd | rfl
          · exact ne_sign_of_isDigit hd
          · decide
        rw [ofChars?, hsplit]
        simp only [unsigned?_eq_some_iff.mpr hm]
    | infinite hsign hw => exact hword hsign (word?_eq_some_iff.mpr (Or.inr ⟨hw, rfl⟩))
    | nan hsign hw => exact hword hsign (word?_eq_some_iff.mpr (Or.inl ⟨hw, rfl⟩))

end Numeral

def Literal (cs : List Char) : Prop :=
  ∃ v, Denotes cs v

theorem double?_eq_some_iff {y : Float} :
    double? cs = some y ↔ ∃ v, Denotes cs v ∧ v.toDouble = y := by
  simp [double?, Option.map_eq_some_iff, Numeral.ofChars?_eq_some_iff]

theorem double?_eq_none_iff : double? cs = none ↔ ¬ Literal cs := by
  rw [Literal, Option.eq_none_iff_forall_ne_some]
  simp only [ne_eq, double?_eq_some_iff]
  grind

example : Literal "+.5E-3".toList :=
  ⟨.finite false 5 (-4), Numeral.ofChars?_eq_some_iff.mp (by decide)⟩

example : ¬ Literal "e5".toList := by
  rw [← double?_eq_none_iff]
  decide

end Geodesic.Decimal
