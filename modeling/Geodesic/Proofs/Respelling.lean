import Geodesic.Proofs.EdgeList
import Mathlib.Data.List.Induction

/-!
# Labels spelled differently

A text may be given other labels in place of its own. Blanks, weights, comments and the ends of lines
stay where they are, so that every line has the fields it had, with its labels spelled differently.
-/

namespace Geodesic

open Text (isBlank fieldsFrom fields linesFrom lines dropReturn)

/-- A text that is read as a label wherever it stands between blanks. -/
structure IsLabel (s : String) : Prop where
  ne_nil : s.toList ≠ []
  notBlank : ∀ c ∈ s.toList, isBlank c = false
  noComment : '#' ∉ s.toList

theorem isLabel_iff {s : String} : IsLabel s ↔
    s.toList ≠ [] ∧ s.toList.all (fun c => !isBlank c && c != '#') = true := by
  simp only [List.all_eq_true, Bool.and_eq_true, Bool.not_eq_true', bne_iff_ne]
  constructor
  · rintro ⟨hne, hblank, hcomment⟩
    exact ⟨hne, fun c hc => ⟨hblank c hc, fun h => hcomment (h ▸ hc)⟩⟩
  · rintro ⟨hne, hall⟩
    exact ⟨hne, fun c hc => (hall c hc).1, fun h => (hall '#' h).2 rfl⟩

instance (s : String) : Decidable (IsLabel s) :=
  decidable_of_iff' _ isLabel_iff

theorem isBlank_newline : isBlank '\n' = true := by decide

theorem isBlank_return : isBlank '\r' = true := by decide

/-! ## Fields -/

section Fields

variable {acc cs w : List Char} {c : Char}

theorem fieldsFrom_append (hw : ∀ c ∈ w, isBlank c = false) :
    fieldsFrom acc (w ++ cs) = fieldsFrom (w.reverse ++ acc) cs := by
  induction w generalizing acc with
  | nil => rfl
  | cons c w ih =>
      have hc := hw c List.mem_cons_self
      rw [List.cons_append, fieldsFrom, hc, List.reverse_cons, List.append_assoc]
      exact ih fun c' hc' => hw c' (List.mem_cons_of_mem _ hc')

theorem fieldsFrom_nil (hne : acc ≠ []) : fieldsFrom acc [] = [acc.reverse] := by
  simp [fieldsFrom, hne]

theorem fieldsFrom_cons (hc : isBlank c = false) :
    fieldsFrom acc (c :: cs) = fieldsFrom (c :: acc) cs := by
  simp [fieldsFrom, hc]

theorem fieldsFrom_cons_blank (hne : acc ≠ []) (hc : isBlank c = true) :
    fieldsFrom acc (c :: cs) = acc.reverse :: fieldsFrom [] cs := by
  simp [fieldsFrom, hc, hne]

theorem fieldsFrom_blank (hc : isBlank c = true) : fieldsFrom [] (c :: cs) = fieldsFrom [] cs := by
  simp [fieldsFrom, hc]

theorem fieldsFrom_field (hne : w ≠ []) (hw : ∀ c ∈ w, isBlank c = false) (hc : isBlank c = true) :
    fieldsFrom [] (w ++ c :: cs) = w :: fieldsFrom [] cs := by
  have hne' : w.reverse ≠ [] := by simpa using hne
  rw [fieldsFrom_append hw, List.append_nil, fieldsFrom_cons_blank hne' hc, List.reverse_reverse]

theorem fieldsFrom_last (hne : w ≠ []) (hw : ∀ c ∈ w, isBlank c = false) :
    fieldsFrom [] w = [w] := by
  have hlast : fieldsFrom [] (w ++ []) = fieldsFrom (w.reverse ++ []) [] := fieldsFrom_append hw
  rw [List.append_nil, List.append_nil] at hlast
  rw [hlast, fieldsFrom_nil (by simpa using hne), List.reverse_reverse]

/-- Blanks behind a text change nothing. -/
theorem fieldsFrom_concat_blank (hc : isBlank c = true) :
    fieldsFrom acc (cs ++ [c]) = fieldsFrom acc cs := by
  induction cs generalizing acc with
  | nil => simp [fieldsFrom, hc]
  | cons c' cs ih =>
      simp only [List.cons_append, fieldsFrom, ih]

end Fields

/-! ## Fields spelled differently -/

section Respelling

variable (ρ : String → String)

def spell (cs : List Char) : List Char :=
  (ρ (String.ofList cs)).toList

/-- A field that is held backwards, spelled differently unless `k` is zero. -/
def respellField (k : Nat) (acc : List Char) : List Char :=
  if acc = [] then [] else if k = 0 then acc.reverse else spell ρ acc.reverse

/-- Spell the next `k` fields differently, after the characters `acc` of a field that has begun,
latest first. -/
def respellFrom (k : Nat) (acc : List Char) : List Char → List Char
  | [] => respellField ρ k acc
  | c :: rest =>
      if isBlank c = false then respellFrom k (c :: acc) rest
      else respellField ρ k acc ++ c :: respellFrom (if acc = [] then k else k - 1) [] rest

variable {ρ} {k : Nat} {acc cs : List Char}

theorem respellField_nil : respellField ρ k [] = [] := by
  simp [respellField]

/-- Of the fields of a text, the first `k` are labels in the new spelling. -/
def Spelled (ρ : String → String) (k : Nat) (fs : List (List Char)) : Prop :=
  ∀ f ∈ fs.take k, IsLabel (ρ (String.ofList f))

theorem forall_mem_take_cons {P : List Char → Prop} {f : List Char} {fs : List (List Char)}
    (h : ∀ f' ∈ (f :: fs).take k, P f') : (k ≠ 0 → P f) ∧ ∀ f' ∈ fs.take (k - 1), P f' := by
  cases k with
  | zero => exact ⟨fun h => absurd rfl h, by simp⟩
  | succ k =>
      rw [List.take_succ_cons, List.forall_mem_cons] at h
      exact ⟨fun _ => h.1, h.2⟩

theorem respellField_spec (hne : acc ≠ []) (hacc : ∀ c ∈ acc, isBlank c = false)
    (hlabel : k ≠ 0 → IsLabel (ρ (String.ofList acc.reverse))) :
    respellField ρ k acc ≠ [] ∧ ∀ c ∈ respellField ρ k acc, isBlank c = false := by
  unfold respellField
  rw [if_neg hne]
  split
  · simpa [hne] using hacc
  · rename_i hk
    exact ⟨(hlabel hk).ne_nil, (hlabel hk).notBlank⟩

def respellFields (ρ : String → String) (k : Nat) (fs : List (List Char)) : List (List Char) :=
  (fs.take k).map (spell ρ) ++ fs.drop k

theorem respellFields_cons (hne : acc ≠ []) (fs : List (List Char)) :
    respellFields ρ k (acc.reverse :: fs) =
      respellField ρ k acc :: respellFields ρ (k - 1) fs := by
  cases k with
  | zero => simp [respellFields, respellField, hne]
  | succ k => simp [respellFields, respellField, hne]

/-- The first fields of a text are spelled differently, the others are as before. -/
theorem fieldsFrom_respellFrom (hacc : ∀ c ∈ acc, isBlank c = false)
    (hspelled : Spelled ρ k (fieldsFrom acc cs)) :
    fieldsFrom [] (respellFrom ρ k acc cs) = respellFields ρ k (fieldsFrom acc cs) := by
  induction cs generalizing k acc with
  | nil =>
      by_cases hne : acc = []
      · subst hne
        simp [respellFrom, respellField, fieldsFrom, respellFields]
      · rw [fieldsFrom_nil hne] at hspelled ⊢
        obtain ⟨hfield, hblank⟩ := respellField_spec hne hacc (forall_mem_take_cons hspelled).1
        rw [respellFrom, fieldsFrom_last hfield hblank, respellFields_cons hne]
        simp [respellFields]
  | cons c rest ih =>
      cases hc : isBlank c with
      | false =>
          rw [fieldsFrom_cons hc] at hspelled ⊢
          rw [respellFrom, if_pos hc]
          exact ih (List.forall_mem_cons.mpr ⟨hc, hacc⟩) hspelled
      | true =>
          have hnone : ∀ c ∈ ([] : List Char), isBlank c = false := by simp
          by_cases hne : acc = []
          · subst hne
            rw [fieldsFrom_blank hc] at hspelled ⊢
            rw [respellFrom, if_neg (by simp [hc]), if_pos rfl, respellField_nil, List.nil_append,
              fieldsFrom_blank hc]
            exact ih hnone hspelled
          · rw [fieldsFrom_cons_blank hne hc] at hspelled ⊢
            obtain ⟨hlabel, hrest⟩ := forall_mem_take_cons hspelled
            obtain ⟨hfield, hblank⟩ := respellField_spec hne hacc hlabel
            rw [respellFrom, if_neg (by simp [hc]), if_neg hne, fieldsFrom_field hfield hblank hc,
              respellFields_cons hne, ih hnone hrest]

theorem forall_mem_respellField {p : Char → Prop} (hacc : ∀ c ∈ acc, p c)
    (hlabel : k ≠ 0 → ∀ c ∈ spell ρ acc.reverse, p c) : ∀ c ∈ respellField ρ k acc, p c := by
  unfold respellField
  split
  · simp
  · split
    · simpa using hacc
    · rename_i hk
      exact hlabel hk

theorem forall_mem_respellFrom {p : Char → Prop} (hacc : ∀ c ∈ acc, p c) (hcs : ∀ c ∈ cs, p c)
    (hlabels : ∀ f ∈ (fieldsFrom acc cs).take k, ∀ c ∈ spell ρ f, p c) :
    ∀ c ∈ respellFrom ρ k acc cs, p c := by
  induction cs generalizing k acc with
  | nil =>
      by_cases hne : acc = []
      · subst hne
        simp [respellFrom, respellField]
      · rw [fieldsFrom_nil hne] at hlabels
        exact forall_mem_respellField hacc (forall_mem_take_cons hlabels).1
  | cons c rest ih =>
      obtain ⟨hc, hrest⟩ := List.forall_mem_cons.mp hcs
      rw [respellFrom]
      split
      · rename_i hblank
        rw [fieldsFrom_cons hblank] at hlabels
        exact ih (List.forall_mem_cons.mpr ⟨hc, hacc⟩) hrest hlabels
      · rename_i hblank
        rw [Bool.not_eq_false] at hblank
        rw [List.forall_mem_append, List.forall_mem_cons]
        by_cases hne : acc = []
        · subst hne
          rw [fieldsFrom_blank hblank] at hlabels
          rw [if_pos rfl, respellField_nil]
          exact ⟨by simp, hc, ih (by simp) hrest hlabels⟩
        · rw [fieldsFrom_cons_blank hne hblank] at hlabels
          obtain ⟨hlabel, hlabels⟩ := forall_mem_take_cons hlabels
          rw [if_neg hne]
          exact ⟨forall_mem_respellField hacc hlabel, hc, ih (by simp) hrest hlabels⟩

theorem respellFrom_ne_nil (hacc : ∀ c ∈ acc, isBlank c = false)
    (hspelled : Spelled ρ k (fieldsFrom acc cs)) (hne : acc ≠ [] ∨ cs ≠ []) :
    respellFrom ρ k acc cs ≠ [] := by
  induction cs generalizing acc with
  | nil =>
      have hne : acc ≠ [] := by simpa using hne
      rw [fieldsFrom_nil hne] at hspelled
      exact (respellField_spec hne hacc (forall_mem_take_cons hspelled).1).1
  | cons c rest ih =>
      rw [respellFrom]
      split
      · rename_i hc
        rw [fieldsFrom_cons hc] at hspelled
        exact ih (List.forall_mem_cons.mpr ⟨hc, hacc⟩) hspelled (by simp)
      · simp

end Respelling

/-! ## Lines -/

section Lines

variable {line l : List Char}

theorem content_append_comment (h : '#' ∉ l) :
    Entry.content (l ++ line.dropWhile (· ≠ '#')) = l := by
  have hcomment : (line.dropWhile (· ≠ '#')).takeWhile (· ≠ '#') = [] :=
    List.takeWhile_eq_nil_iff.mpr (List.dropWhile_get_zero_not _ _)
  rw [Entry.content, List.takeWhile_append_of_pos, hcomment, List.append_nil]
  rintro c hc
  rw [decide_eq_true_iff]
  rintro rfl
  exact h hc

theorem noComment_content : '#' ∉ Entry.content line := by
  intro h
  simpa using List.mem_takeWhile_imp h

theorem fieldsOf_concat_blank {c : Char} (hc : isBlank c = true) :
    fieldsOf (line ++ [c]) = fieldsOf line := by
  have hcomment : c ≠ '#' := by
    rintro rfl
    exact absurd hc (by decide)
  unfold fieldsOf Entry.content
  rw [List.takeWhile_append]
  split
  · rename_i hwhole
    have hcontent : line.takeWhile (· ≠ '#') = line :=
      (List.takeWhile_sublist _).eq_of_length hwhole
    have hlast : [c].takeWhile (· ≠ '#') = [c] := by simp [hcomment]
    rw [hcontent, hlast, fields, fieldsFrom_concat_blank hc]
    rfl
  · rfl

theorem fieldsOf_dropReturn (acc : List Char) :
    fieldsOf (dropReturn acc).reverse = fieldsOf acc.reverse := by
  unfold dropReturn
  split
  · rw [List.reverse_cons, fieldsOf_concat_blank isBlank_return]
  · rfl

theorem linesFrom_nil {acc : List Char} (hne : acc ≠ []) : linesFrom acc [] = [acc.reverse] := by
  simp [linesFrom, hne]

theorem linesFrom_cons {acc cs : List Char} {c : Char} (hc : c ≠ '\n') :
    linesFrom acc (c :: cs) = linesFrom (c :: acc) cs := by
  simp [linesFrom, hc]

theorem linesFrom_newline {acc cs : List Char} :
    linesFrom acc ('\n' :: cs) = (dropReturn acc).reverse :: linesFrom [] cs := by
  simp [linesFrom]

theorem linesFrom_append {acc w cs : List Char} (hw : '\n' ∉ w) :
    linesFrom acc (w ++ cs) = linesFrom (w.reverse ++ acc) cs := by
  induction w generalizing acc with
  | nil => rfl
  | cons c w ih =>
      rw [List.mem_cons, not_or] at hw
      rw [List.cons_append, linesFrom_cons (Ne.symm hw.1), ih hw.2, List.reverse_cons,
        List.append_assoc]
      rfl

theorem linesFrom_line (hne : line ≠ []) (hline : '\n' ∉ line) : linesFrom [] line = [line] := by
  have hwhole : linesFrom [] (line ++ []) = linesFrom (line.reverse ++ []) [] :=
    linesFrom_append hline
  rw [List.append_nil, List.append_nil] at hwhole
  rw [hwhole, linesFrom_nil (by simpa using hne), List.reverse_reverse]

variable {ρ : String → String}

/-- The labels of a line are spelled differently, its comment stays. -/
def respellLine (ρ : String → String) (line : List Char) : List Char :=
  respellFrom ρ 2 [] (Entry.content line) ++ line.dropWhile (· ≠ '#')

/-- The labels of all lines, after the characters `acc` of a line that has begun, latest first. -/
def respellLines (ρ : String → String) (acc : List Char) : List Char → List Char
  | [] => respellLine ρ acc.reverse
  | c :: rest =>
      if c = '\n' then respellLine ρ acc.reverse ++ '\n' :: respellLines ρ [] rest
      else respellLines ρ (c :: acc) rest

def respell (ρ : String → String) (text : String) : String :=
  String.ofList (respellLines ρ [] text.toList)

example : respell ("x" ++ ·) "a  b 2 # a\r\n a" = "xa  xb 2 # a\r\n xa" := by
  decide +kernel

def Labelled (ρ : String → String) (line : List Char) : Prop :=
  ∀ l ∈ labelFields line, IsLabel (ρ l)

theorem Labelled.spelled (h : Labelled ρ line) :
    Spelled ρ 2 (fieldsFrom [] (Entry.content line)) := by
  intro f hf
  refine h _ ?_
  rw [labelFields, fieldsOf, ← List.map_take]
  exact List.mem_map_of_mem hf

def respelledFields (ρ : String → String) (fs : List String) : List String :=
  (fs.take 2).map ρ ++ fs.drop 2

theorem fieldsOf_respellLine (h : Labelled ρ line) :
    fieldsOf (respellLine ρ line) = respelledFields ρ (fieldsOf line) := by
  have hcontent : Entry.content (respellLine ρ line) = respellFrom ρ 2 [] (Entry.content line) := by
    refine content_append_comment fun hcomment => ?_
    refine forall_mem_respellFrom (p := (· ≠ '#')) (by simp) (fun c hc => ?_) (fun f hf c hc => ?_)
      '#' hcomment rfl
    · rintro rfl
      exact noComment_content hc
    · rintro rfl
      exact (h.spelled f hf).noComment hc
  rw [fieldsOf, hcontent, fields, fieldsFrom_respellFrom (by simp) h.spelled]
  simp only [respellFields, respelledFields, fieldsOf, fields, List.map_append, List.map_map,
    List.map_take, List.map_drop]
  have hspell : String.ofList ∘ spell ρ = ρ ∘ String.ofList :=
    funext fun cs => String.ofList_toList
  rw [hspell]

theorem noNewline_respellLine (h : Labelled ρ line) (hline : '\n' ∉ line) :
    '\n' ∉ respellLine ρ line := by
  rw [respellLine, List.mem_append, not_or]
  constructor
  · intro hnewline
    refine forall_mem_respellFrom (p := (· ≠ '\n')) (by simp) (fun c hc => ?_) (fun f hf c hc => ?_)
      '\n' hnewline rfl
    · rintro rfl
      exact hline ((List.takeWhile_subset _) hc)
    · rintro rfl
      have hblank := (h.spelled f hf).notBlank _ hc
      rw [isBlank_newline] at hblank
      cases hblank
  · exact fun hnewline => hline ((List.dropWhile_subset _) hnewline)

theorem respellLine_ne_nil (h : Labelled ρ line) (hne : line ≠ []) : respellLine ρ line ≠ [] := by
  rw [respellLine, ne_eq, List.append_eq_nil_iff, not_and]
  intro hnil hcomment
  have hcontent : Entry.content line = line := by
    have hline := List.takeWhile_append_dropWhile (p := (· ≠ '#')) (l := line)
    rwa [hcomment, List.append_nil] at hline
  exact respellFrom_ne_nil (by simp) h.spelled (Or.inr (by rwa [hcontent])) hnil

/-- Line by line, the labels are spelled differently. -/
theorem fieldsOf_respellLines {acc cs : List Char} (hacc : '\n' ∉ acc)
    (h : ∀ line ∈ linesFrom acc cs, Labelled ρ line) :
    (linesFrom [] (respellLines ρ acc cs)).map fieldsOf =
      (linesFrom acc cs).map fun line => respelledFields ρ (fieldsOf line) := by
  induction cs generalizing acc with
  | nil =>
      by_cases hne : acc = []
      · subst hne
        simp [respellLines, respellLine, respellFrom, respellField, Entry.content, linesFrom]
      · rw [linesFrom_nil hne] at h ⊢
        have hline := h acc.reverse List.mem_cons_self
        have hkept := respellLine_ne_nil hline (by simpa using hne)
        have hnewline := noNewline_respellLine hline (by simpa using hacc)
        rw [respellLines, linesFrom_line hkept hnewline, List.map_singleton, List.map_singleton,
          fieldsOf_respellLine hline]
  | cons c rest ih =>
      by_cases hc : c = '\n'
      · subst hc
        rw [linesFrom_newline] at h ⊢
        obtain ⟨hline, hrest⟩ := List.forall_mem_cons.mp h
        rw [Labelled, labelFields, fieldsOf_dropReturn] at hline
        have hnewline := noNewline_respellLine hline (by simpa using hacc)
        rw [respellLines, if_pos rfl, linesFrom_append hnewline, List.append_nil, linesFrom_newline,
          List.map_cons, List.map_cons, fieldsOf_dropReturn, List.reverse_reverse,
          fieldsOf_respellLine hline, fieldsOf_dropReturn, ih (by simp) hrest]
      · rw [linesFrom_cons hc] at h ⊢
        rw [respellLines, if_neg hc]
        exact ih (by simp [hacc, Ne.symm hc]) h

end Lines

/-! ## Labels and edges -/

section Edges

variable {ρ : String → String} {ls : List String} {line line' : List Char}
  {lines lines' : List (List Char)}

/-- Different labels stay different, and all are labels in the new spelling. -/
structure Respells (ρ : String → String) (ls : List String) : Prop where
  injective : ∀ l ∈ ls, ∀ m ∈ ls, ρ l = ρ m → l = m
  isLabel : ∀ l ∈ ls, IsLabel (ρ l)

theorem eraseDups_map (h : ∀ l ∈ ls, ∀ m ∈ ls, ρ l = ρ m → l = m) :
    (ls.map ρ).eraseDups = ls.eraseDups.map ρ := by
  induction ls using List.reverseRecOn with
  | nil => rfl
  | append_singleton ls l ih =>
      have ih := ih fun l hl m hm => h l (by simp [hl]) m (by simp [hm])
      have hmem : ρ l ∈ ls.map ρ ↔ l ∈ ls := by
        rw [List.mem_map]
        constructor
        · rintro ⟨m, hm, heq⟩
          rwa [← h m (by simp [hm]) l (by simp) heq]
        · exact fun hl => ⟨l, hl, rfl⟩
      rw [List.map_append, List.map_singleton]
      by_cases hl : l ∈ ls
      · rw [eraseDups_concat_of_mem (hmem.mpr hl), eraseDups_concat_of_mem hl, ih]
      · rw [eraseDups_concat_of_not_mem (mt hmem.mp hl), eraseDups_concat_of_not_mem hl, ih,
          List.map_append, List.map_singleton]

def Respelled (ρ : String → String) (line line' : List Char) : Prop :=
  fieldsOf line' = respelledFields ρ (fieldsOf line)

def Row.respell (ρ : String → String) (row : Row) : Row :=
  { row with source := ρ row.source, target := ρ row.target }

namespace Respelled

theorem labelFields_eq (h : Respelled ρ line line') :
    labelFields line' = (labelFields line).map ρ := by
  rw [labelFields, labelFields, h, respelledFields]
  rcases fieldsOf line with _ | ⟨s, _ | ⟨t, fs⟩⟩ <;> rfl

theorem length_eq (h : Respelled ρ line line') :
    (fieldsOf line').length = (fieldsOf line).length := by
  rw [h, respelledFields]
  simp
  omega

theorem row?_eq (h : Respelled ρ line line') (k : Nat) :
    rowOf? (line', k) = (rowOf? (line, k)).map (Row.respell ρ) := by
  unfold rowOf?
  dsimp only
  rw [h]
  rcases fieldsOf line with _ | ⟨s, _ | ⟨t, _ | ⟨w, _ | ⟨f, fs⟩⟩⟩⟩ <;> rfl

theorem lineFault_iff (h : Respelled ρ line line') (k : Nat) (e : InputError) :
    LineFault (line', k) e ↔ LineFault (line, k) e := by
  have hlength := h.length_eq
  constructor
  · intro hfault
    cases hfault with
    | fieldCount hcount =>
        rw [hlength] at hcount ⊢
        exact .fieldCount hcount
    | invalidWeight hfields hliteral =>
        have hthree : (fieldsOf line).length = 3 := by rw [← hlength, hfields]; rfl
        obtain ⟨s, t, w, hfields'⟩ := List.length_eq_three.mp hthree
        have hsame : [ρ s, ρ t, w] = fieldsOf line' := by rw [h, hfields']; rfl
        rw [hfields] at hsame
        cases hsame
        exact .invalidWeight hfields' hliteral
  · intro hfault
    cases hfault with
    | fieldCount hcount =>
        rw [← hlength] at hcount ⊢
        exact .fieldCount hcount
    | @invalidWeight s t w hfields hliteral =>
        have hfields' : fieldsOf line' = [ρ s, ρ t, w] := by rw [h, hfields]; rfl
        exact .invalidWeight hfields' hliteral

end Respelled

theorem flatMap_labelFields (h : List.Forall₂ (Respelled ρ) lines lines') :
    lines'.flatMap labelFields = (lines.flatMap labelFields).map ρ := by
  induction h with
  | nil => rfl
  | cons hline _ ih =>
      rw [List.flatMap_cons, List.flatMap_cons, List.map_append, hline.labelFields_eq, ih]

theorem labelsIn_respelled (h : List.Forall₂ (Respelled ρ) lines lines')
    (hρ : Respells ρ (labelsIn lines)) : labelsIn lines' = (labelsIn lines).map ρ := by
  rw [labelsIn, flatMap_labelFields h]
  refine eraseDups_map fun l hl m hm => ?_
  rw [← List.mem_eraseDups] at hl hm
  exact hρ.injective l hl m hm

theorem filterMap_rowOf? (h : List.Forall₂ (Respelled ρ) lines lines') (k : Nat) :
    (lines'.zipIdx k).filterMap rowOf? =
      ((lines.zipIdx k).filterMap rowOf?).map (Row.respell ρ) := by
  induction h generalizing k with
  | nil => rfl
  | @cons line line' lines lines' hline _ ih =>
      rw [List.zipIdx_cons, List.zipIdx_cons, List.filterMap_cons, List.filterMap_cons,
        hline.row?_eq, ih]
      cases rowOf? (line, k) <;> rfl

theorem rowsIn_respelled (h : List.Forall₂ (Respelled ρ) lines lines') :
    rowsIn lines' = (rowsIn lines).map (Row.respell ρ) :=
  filterMap_rowOf? h 1

theorem firstFault_respelled (h : List.Forall₂ (Respelled ρ) lines lines') (k : Nat)
    (e : InputError) :
    FirstFault LineFault (lines.zipIdx k) e ↔ FirstFault LineFault (lines'.zipIdx k) e := by
  refine firstFault_congr ?_
  induction h generalizing k with
  | nil => exact .nil
  | cons hline _ ih =>
      rw [List.zipIdx_cons, List.zipIdx_cons]
      exact .cons (fun e => (hline.lineFault_iff k e).symm) (ih (k + 1))

/-- The lines of a text whose labels are spelled differently. -/
theorem respelled_lines {text : String} (hρ : Respells ρ (labelsIn (Text.lines text.toList))) :
    List.Forall₂ (Respelled ρ) (Text.lines text.toList) (Text.lines (respell ρ text).toList) := by
  have hlabelled : ∀ line ∈ Text.lines text.toList, Labelled ρ line := fun line hline l hl =>
    hρ.isLabel l (List.mem_eraseDups.mpr (List.mem_flatMap.mpr ⟨line, hline, hl⟩))
  have hfields := fieldsOf_respellLines (by simp) hlabelled
  rw [eq_comm, ← List.forall₂_eq_eq_eq, List.forall₂_map_left_iff, List.forall₂_map_right_iff]
    at hfields
  rw [respell, String.toList_ofList]
  exact hfields.imp fun _ _ h => h.symm

end Edges

/-! ## Edge lists -/

def Link.cast {n m : Nat} (h : n = m) (link : Link n) : Link m where
  ends := link.ends.map (Fin.cast h)
  weight := link.weight
  line := link.line

namespace EdgeList

variable {ρ : String → String} {l l' : EdgeList}

def respell (ρ : String → String) (l : EdgeList) : EdgeList where
  labels := l.labels.map ρ
  links := l.links.map (Link.cast Array.size_map.symm)

theorem row_respell (link : Link l.labels.size) :
    (l.respell ρ).row (link.cast Array.size_map.symm) = (l.row link).respell ρ := by
  simp [row, Row.respell, EdgeList.respell, Link.cast]

theorem rows_respell : (l.respell ρ).links.map (l.respell ρ).row =
    (l.links.map l.row).map (Row.respell ρ) := by
  rw [EdgeList.respell, List.map_map, List.map_map]
  exact List.map_congr_left fun link _ => row_respell link

theorem row_injective (hnodup : l.labels.toList.Nodup) : Function.Injective l.row := by
  rintro ⟨⟨s, t⟩, w, k⟩ ⟨⟨s', t'⟩, w', k'⟩ heq
  have hlabel : ∀ i j : Fin l.labels.size, l.labels[i] = l.labels[j] → i = j :=
    fun i j h => List.nodup_iff_injective_get.mp hnodup h
  obtain ⟨hs, ht, rfl, rfl⟩ := (Row.mk.injEq ..).mp heq
  obtain rfl := hlabel s s' hs
  obtain rfl := hlabel t t' ht
  rfl

theorem eq_of_rows (hlabels : l.labels = l'.labels) (hnodup : l.labels.toList.Nodup)
    (hrows : l.links.map l.row = l'.links.map l'.row) : l = l' := by
  obtain ⟨labels, links⟩ := l
  obtain ⟨labels', links'⟩ := l'
  obtain rfl : labels = labels' := hlabels
  obtain rfl : links = links' := List.map_injective_iff.mpr (row_injective hnodup) hrows
  rfl

/-- A text is read as before, up to the spelling of its labels. -/
theorem parse_respell {text : String} (hρ : Respells ρ (labelsIn (Text.lines text.toList))) :
    parse (Geodesic.respell ρ text) = (parse text).map (EdgeList.respell ρ) := by
  have hlines := respelled_lines hρ
  have herror : ∀ e, parse (Geodesic.respell ρ text) = .error e ↔ parse text = .error e := by
    intro e
    rw [reports_parse, reports_parse, firstFault_respelled hlines]
  cases hparse : parse text with
  | error e => exact (herror e).mpr hparse
  | ok l =>
      cases hparse' : parse (Geodesic.respell ρ text) with
      | error e =>
          rw [(herror e).mp hparse'] at hparse
          cases hparse
      | ok l' =>
          obtain ⟨hlabels, -, hrows⟩ := reads_of_parse hparse
          obtain ⟨hlabels', hnodup', hrows'⟩ := reads_of_parse hparse'
          refine congrArg Except.ok (eq_of_rows ?_ hnodup' ?_)
          · rw [← Array.toList_inj, hlabels', labelsIn_respelled hlines hρ, ← hlabels]
            exact Array.toList_map.symm
          · rw [hrows', rowsIn_respelled hlines, ← hrows, rows_respell]

end EdgeList

end Geodesic
