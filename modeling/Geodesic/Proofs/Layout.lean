import Geodesic.Proofs.Stages
import Mathlib.Logic.Relation

/-!
# Layout

Comments, blanks and lines that say nothing new may be put anywhere into an edge list or taken out
of it, and weights may be anything where they are not used. What is put out stays the same then: it
depends on the fields of the lines that say something, and on nothing else.
-/

namespace Geodesic

open Text (isBlank fieldsFrom fields linesFrom lines dropReturn)

/-! ## Edits -/

/-- The third field of a line with an edge, if there is one. -/
def IsWeight (fs : List String) : Prop :=
  fs = [] ∨ ∃ w, fs = [w] ∧ Decimal.Literal w.toList

/-- A change of one line. Where weights are used they have to stay. -/
inductive LineEdit (weighted : Bool) : List Char → List Char → Prop
  | comment (line comment : List Char) : LineEdit weighted line (line ++ '#' :: comment)
  | blanks (a b : List Char) {ws ws' : List Char} : ws ≠ [] → ws' ≠ [] →
      (∀ c ∈ ws, isBlank c = true) → (∀ c ∈ ws', isBlank c = true) →
      LineEdit weighted (a ++ (ws ++ b)) (a ++ (ws' ++ b))
  | leading (line : List Char) {ws : List Char} : (∀ c ∈ ws, isBlank c = true) →
      LineEdit weighted line (ws ++ line)
  | trailing (line : List Char) {ws : List Char} : (∀ c ∈ ws, isBlank c = true) →
      LineEdit weighted line (line ++ ws)
  | weight {line line' : List Char} {s t : String} {w w' : List String} : weighted = false →
      fieldsOf line = s :: t :: w → fieldsOf line' = s :: t :: w' → IsWeight w → IsWeight w' →
      LineEdit weighted line line'

/-- A line may begin behind these characters. -/
def Begins (before : List Char) : Prop :=
  before = [] ∨ ∃ cs, before = cs ++ ['\n']

/-- A line may end before these characters. -/
def Ends (after : List Char) : Prop :=
  after = [] ∨ ∃ cs, after = '\n' :: cs

/-- The line is blank or a comment, or declares a vertex that the lines before it know. -/
def NothingNew (known : List (List Char)) (line : List Char) : Prop :=
  fieldsOf line = [] ∨ ∃ l ∈ labelsIn known, fieldsOf line = [l]

/-- A change of a text: of one line, by one line that says nothing new, or by a last line feed. -/
inductive Edit (weighted : Bool) : List Char → List Char → Prop
  | line {before after line line' : List Char} : Begins before → Ends after →
      '\n' ∉ line → '\n' ∉ line' → LineEdit weighted line line' →
      Edit weighted (before ++ (line ++ after)) (before ++ (line' ++ after))
  | insert {before line : List Char} (after : List Char) : Begins before → '\n' ∉ line →
      NothingNew (lines before) line →
      Edit weighted (before ++ after) (before ++ (line ++ '\n' :: after))
  | close (cs : List Char) : Edit weighted cs (cs ++ ['\n'])

/-- Edits and their inverses lead from one text to the other. -/
def Relaid (weighted : Bool) (text text' : String) : Prop :=
  Relation.EqvGen (Edit weighted) text.toList text'.toList

/-! ## Fields of an edited line -/

section Fields

variable {a b line ws ws' acc : List Char}

theorem fieldsFrom_split {c : Char} (hc : isBlank c = true) :
    fieldsFrom acc (a ++ c :: b) = fieldsFrom acc a ++ fieldsFrom [] b := by
  induction a generalizing acc with
  | nil =>
      by_cases hne : acc = []
      · rw [hne, List.nil_append, fieldsFrom_blank hc]
        rfl
      · rw [List.nil_append, fieldsFrom_cons_blank hne hc, fieldsFrom_nil hne]
        rfl
  | cons d a ih =>
      rw [List.cons_append, fieldsFrom, fieldsFrom]
      split
      · exact ih
      · split
        · exact ih
        · rw [ih, List.cons_append]

theorem fieldsFrom_blanks (hws : ∀ c ∈ ws, isBlank c = true) :
    fieldsFrom [] (ws ++ b) = fieldsFrom [] b := by
  induction ws with
  | nil => rfl
  | cons c ws ih =>
      rw [List.forall_mem_cons] at hws
      rw [List.cons_append, fieldsFrom_blank hws.1, ih hws.2]

theorem fields_blanks (hne : ws ≠ []) (hws : ∀ c ∈ ws, isBlank c = true) :
    fields (a ++ (ws ++ b)) = fields a ++ fields b := by
  cases ws with
  | nil => exact absurd rfl hne
  | cons c ws =>
      rw [List.forall_mem_cons] at hws
      rw [List.cons_append, fields, fieldsFrom_split hws.1, fieldsFrom_blanks hws.2]
      rfl

theorem content_append (h : '#' ∉ a) : Entry.content (a ++ b) = a ++ Entry.content b := by
  refine List.takeWhile_append_of_pos fun c hc => ?_
  rw [decide_eq_true_iff]
  rintro rfl
  exact h hc

theorem content_append_of_mem (h : '#' ∈ a) : Entry.content (a ++ b) = Entry.content a := by
  unfold Entry.content
  rw [List.takeWhile_append, if_neg]
  intro hwhole
  have hcontent : Entry.content a = a := (List.takeWhile_sublist _).eq_of_length hwhole
  exact noComment_content (hcontent ▸ h)

theorem noComment_of_blank (hws : ∀ c ∈ ws, isBlank c = true) : '#' ∉ ws := fun h =>
  absurd (hws '#' h) (by decide)

theorem fieldsOf_comment (line comment : List Char) :
    fieldsOf (line ++ '#' :: comment) = fieldsOf line := by
  unfold fieldsOf
  by_cases h : '#' ∈ line
  · rw [content_append_of_mem h]
  · have hnone : Entry.content ('#' :: comment) = [] := rfl
    have hwhole : Entry.content (line ++ []) = line ++ Entry.content [] := content_append h
    have hnil : Entry.content [] = [] := rfl
    rw [content_append h, hnone, ← hnil, ← hwhole, List.append_nil]

theorem fieldsOf_blanks (a b : List Char) (hne : ws ≠ []) (hne' : ws' ≠ [])
    (hws : ∀ c ∈ ws, isBlank c = true) (hws' : ∀ c ∈ ws', isBlank c = true) :
    fieldsOf (a ++ (ws ++ b)) = fieldsOf (a ++ (ws' ++ b)) := by
  unfold fieldsOf
  by_cases h : '#' ∈ a
  · rw [content_append_of_mem h, content_append_of_mem h]
  · rw [content_append h, content_append h, content_append (noComment_of_blank hws),
      content_append (noComment_of_blank hws'), fields_blanks hne hws, fields_blanks hne' hws']

theorem fieldsOf_leading (line : List Char) (hws : ∀ c ∈ ws, isBlank c = true) :
    fieldsOf (ws ++ line) = fieldsOf line := by
  unfold fieldsOf
  rw [content_append (noComment_of_blank hws), fields, fieldsFrom_blanks hws]
  rfl

theorem fieldsOf_trailing (line : List Char) (hws : ∀ c ∈ ws, isBlank c = true) :
    fieldsOf (line ++ ws) = fieldsOf line := by
  induction ws using List.reverseRecOn with
  | nil => rw [List.append_nil]
  | append_singleton ws c ih =>
      rw [← List.append_assoc, fieldsOf_concat_blank (hws c (by simp))]
      exact ih fun d hd => hws d (List.mem_append_left _ hd)

theorem LineEdit.fieldsOf_eq {line line' : List Char} {weighted : Bool}
    (h : LineEdit weighted line line') : fieldsOf line = fieldsOf line' ∨
      weighted = false ∧ ∃ s t w w', fieldsOf line = s :: t :: w ∧ fieldsOf line' = s :: t :: w' ∧
        IsWeight w ∧ IsWeight w' := by
  cases h with
  | comment line comment => exact Or.inl (fieldsOf_comment line comment).symm
  | blanks a b hne hne' hws hws' => exact Or.inl (fieldsOf_blanks a b hne hne' hws hws')
  | leading line hws => exact Or.inl (fieldsOf_leading line hws).symm
  | trailing line hws => exact Or.inl (fieldsOf_trailing line hws).symm
  | weight hunused hfields hfields' hw hw' =>
      exact Or.inr ⟨hunused, _, _, _, _, hfields, hfields', hw, hw'⟩

end Fields

/-! ## What lines say -/

def contentsOf (lines : List (List Char)) : List (List String) :=
  (lines.map fieldsOf).filter (!·.isEmpty)

/-- The edge that fields describe, with its weight if that is used. -/
def linkOf? (weighted : Bool) : List String → Option Row
  | [s, t] => some ⟨s, t, none, 0⟩
  | [s, t, w] => some ⟨s, t, if weighted then Decimal.double? w.toList else none, 0⟩
  | _ => none

/-- An edge without what does not show: the number of its line, and a weight that is not used. -/
def Row.plain (weighted : Bool) (row : Row) : Row :=
  { row with weight := if weighted then row.weight else none, line := 0 }

def Allowed (fs : List String) : Prop :=
  fs.length ≤ 2 ∨ ∃ s t w, fs = [s, t, w] ∧ Decimal.Literal w.toList

/-- What lines say is the same: which graph they describe, if they describe one. -/
structure Alike (weighted : Bool) (fss fss' : List (List String)) : Prop where
  allowed : (∀ fs ∈ fss, Allowed fs) ↔ ∀ fs ∈ fss', Allowed fs
  labels : (fss.flatMap (·.take 2)).eraseDups = (fss'.flatMap (·.take 2)).eraseDups
  links : fss.filterMap (linkOf? weighted) = fss'.filterMap (linkOf? weighted)

section Contents

variable {weighted : Bool} {lines lines' : List (List Char)} {before after line : List Char}
  {fs : List String} {fss fss' : List (List String)}

theorem alike_equivalence (weighted : Bool) : Equivalence (Alike weighted) where
  refl _ := ⟨Iff.rfl, rfl, rfl⟩
  symm h := ⟨h.allowed.symm, h.labels.symm, h.links.symm⟩
  trans h h' := ⟨h.allowed.trans h'.allowed, h.labels.trans h'.labels, h.links.trans h'.links⟩

theorem contentsOf_append :
    contentsOf (lines ++ lines') = contentsOf lines ++ contentsOf lines' := by
  rw [contentsOf, List.map_append, List.filter_append]
  rfl

theorem contentsOf_cons : contentsOf (line :: lines) = contentsOf [line] ++ contentsOf lines := by
  rw [← contentsOf_append, List.singleton_append]

theorem contentsOf_singleton (h : fieldsOf line ≠ []) : contentsOf [line] = [fieldsOf line] := by
  simp [contentsOf, h]

theorem contentsOf_blank (h : fieldsOf line = []) : contentsOf [line] = [] := by
  simp [contentsOf, h]

theorem acceptable_iff_allowed :
    (∀ line ∈ lines, Acceptable line) ↔ ∀ fs ∈ contentsOf lines, Allowed fs := by
  simp only [contentsOf, List.mem_filter, List.mem_map]
  constructor
  · rintro h fs ⟨⟨line, hline, rfl⟩, -⟩
    exact h line hline
  · intro h line hline
    by_cases hfields : fieldsOf line = []
    · exact Or.inl (by simp [hfields])
    · exact h _ ⟨⟨line, hline, rfl⟩, by simpa using hfields⟩

theorem labelsIn_eq : labelsIn lines = ((contentsOf lines).flatMap (·.take 2)).eraseDups := by
  have hfields : lines.flatMap labelFields = (contentsOf lines).flatMap (·.take 2) := by
    induction lines with
    | nil => rfl
    | cons line lines ih =>
        rw [List.flatMap_cons, contentsOf_cons, List.flatMap_append, ih]
        by_cases h : fieldsOf line = []
        · rw [contentsOf_blank h, labelFields, h]
          rfl
        · rw [contentsOf_singleton h, List.flatMap_singleton]
          rfl
  rw [labelsIn, hfields]

theorem plain_rowOf? (k : Nat) :
    (rowOf? (line, k)).map (Row.plain weighted) = linkOf? weighted (fieldsOf line) := by
  unfold rowOf? linkOf?
  rcases fieldsOf line with _ | ⟨s, _ | ⟨t, _ | ⟨w, _ | ⟨f, fs⟩⟩⟩⟩ <;> simp [Row.plain]

theorem plain_rowsIn :
    (rowsIn lines).map (Row.plain weighted) = (contentsOf lines).filterMap (linkOf? weighted) := by
  have hrows : ∀ k, ((lines.zipIdx k).filterMap rowOf?).map (Row.plain weighted) =
      (contentsOf lines).filterMap (linkOf? weighted) := by
    induction lines with
    | nil => exact fun _ => rfl
    | cons line lines ih =>
        intro k
        rw [List.zipIdx_cons, List.map_filterMap, List.filterMap_cons, plain_rowOf?,
          contentsOf_cons, List.filterMap_append, ← ih (k + 1), List.map_filterMap]
        by_cases h : fieldsOf line = []
        · rw [contentsOf_blank h, h]
          rfl
        · rw [contentsOf_singleton h, List.filterMap_cons, List.filterMap_nil]
          cases linkOf? weighted (fieldsOf line) <;> rfl
  exact hrows 1

/-! ## Where an edit stands -/

theorem linesFrom_closed (acc cs after : List Char) :
    linesFrom acc (cs ++ '\n' :: after) = linesFrom acc (cs ++ ['\n']) ++ linesFrom [] after := by
  induction cs generalizing acc with
  | nil =>
      rw [List.nil_append, List.nil_append, linesFrom_newline, linesFrom_newline]
      rfl
  | cons c cs ih =>
      rw [List.cons_append, List.cons_append, linesFrom, linesFrom]
      split
      · rw [ih, List.cons_append]
      · exact ih _

theorem contentsOf_begins (h : Begins before) (cs : List Char) :
    contentsOf (Text.lines (before ++ cs)) =
      contentsOf (Text.lines before) ++ contentsOf (Text.lines cs) := by
  rcases h with rfl | ⟨before, rfl⟩
  · rfl
  · rw [← contentsOf_append, Text.lines, List.append_assoc, List.singleton_append, linesFrom_closed]
    rfl

theorem contentsOf_dropReturn (acc : List Char) :
    contentsOf [(dropReturn acc).reverse] = contentsOf [acc.reverse] := by
  rw [contentsOf, contentsOf, List.map_singleton, List.map_singleton, fieldsOf_dropReturn]

theorem contentsOf_newline (hline : '\n' ∉ line) (cs : List Char) :
    contentsOf (Text.lines (line ++ '\n' :: cs)) =
      contentsOf [line] ++ contentsOf (Text.lines cs) := by
  rw [Text.lines, linesFrom_append hline, linesFrom_newline, contentsOf_cons, List.append_nil,
    contentsOf_dropReturn, List.reverse_reverse]
  rfl

theorem contentsOf_last (hline : '\n' ∉ line) :
    contentsOf (Text.lines line) = contentsOf [line] := by
  by_cases hne : line = []
  · rw [hne]
    rfl
  · rw [Text.lines, linesFrom_line hne hline]

/-- The last line may or may not be closed. -/
theorem contentsOf_closed (acc cs : List Char) :
    contentsOf (linesFrom acc (cs ++ ['\n'])) = contentsOf (linesFrom acc cs) := by
  induction cs generalizing acc with
  | nil =>
      rw [List.nil_append, linesFrom_newline]
      by_cases hne : acc = []
      · rw [hne]
        rfl
      · rw [linesFrom_nil hne]
        exact contentsOf_dropReturn acc
  | cons c cs ih =>
      rw [List.cons_append, linesFrom, linesFrom]
      split
      · rw [contentsOf_cons, ih, ← contentsOf_cons]
      · exact ih _

theorem contentsOf_ends (hline : '\n' ∉ line) (h : Ends after) :
    contentsOf (Text.lines (line ++ after)) =
      contentsOf [line] ++ contentsOf (Text.lines after) := by
  rcases h with rfl | ⟨cs, rfl⟩
  · rw [List.append_nil, contentsOf_last hline]
    exact (List.append_nil _).symm
  · have hempty : contentsOf (Text.lines ([] ++ '\n' :: cs)) = contentsOf [[]] ++ _ :=
      contentsOf_newline (by simp) cs
    rw [contentsOf_newline hline, ← List.nil_append ('\n' :: cs), hempty]
    rfl

end Contents

/-! ## Edits keep what is said -/

section Alike

variable {weighted : Bool} {known : List (List Char)} {cs cs' line line' : List Char}
  {fss fss' : List (List String)}

theorem Alike.of_eq (h : fss = fss') : Alike weighted fss fss' :=
  h ▸ (alike_equivalence weighted).refl fss

theorem allowed_weight {s t : String} {w : List String} (h : IsWeight w) :
    Allowed (s :: t :: w) := by
  rcases h with rfl | ⟨w, rfl, hliteral⟩
  · exact Or.inl (by simp)
  · exact Or.inr ⟨s, t, w, rfl, hliteral⟩

theorem linkOf?_weight {s t : String} {w : List String} (h : IsWeight w) :
    linkOf? false (s :: t :: w) = some ⟨s, t, none, 0⟩ := by
  rcases h with rfl | ⟨w, rfl, -⟩ <;> rfl

/-- Only the labels of an edge count when its weight is not used. -/
theorem alike_weight {before after : List (List String)} {s t : String} {w w' : List String}
    (hw : IsWeight w) (hw' : IsWeight w') :
    Alike false (before ++ [s :: t :: w] ++ after) (before ++ [s :: t :: w'] ++ after) where
  allowed := by
    have hboth : Allowed (s :: t :: w) ↔ Allowed (s :: t :: w') :=
      iff_of_true (allowed_weight hw) (allowed_weight hw')
    simp only [List.forall_mem_append, List.forall_mem_singleton, hboth]
  labels := by simp
  links := by
    simp only [List.filterMap_append, List.filterMap_cons, linkOf?_weight hw, linkOf?_weight hw']

theorem eraseDups_cons_of_mem {ls ms : List String} {l : String} (h : l ∈ ls) :
    (ls ++ l :: ms).eraseDups = (ls ++ ms).eraseDups := by
  simp [List.eraseDups_append, List.removeAll, h]

/-- A label that is known already may be declared once more. -/
theorem alike_known {before after : List (List String)} {l : String}
    (h : l ∈ before.flatMap (·.take 2)) :
    Alike weighted (before ++ after) (before ++ [[l]] ++ after) where
  allowed := by
    have hallowed : Allowed [l] := Or.inl (by simp)
    simp only [List.forall_mem_append, List.forall_mem_singleton, hallowed, and_true]
  labels := by
    rw [List.append_assoc, List.flatMap_append, List.flatMap_append, List.singleton_append,
      List.flatMap_cons]
    exact (eraseDups_cons_of_mem h).symm
  links := by
    have hnone : linkOf? weighted [l] = none := rfl
    rw [List.append_assoc, List.filterMap_append, List.filterMap_append, List.singleton_append,
      List.filterMap_cons_none hnone]

theorem LineEdit.alike (h : LineEdit weighted line line') (before after : List (List String)) :
    Alike weighted (before ++ (contentsOf [line] ++ after))
      (before ++ (contentsOf [line'] ++ after)) := by
  rcases h.fieldsOf_eq with hfields | ⟨rfl, s, t, w, w', hfields, hfields', hw, hw'⟩
  · refine .of_eq ?_
    rw [contentsOf, contentsOf, List.map_singleton, List.map_singleton, hfields]
  · rw [contentsOf_singleton (by simp [hfields]), contentsOf_singleton (by simp [hfields']),
      hfields, hfields', ← List.append_assoc, ← List.append_assoc]
    exact alike_weight hw hw'

theorem Edit.alike (h : Edit weighted cs cs') :
    Alike weighted (contentsOf (lines cs)) (contentsOf (lines cs')) := by
  cases h with
  | line hbegins hends hline hline' hedit =>
      rw [contentsOf_begins hbegins, contentsOf_begins hbegins, contentsOf_ends hline hends,
        contentsOf_ends hline' hends]
      exact hedit.alike _ _
  | @insert before line after hbegins hline hnew =>
      rw [contentsOf_begins hbegins, contentsOf_begins hbegins, contentsOf_newline hline]
      rcases hnew with hblank | ⟨l, hl, hfields⟩
      · exact .of_eq (by rw [contentsOf_blank hblank, List.nil_append])
      · rw [contentsOf_singleton (by simp [hfields]), hfields, ← List.append_assoc]
        rw [labelsIn_eq, List.mem_eraseDups] at hl
        exact alike_known hl
  | close cs =>
      exact .of_eq (contentsOf_closed [] cs).symm

def SayTheSame (weighted : Bool) (text text' : String) : Prop :=
  Alike weighted (contentsOf (lines text.toList)) (contentsOf (lines text'.toList))

theorem Relaid.sayTheSame {text text' : String} (h : Relaid weighted text text') :
    SayTheSame weighted text text' := by
  have hequivalence := (alike_equivalence weighted).comap fun cs => contentsOf (lines cs)
  refine hequivalence.eqvGen_iff.mp (Relation.EqvGen.mono (fun cs cs' => ?_) _ _ h)
  exact Edit.alike

end Alike

/-! ## What does not show in a report -/

def Link.plain {n : Nat} (weighted : Bool) (link : Link n) : Link n :=
  { link with weight := if weighted then link.weight else none, line := 0 }

/-- An edge list without the numbers of its lines, and without weights that are not used. -/
def EdgeList.plain (weighted : Bool) (l : EdgeList) : EdgeList :=
  { l with links := l.links.map (·.plain weighted) }

def LabelledGraph.plain (weighted : Bool) (l : LabelledGraph) : LabelledGraph :=
  { l with list := l.list.plain weighted }

section Plain

variable {weighted : Bool} {files files' : Files} {source : GraphSource} {text text' : String}
  {plan : (n : Nat) → Schedule n}

theorem EdgeList.rows_plain (l : EdgeList) : (l.plain weighted).links.map (l.plain weighted).row =
    (l.links.map l.row).map (Row.plain weighted) := by
  rw [plain, List.map_map, List.map_map]
  rfl

theorem EdgeList.plain_eq {l l' : EdgeList} (h : parse text = .ok l) (h' : parse text' = .ok l')
    (hsame : SayTheSame weighted text text') : l'.plain weighted = l.plain weighted := by
  obtain ⟨hlabels, -, hrows⟩ := reads_of_parse h
  obtain ⟨hlabels', hnodup', hrows'⟩ := reads_of_parse h'
  refine eq_of_rows ?_ hnodup' ?_
  · rw [← Array.toList_inj]
    refine hlabels'.trans (Eq.trans ?_ hlabels.symm)
    rw [labelsIn_eq, labelsIn_eq, hsame.labels]
  · rw [rows_plain, rows_plain, hrows, hrows', plain_rowsIn, plain_rowsIn, hsame.links]

theorem EdgeList.weights_plain (l : EdgeList) :
    (l.plain true).links.map (·.weight) = l.links.map (·.weight) := by
  rw [plain, List.map_map]
  rfl

namespace LabelledGraph

variable {l l' : LabelledGraph}

theorem graph_plain (l : LabelledGraph) : (l.plain weighted).graph = l.graph := by
  have hends : (l.list.links.map (·.plain weighted)).map (·.ends) = l.list.links.map (·.ends) :=
    List.map_map
  exact congrArg (fun ends => (⟨l.directed, l.list.labels.size, ends.toArray⟩ : Graph)) hends

theorem betweenness_plain (l : LabelledGraph) (normalize : Bool) :
    (l.plain weighted).betweenness plan normalize = l.betweenness plan normalize := by
  unfold betweenness
  rw [graph_plain]
  rfl

theorem dominance_plain (l : LabelledGraph) (scores : VertexMap Float32 Float) :
    (l.plain weighted).dominance scores = l.dominance scores := by
  unfold dominance
  rw [graph_plain]

theorem edgeScores_plain (l : LabelledGraph) (scores : EdgeMap Float32 Float) :
    (l.plain weighted).edgeScores scores = l.edgeScores scores := by
  have hrows : (l.plain weighted).list.links.map (l.plain weighted).list.row =
      (l.list.links.map l.list.row).map (Row.plain weighted) := EdgeList.rows_plain l.list
  rw [edgeScores_eq, edgeScores_eq, hrows, List.zip_map_left, List.map_map]
  rfl

/-- What a function does not see in a graph may be different. -/
theorem congr_plain {α : Type} {f : LabelledGraph → α} (hf : ∀ l, f (l.plain weighted) = f l)
    (h : l'.plain weighted = l.plain weighted) : f l' = f l := by
  rw [← hf l', h, hf l]

theorem betweenness_congr_plain (h : l'.plain weighted = l.plain weighted) :
    l'.betweenness plan = l.betweenness plan :=
  congr_plain (f := fun l => l.betweenness plan) (fun l => funext l.betweenness_plain) h

theorem dominance_congr_plain (h : l'.plain weighted = l.plain weighted) :
    l'.dominance = l.dominance :=
  congr_plain (fun l => funext l.dominance_plain) h

theorem edgeScores_congr_plain (h : l'.plain weighted = l.plain weighted) :
    l'.edgeScores = l.edgeScores :=
  congr_plain (fun l => funext l.edgeScores_plain) h

theorem directed_congr_plain (h : l'.plain weighted = l.plain weighted) :
    l'.directed = l.directed :=
  congr_plain (fun _ => rfl) h

theorem exists_load_of_sayTheSame (htext : files.read source.file = .ok text)
    (htext' : files'.read source.file = .ok text')
    (hsame : SayTheSame source.weighted text text')
    (hload : load source files = .ok l) :
    ∃ l', load source files' = .ok l' ∧ l'.plain source.weighted = l.plain source.weighted := by
  obtain ⟨hparse, hdirected, hweights⟩ := load_eq_ok htext hload
  have hgood := parse_ok_iff.mp ⟨_, hparse⟩
  rw [acceptable_iff_allowed, hsame.allowed, ← acceptable_iff_allowed] at hgood
  obtain ⟨list, hparse'⟩ := parse_ok_iff.mpr hgood
  have hplain := EdgeList.plain_eq hparse hparse' hsame
  obtain ⟨list₀, directed, weights⟩ := l
  refine ⟨⟨list, directed, weights⟩, ?_, ?_⟩
  · obtain rfl : directed = !source.undirected := hdirected
    unfold load
    rw [htext', Except.mapError]
    simp only [bind, Except.bind]
    rw [hparse', Except.mapError]
    unfold Weighs at hweights
    dsimp only at hweights ⊢
    split at hweights
    · rename_i hweighted
      obtain ⟨ws, hws, rfl⟩ := hweights
      have hlinks : list.links.map (·.weight) = ws.map some := by
        rw [hweighted] at hplain
        rw [← hws, ← (EdgeList.reads_of_parse hparse).2.2, ← EdgeList.weights_plain list, hplain,
          EdgeList.weights_plain, List.map_map]
        rfl
      have hmap : list.weightMap = .ok ⟨.double ws.toArray⟩ :=
        EdgeList.weightMap_eq_ok_iff.mpr ⟨ws, hlinks, rfl⟩
      rw [if_pos hweighted, hmap]
      rfl
    · rename_i hweighted
      rw [if_neg hweighted, hweights]
      rfl
  · unfold plain
    dsimp only
    rw [hplain]

end LabelledGraph

/-- A graph may be replaced by one that only differs in what does not show. -/
theorem betweennessReport_of_plain {l l' : LabelledGraph} {normalize edges dominance : Bool}
    (hload : LabelledGraph.load source files = .ok l)
    (hload' : LabelledGraph.load source files' = .ok l')
    (hplain : l'.plain weighted = l.plain weighted) :
    betweennessReport plan files' source normalize edges dominance =
      betweennessReport plan files source normalize edges dominance := by
  have hvertices : l'.vertexScores = l.vertexScores :=
    LabelledGraph.congr_plain (fun _ => rfl) hplain
  unfold betweennessReport
  rw [hload, hload']
  simp only [bind, Except.bind, hvertices, LabelledGraph.betweenness_congr_plain hplain,
    LabelledGraph.dominance_congr_plain hplain, LabelledGraph.edgeScores_congr_plain hplain,
    LabelledGraph.directed_congr_plain hplain]

theorem dominanceReport_of_plain {l l' : LabelledGraph}
    (hload : LabelledGraph.load source files = .ok l)
    (hload' : LabelledGraph.load source files' = .ok l')
    (hplain : l'.plain weighted = l.plain weighted) :
    dominanceReport plan files' source = dominanceReport plan files source := by
  have hcount : l'.list.labels.size = l.list.labels.size :=
    LabelledGraph.congr_plain (f := fun l => l.list.labels.size) (fun _ => rfl) hplain
  unfold dominanceReport
  rw [hload, hload']
  simp only [bind, Except.bind, hcount, LabelledGraph.betweenness_congr_plain hplain,
    LabelledGraph.dominance_congr_plain hplain, LabelledGraph.directed_congr_plain hplain]

end Plain

/-! ## Runs -/

section Runs

variable {plan : (n : Nat) → Schedule n} {s s' : Surroundings} {source : GraphSource}
  {text text' out : String} {options : Options} {mode : OutputMode} {command : Command}

theorem exists_load_of_report (hsource : command.source? = some source)
    (h : command.report plan s options mode = .ok out) :
    ∃ l, LabelledGraph.load source s.files = .ok l := by
  cases command with
  | betweenness source' normalize raw edges dominance =>
      obtain rfl : source' = source := Option.some.inj hsource
      unfold Command.report at h
      obtain ⟨settings, -, h⟩ := bind_eq_ok_iff.mp h
      obtain ⟨r, hr, -⟩ := bind_eq_ok_iff.mp h
      obtain ⟨l, hload, -⟩ := bind_eq_ok_iff.mp hr
      exact ⟨l, hload⟩
  | dominance source' =>
      obtain rfl : source' = source := Option.some.inj hsource
      unfold Command.report at h
      obtain ⟨settings, -, h⟩ := bind_eq_ok_iff.mp h
      obtain ⟨r, hr, -⟩ := bind_eq_ok_iff.mp h
      obtain ⟨l, hload, -⟩ := bind_eq_ok_iff.mp hr
      exact ⟨l, hload⟩
  | completions shell => cases hsource

/-- A report sees of its graph what shows. -/
theorem report_of_plain {l l' : LabelledGraph} (hsource : command.source? = some source)
    (hsettings : Settings.resolve options.config s' = Settings.resolve options.config s)
    (hload : LabelledGraph.load source s.files = .ok l)
    (hload' : LabelledGraph.load source s'.files = .ok l')
    (hplain : l'.plain source.weighted = l.plain source.weighted) :
    command.report plan s' options mode = command.report plan s options mode := by
  cases command with
  | betweenness source' normalize raw edges dominance =>
      obtain rfl : source' = source := Option.some.inj hsource
      simp only [Command.report, hsettings, betweennessReport_of_plain hload hload' hplain]
  | dominance source' =>
      obtain rfl : source' = source := Option.some.inj hsource
      simp only [Command.report, hsettings, dominanceReport_of_plain hload hload' hplain]
  | completions shell => rfl

theorem report_of_sayTheSame (hsource : command.source? = some source)
    (hsettings : Settings.resolve options.config s' = Settings.resolve options.config s)
    (htext : s.files.read source.file = .ok text)
    (htext' : s'.files.read source.file = .ok text')
    (hsame : SayTheSame source.weighted text text')
    (h : command.report plan s options mode = .ok out) :
    command.report plan s' options mode = .ok out := by
  obtain ⟨l, hload⟩ := exists_load_of_report hsource h
  obtain ⟨l', hload', hplain⟩ := LabelledGraph.exists_load_of_sayTheSame htext htext' hsame hload
  rw [report_of_plain hsource hsettings hload hload' hplain, h]

/-- With a graph that is laid out differently a run succeeds as before and puts out the same. -/
theorem run_relaid (plan : (n : Nat) → Schedule n) (s s' : Surroundings) (i : Invocation)
    {source : GraphSource} {text text' : String} (hsource : i.command.source? = some source)
    (hmode : s'.mode i.options = s.mode i.options)
    (hsettings : Settings.resolve i.options.config s' = Settings.resolve i.options.config s)
    (htext : s.files.read source.file = .ok text) (htext' : s'.files.read source.file = .ok text')
    (hrelaid : Relaid source.weighted text text') :
    (i.run plan s').stdout = (i.run plan s).stdout ∧
      (i.run plan s').exitCode = (i.run plan s).exitCode := by
  have hsame := hrelaid.sayTheSame
  have hsame' : SayTheSame source.weighted text' text :=
    (alike_equivalence source.weighted).symm hsame
  cases hreport : i.command.report plan s i.options (s.mode i.options) with
  | ok out =>
      have hreport' := report_of_sayTheSame hsource hsettings htext htext' hsame hreport
      rw [← hmode] at hreport'
      rw [Invocation.run_of_ok hreport, Invocation.run_of_ok hreport']
      exact ⟨rfl, rfl⟩
  | error e =>
      cases hreport' : i.command.report plan s' i.options (s'.mode i.options) with
      | ok out =>
          have hback := report_of_sayTheSame hsource hsettings.symm htext' htext hsame' hreport'
          rw [hmode, hreport] at hback
          cases hback
      | error e' =>
          rw [Invocation.run_of_error hreport, Invocation.run_of_error hreport']
          exact ⟨rfl, rfl⟩

end Runs

/-- A weight is replaced, a comment is put in front and a known vertex behind. -/
theorem relaid_road : Relaid false "a b 1\n" "# road\na\t b nan\nb\r\n" := by
  have hliteral : ∀ w, (Decimal.double? w).isSome = true → Decimal.Literal w := fun w hw => by
    by_contra hnone
    rw [Decimal.double?_eq_none_iff.mpr hnone] at hw
    cases hw
  have hweight : Edit false ([] ++ ("a b 1".toList ++ ['\n']))
      ([] ++ ("a\t b nan".toList ++ ['\n'])) :=
    .line (.inl rfl) (.inr ⟨[], rfl⟩) (by decide) (by decide)
      (.weight (s := "a") (t := "b") rfl (by decide +kernel) (by decide +kernel)
        (.inr ⟨"1", rfl, hliteral _ (by decide +kernel)⟩)
        (.inr ⟨"nan", rfl, hliteral _ (by decide +kernel)⟩))
  have hcomment : Edit false ([] ++ "a\t b nan\n".toList)
      ([] ++ ("# road".toList ++ '\n' :: "a\t b nan\n".toList)) :=
    .insert _ (.inl rfl) (by decide) (.inl (by decide +kernel))
  have hknown : Edit false ("# road\na\t b nan\n".toList ++ [])
      ("# road\na\t b nan\n".toList ++ ("b\r".toList ++ '\n' :: [])) :=
    .insert _ (.inr ⟨"# road\na\t b nan".toList, by decide⟩) (by decide)
      (.inr ⟨"b", by decide +kernel, by decide +kernel⟩)
  exact .trans _ _ _ (.rel _ _ hweight) (.trans _ _ _ (.rel _ _ hcomment) (.rel _ _ hknown))

theorem run_relaid_road :
    let source : GraphSource := ⟨"road", false, false⟩
    let i : Invocation := ⟨⟨false, none, none, none⟩, .betweenness source false false true true⟩
    Relaid false "a b 1\n" "# road\na\t b nan\nb\r\n" ∧
    (i.run Schedule.sequential (surroundedBy "# road\na\t b nan\nb\r\n")).stdout =
      (i.run Schedule.sequential (surroundedBy "a b 1\n")).stdout ∧
    (i.run Schedule.sequential (surroundedBy "# road\na\t b nan\nb\r\n")).exitCode = 0 := by
  intro source i
  obtain ⟨hstdout, hexit⟩ := run_relaid Schedule.sequential (surroundedBy "a b 1\n")
    (surroundedBy "# road\na\t b nan\nb\r\n") i rfl rfl rfl
    (read_surroundedBy ..) (read_surroundedBy ..) relaid_road
  refine ⟨relaid_road, hstdout, hexit.trans ?_⟩
  decide +kernel

end Geodesic
