import Geodesic.Proofs.ReadBack

/-!
# Columns of the vertex table

The width of the label column is counted in bytes and lines are filled up by characters. The columns
line up all the same, since a text never has fewer bytes than characters.
-/

namespace Geodesic

/-! ## Widths and padding -/

namespace Text

theorem length_le_utf8ByteSize (s : String) : s.length ≤ s.utf8ByteSize := by
  induction s using String.push_induction with
  | empty => exact Nat.le_refl 0
  | push s c ih =>
      have hc := c.utf8Size_pos
      rw [String.length_push, String.utf8ByteSize_push]
      omega

theorem toList_pushn (s : String) (c : Char) (k : Nat) :
    (s.pushn c k).toList = s.toList ++ List.replicate k c := by
  rw [String.pushn_eq_repeat_push]
  induction k with
  | zero => exact (List.append_nil _).symm
  | succ k ih => rw [Nat.repeat, String.toList_push, ih, List.replicate_succ', List.append_assoc]

def blanks (k : Nat) : String :=
  String.ofList (List.replicate k ' ')

theorem padRight_eq (width : Nat) (s : String) :
    padRight width s = s ++ blanks (width - s.length) := by
  apply String.toList_injective
  rw [padRight, toList_pushn, String.toList_append, blanks, String.toList_ofList]

theorem noNewline_blanks (k : Nat) : '\n' ∉ (blanks k).toList := by
  rw [blanks, String.toList_ofList]
  intro h
  exact absurd (List.eq_of_mem_replicate h) (by decide)

end Text

/-! ## Lines of the table -/

/-- A line with the whole label at its start, then at least two blanks, then from `column` on the
score. It stays one line unless the label is broken. -/
structure ShownAt (column : Nat) (label score line : String) : Prop where
  split : ∃ gap, 2 ≤ gap ∧ label.length + gap = column ∧ line = label ++ Text.blanks gap ++ score
  oneLine : '\n' ∉ label.toList → '\n' ∉ line.toList

namespace BetweennessReport

variable (r : BetweennessReport) (places : Nat)

theorem le_foldl_labelSize (vertices : List VertexScore) (w : Nat) :
    w ≤ vertices.foldl (fun w v => max w v.label.utf8ByteSize) w ∧
      ∀ v ∈ vertices,
        v.label.utf8ByteSize ≤ vertices.foldl (fun w v => max w v.label.utf8ByteSize) w := by
  induction vertices generalizing w with
  | nil => exact ⟨Nat.le_refl w, by simp⟩
  | cons v vertices ih =>
      obtain ⟨hw, hvertices⟩ := ih (max w v.label.utf8ByteSize)
      rw [List.foldl_cons]
      exact ⟨by omega, List.forall_mem_cons.mpr ⟨by omega, hvertices⟩⟩

theorem length_labelTitle_le : labelTitle.length ≤ r.labelWidth :=
  Nat.le_trans (Text.length_le_utf8ByteSize _) (le_foldl_labelSize r.vertices _).1

theorem length_label_le {v : VertexScore} (h : v ∈ r.vertices) :
    v.label.length ≤ r.labelWidth :=
  Nat.le_trans (Text.length_le_utf8ByteSize _) ((le_foldl_labelSize r.vertices _).2 v h)

theorem shownAt_tableLine {label score : String} (hlabel : label.length ≤ r.labelWidth)
    (hscore : '\n' ∉ score.toList) :
    ShownAt (r.labelWidth + 2) label score (r.tableLine label score) := by
  have hline : r.tableLine label score =
      label ++ Text.blanks (r.labelWidth - label.length + 2) ++ score := by
    unfold tableLine
    rw [Text.padRight_eq]
    simp [Text.blanks, List.replicate_add, String.append_assoc]
  refine ⟨⟨_, by omega, by omega, hline⟩, fun h => ?_⟩
  rw [hline, String.toList_append, String.toList_append, List.mem_append, List.mem_append]
  rintro ((hl | hb) | hs)
  · exact h hl
  · exact Text.noNewline_blanks _ hb
  · exact hscore hs

/-- In the table of vertices the word "score" and all scores start at one column, counted in
characters. No label is cut, and at least two blanks keep it from its score. -/
theorem pretty_lines_up :
    ∃ before header rows after,
      r.render places .pretty = Text.unlines
        (before ++ Text.titled "Vertex betweenness" ++ header :: rows ++ after) ∧
      ShownAt (r.labelWidth + 2) "vertex" "score" header ∧
      List.Forall₂
        (fun v => ShownAt (r.labelWidth + 2) v.label (Decimal.fixed places v.betweenness))
        r.vertices rows := by
  have hlines : ∃ before after, r.prettyLines places = before ++ r.vertexTable places ++ after := by
    unfold prettyLines
    rw [List.append_assoc]
    exact ⟨_, _, rfl⟩
  obtain ⟨before, after, hlines⟩ := hlines
  refine ⟨before, r.tableLine "vertex" "score",
    r.vertices.map fun v => r.tableLine v.label (Decimal.fixed places v.betweenness), after,
    ?_, ?_, ?_⟩
  · rw [List.append_assoc before]
    exact congrArg Text.unlines hlines
  · exact r.shownAt_tableLine r.length_labelTitle_le (by decide)
  · rw [List.forall₂_map_right_iff, List.forall₂_same]
    intro v hv
    exact r.shownAt_tableLine (r.length_label_le hv) (Decimal.isCell_fixed _ _).noNewline

end BetweennessReport

/-- Nine bytes and three characters in one label, one of each in the other. -/
example :
    BetweennessReport.vertexTable ⟨true, false, false, [⟨"日本語", 2.0⟩, ⟨"x", 10.0⟩], none, none⟩ 1 =
      ["Vertex betweenness", "------------------------------------------------",
        "vertex     score", "日本語        2.0", "x          10.0"] := by
  decide +kernel

end Geodesic
