import Geodesic.EdgeList
import Geodesic.Proofs.FirstFault
import Geodesic.Proofs.Numeral
import Mathlib.Data.List.Forall2
import Mathlib.Data.List.Nodup

/-!
# What an edge list describes

A text is an edge list when every line has at most two fields, or a number as its third. The labels
are then those of the text in the order of their first appearance, and every line with two or three
fields is an edge between two of them.
-/

namespace Geodesic

/-! ## Lines -/

def fieldsOf (line : List Char) : List String :=
  (Text.fields (Entry.content line)).map String.ofList

def labelFields (line : List Char) : List String :=
  (fieldsOf line).take 2

def Acceptable (line : List Char) : Prop :=
  (fieldsOf line).length ≤ 2 ∨ ∃ s t w, fieldsOf line = [s, t, w] ∧ Decimal.Literal w.toList

structure Row where
  source : String
  target : String
  weight : Option Float
  line : Nat
deriving DecidableEq

def rowOf? (line : List Char × Nat) : Option Row :=
  match fieldsOf line.1 with
  | [s, t] => some ⟨s, t, none, line.2⟩
  | [s, t, w] => some ⟨s, t, Decimal.double? w.toList, line.2⟩
  | _ => none

/-- The labels of some lines, each where it appears first. -/
def labelsIn (lines : List (List Char)) : List String :=
  (lines.flatMap labelFields).eraseDups

/-- The edges of some lines, which are numbered from one. -/
def rowsIn (lines : List (List Char)) : List Row :=
  (lines.zipIdx 1).filterMap rowOf?

inductive LineFault (line : List Char × Nat) : InputError → Prop
  | fieldCount : 4 ≤ (fieldsOf line.1).length →
      LineFault line (.fieldCount line.2 (fieldsOf line.1).length)
  | invalidWeight {s t w : String} : fieldsOf line.1 = [s, t, w] → ¬ Decimal.Literal w.toList →
      LineFault line (.invalidWeight line.2 w)

theorem exists_lineFault_iff {line : List Char × Nat} :
    (∃ e, LineFault line e) ↔ ¬ Acceptable line.1 := by
  constructor
  · rintro ⟨e, he⟩ hacceptable
    cases he with
    | fieldCount hcount =>
        rcases hacceptable with hle | ⟨s, t, w, hfields, -⟩
        · omega
        · rw [hfields] at hcount
          simp at hcount
    | invalidWeight hfields hliteral =>
        rcases hacceptable with hle | ⟨s', t', w', hfields', hliteral'⟩
        · rw [hfields] at hle
          simp at hle
        · rw [hfields] at hfields'
          simp_all
  · intro h
    rw [Acceptable, not_or, not_le] at h
    obtain ⟨hlong, hliteral⟩ := h
    obtain hcount | hthree : 4 ≤ (fieldsOf line.1).length ∨ (fieldsOf line.1).length = 3 := by omega
    · exact ⟨_, .fieldCount hcount⟩
    · obtain ⟨s, t, w, hfields⟩ := List.length_eq_three.mp hthree
      exact ⟨_, .invalidWeight hfields fun hw => hliteral ⟨s, t, w, hfields, hw⟩⟩

theorem faultless_lineFault_iff {lines : List (List Char)} {k : Nat} :
    Faultless LineFault (lines.zipIdx k) ↔ ∀ line ∈ lines, Acceptable line := by
  simp only [Faultless, ← not_exists, exists_lineFault_iff, not_not]
  conv_rhs => rw [← List.zipIdx_map_fst k lines]
  rw [List.forall_mem_map]

namespace Entry

def labels : Entry → List String
  | nothing => []
  | vertex l => [l]
  | link s t _ => [s, t]

def row? (line : Nat) : Entry → Option Row
  | link s t w => some ⟨s, t, w, line⟩
  | _ => none

end Entry

inductive LineReads (cs : List Char) (k : Nat) : Except InputError Entry → Prop
  | nothing : fieldsOf cs = [] → LineReads cs k (.ok .nothing)
  | vertex {l : String} : fieldsOf cs = [l] → LineReads cs k (.ok (.vertex l))
  | plain {s t : String} : fieldsOf cs = [s, t] → LineReads cs k (.ok (.link s t none))
  | weighted {s t w : String} {x : Float} : fieldsOf cs = [s, t, w] →
      Decimal.double? w.toList = some x → LineReads cs k (.ok (.link s t (some x)))
  | invalidWeight {s t w : String} : fieldsOf cs = [s, t, w] → Decimal.double? w.toList = none →
      LineReads cs k (.error (.invalidWeight k w))
  | fieldCount : 4 ≤ (fieldsOf cs).length →
      LineReads cs k (.error (.fieldCount k (fieldsOf cs).length))

theorem lineReads_ofLine (cs : List Char) (k : Nat) : LineReads cs k (Entry.ofLine k cs) := by
  unfold Entry.ofLine
  have hfields : fieldsOf cs = (Text.fields (Entry.content cs)).map String.ofList := rfl
  generalize Text.fields (Entry.content cs) = fs at *
  rcases fs with _ | ⟨s, _ | ⟨t, _ | ⟨w, _ | ⟨f, fs⟩⟩⟩⟩
  · exact .nothing hfields
  · exact .vertex hfields
  · exact .plain hfields
  · have hchars : (String.ofList w).toList = w := String.toList_ofList
    simp only [Entry.ofFields]
    split
    · rename_i x hx
      exact .weighted hfields (hchars.symm ▸ hx)
    · rename_i hx
      exact .invalidWeight hfields (hchars.symm ▸ hx)
  · have hcount : (fieldsOf cs).length = (s :: t :: w :: f :: fs).length := by
      rw [hfields, List.length_map]
    have hfault : LineReads cs k _ := .fieldCount (by rw [hcount]; simp)
    rwa [hcount] at hfault

theorem ofLine_eq_error_iff {cs : List Char} {k : Nat} {e : InputError} :
    Entry.ofLine k cs = .error e ↔ LineFault (cs, k) e := by
  have hreads := lineReads_ofLine cs k
  constructor
  · intro h
    rw [h] at hreads
    cases hreads with
    | invalidWeight hfields hx => exact .invalidWeight hfields (Decimal.double?_eq_none_iff.mp hx)
    | fieldCount hcount => exact .fieldCount hcount
  · intro hfault
    generalize Entry.ofLine k cs = read at *
    cases hfault with
    | fieldCount hcount =>
        cases hreads with
        | fieldCount => rfl
        | nothing hfields | vertex hfields | plain hfields | weighted hfields
          | invalidWeight hfields => simp [hfields] at hcount
    | @invalidWeight s t w hfields' hliteral =>
        rw [← Decimal.double?_eq_none_iff] at hliteral
        cases hreads with
        | fieldCount hcount => simp [hfields'] at hcount
        | nothing hfields | vertex hfields | plain hfields => simp [hfields] at hfields'
        | weighted hfields hx => simp_all
        | invalidWeight hfields => simp_all

theorem row?_of_ofLine {cs : List Char} {k : Nat} {entry : Entry}
    (h : Entry.ofLine k cs = .ok entry) :
    entry.labels = labelFields cs ∧ entry.row? k = rowOf? (cs, k) := by
  have hreads := lineReads_ofLine cs k
  rw [h] at hreads
  cases hreads with
  | nothing hfields => simp [Entry.labels, Entry.row?, labelFields, rowOf?, hfields]
  | vertex hfields => simp [Entry.labels, Entry.row?, labelFields, rowOf?, hfields]
  | plain hfields => simp [Entry.labels, Entry.row?, labelFields, rowOf?, hfields]
  | weighted hfields hx => simp [Entry.labels, Entry.row?, labelFields, rowOf?, hfields, hx]

/-! ## Labels -/

theorem eraseDups_concat_of_mem {ls : List String} {l : String} (h : l ∈ ls) :
    (ls ++ [l]).eraseDups = ls.eraseDups := by
  simp [List.eraseDups_append, List.removeAll, h]

theorem eraseDups_concat_of_not_mem {ls : List String} {l : String} (h : l ∉ ls) :
    (ls ++ [l]).eraseDups = ls.eraseDups ++ [l] := by
  simp [List.eraseDups_append, List.removeAll, h, List.eraseDups_cons]

namespace Interner

variable {t : Interner} {l : String}

theorem lookup_isSome_iff : (∃ i, t.index.lookup l = some i) ↔ l ∈ t.labels.toList := by
  simp only [t.inverse, List.mem_iff_getElem?, Array.getElem?_toList]

/-- No label has two numbers, because the index knows one. -/
theorem nodup_labels (t : Interner) : t.labels.toList.Nodup := by
  rw [List.nodup_iff_injective_get]
  intro i j heq
  have hget : ∀ i : Fin t.labels.toList.length,
      t.index.lookup (t.labels.toList.get i) = some i.val := fun i => by
    rw [t.inverse]
    simp
  have hsame := hget i
  rw [heq, hget j] at hsame
  exact Fin.ext (Option.some.inj hsame).symm

/-- A label that is met again changes nothing, a new one comes last. -/
theorem labels_intern {ls : List String} (h : t.labels.toList = ls.eraseDups) :
    (t.intern l).1.labels.toList = (ls ++ [l]).eraseDups := by
  have hknown := lookup_isSome_iff (t := t) (l := l)
  rw [h, List.mem_eraseDups] at hknown
  unfold intern
  split
  · rename_i i hi
    rw [eraseDups_concat_of_mem (hknown.mp ⟨i, hi⟩)]
    exact h
  · rename_i hnew
    have hl : l ∉ ls := fun hl => by
      obtain ⟨i, hi⟩ := hknown.mpr hl
      rw [hnew] at hi
      cases hi
    simp [eraseDups_concat_of_not_mem hl, add, h]

end Interner

/-! ## Reading -/

structure Record.Names (labels : Array String) (r : Record) (row : Row) : Prop where
  source : labels[r.source]? = some row.source
  target : labels[r.target]? = some row.target
  weight : r.weight = row.weight
  line : r.line = row.line

structure Reading.Holds (s : Reading) (ls : List String) (rows : List Row) : Prop where
  labels : s.interner.labels.toList = ls.eraseDups
  records : List.Forall₂ (Record.Names s.interner.labels) s.records.toList rows

namespace Reading

variable {s s' : Reading} {ls : List String} {rows : List Row}

theorem holds_start : start.Holds [] [] :=
  ⟨rfl, .nil⟩

theorem Holds.intern (h : s.Holds ls rows) (l : String) : (s.intern l).Holds (ls ++ [l]) rows where
  labels := Interner.labels_intern h.labels
  records := h.records.imp fun _ _ hr => {
    source := Interner.getElem?_intern_of_some hr.source l
    target := Interner.getElem?_intern_of_some hr.target l
    weight := hr.weight
    line := hr.line }

theorem Holds.link (h : s.Holds ls rows) (a b : String) (w : Option Float) (k : Nat) :
    (s.link a b w k).Holds (ls ++ [a, b]) (rows ++ [⟨a, b, w, k⟩]) := by
  have hinterned := (h.intern a).intern b
  have hlabels : (s.link a b w k).interner.labels = ((s.intern a).intern b).interner.labels := rfl
  constructor
  · rw [hlabels, hinterned.labels, List.append_assoc]
    rfl
  · rw [hlabels]
    show List.Forall₂ _ (Array.push _ _).toList _
    rw [Array.toList_push]
    refine List.rel_append hinterned.records (.cons ?_ .nil)
    exact {
      source := Interner.getElem?_intern_of_some (s.interner.getElem?_intern a) b
      target := (s.intern a).interner.getElem?_intern b
      weight := rfl
      line := rfl }

theorem Holds.add (h : s.Holds ls rows) (k : Nat) (entry : Entry) :
    (s.add k entry).Holds (ls ++ entry.labels) (rows ++ (entry.row? k).toList) := by
  cases entry with
  | nothing => simpa [Reading.add, Entry.labels, Entry.row?] using h
  | vertex l => simpa [Reading.add, Entry.labels, Entry.row?] using h.intern l
  | link a b w => exact h.link a b w k

/-- What is read from further lines comes behind what has been read. -/
theorem Holds.readLines {k : Nat} {lines : List (List Char)} (h : s.Holds ls rows)
    (hread : s.readLines k lines = .ok s') :
    s'.Holds (ls ++ lines.flatMap labelFields) (rows ++ (lines.zipIdx k).filterMap rowOf?) := by
  induction lines generalizing s ls rows k with
  | nil =>
      obtain rfl := Except.ok.inj hread
      simpa using h
  | cons cs lines ih =>
      obtain ⟨entry, hentry, hrest⟩ := bind_eq_ok_iff.mp hread
      obtain ⟨hlabels, hrow⟩ := row?_of_ofLine hentry
      have hnext := ih (h.add k entry) hrest
      rw [hlabels, hrow] at hnext
      rw [List.flatMap_cons, List.zipIdx_cons, List.filterMap_cons]
      cases hcase : rowOf? (cs, k) with
      | none => simpa [hcase] using hnext
      | some row => simpa [hcase] using hnext

theorem reports_readLines (s : Reading) (k : Nat) (lines : List (List Char)) :
    Reports LineFault (lines.zipIdx k) (s.readLines k lines) := by
  induction lines generalizing s k with
  | nil => exact Reports.ok s
  | cons cs lines ih =>
      rw [List.zipIdx_cons]
      have hline : Reports LineFault [(cs, k)] (Entry.ofLine k cs) :=
        Reports.check fun e => ofLine_eq_error_iff
      exact hline.bind fun entry _ => ih (s.add k entry) (k + 1)

end Reading

/-! ## Edge lists -/

namespace EdgeList

def row (l : EdgeList) (link : Link l.labels.size) : Row :=
  ⟨l.labels[link.ends.source], l.labels[link.ends.target], link.weight, link.line⟩

theorem row_toLink {s : Reading} {r : Record} {row : Row} (h : r.Names s.interner.labels row)
    (hwithin : r.Within (ofReading s).labels.size) : (ofReading s).row (r.toLink hwithin) = row := by
  obtain ⟨source, target, weight, line⟩ := row
  obtain ⟨hsource, htarget, rfl, rfl⟩ := h
  rw [Array.getElem?_eq_some_iff] at hsource htarget
  obtain ⟨_, rfl⟩ := hsource
  obtain ⟨_, rfl⟩ := htarget
  rfl

theorem rows_ofReading {s : Reading} {ls : List String} {rows : List Row} (h : s.Holds ls rows) :
    (ofReading s).links.map (ofReading s).row = rows := by
  have hrecords := h.records
  rw [← List.attach_map_subtype_val s.records.toList, List.forall₂_map_left_iff] at hrecords
  have hrows := hrecords.imp fun r row hr =>
    row_toLink hr (s.within r.val (Array.mem_toList_iff.mp r.property))
  rw [← List.forall₂_eq_eq_eq, ofReading, List.map_map, List.forall₂_map_left_iff]
  exact hrows

inductive Unweighted {n : Nat} (link : Link n) : InputError → Prop
  | missing : link.weight = none → Unweighted link (.missingWeight link.line)

theorem weightOf_eq_error_iff {n : Nat} {link : Link n} {e : InputError} :
    weightOf link = .error e ↔ Unweighted link e := by
  unfold weightOf
  constructor
  · intro h
    split at h
    · cases h
    · rename_i hnone
      obtain rfl := Except.error.inj h
      exact .missing hnone
  · rintro ⟨hnone⟩
    rw [hnone]

theorem weightOf_eq_ok_iff {n : Nat} {link : Link n} {w : Float} :
    weightOf link = .ok w ↔ link.weight = some w := by
  unfold weightOf
  split <;> simp_all

theorem mapM_weightOf_eq_ok_iff {n : Nat} {links : List (Link n)} {ws : List Float} :
    links.mapM weightOf = .ok ws ↔ links.map (·.weight) = ws.map some := by
  induction links generalizing ws with
  | nil =>
      have hnil : (pure [] : Except InputError (List Float)) = .ok [] := rfl
      rw [List.mapM_nil, hnil, Except.ok.injEq, List.map_nil, List.nil_eq, List.nil_eq,
        List.map_eq_nil_iff]
  | cons link links ih =>
      rw [List.mapM_cons, bind_eq_ok_iff]
      simp only [weightOf_eq_ok_iff, bind_eq_ok_iff, ih]
      constructor
      · rintro ⟨w, hw, ws', hws, h⟩
        obtain rfl := Except.ok.inj h
        simp [hw, hws]
      · intro h
        obtain ⟨w, ws', rfl, hw, hws⟩ := List.map_eq_cons_iff.mp h.symm
        exact ⟨w, hw.symm, ws', hws.symm, rfl⟩

variable {l : EdgeList}

theorem weightMap_eq_ok_iff {m : EdgeMap Float32 Float} : l.weightMap = .ok m ↔
    ∃ ws : List Float, l.links.map (·.weight) = ws.map some ∧ m = ⟨.double ws.toArray⟩ := by
  rw [weightMap, map_eq_ok_iff]
  simp only [weights, mapM_weightOf_eq_ok_iff, eq_comm (b := m)]

theorem reports_weightMap : Reports Unweighted l.links l.weightMap :=
  (Reports.mapM fun _ _ _ => weightOf_eq_error_iff).map _

/-! ## Texts -/

theorem reports_parse (text : String) :
    Reports LineFault ((Text.lines text.toList).zipIdx 1) (parse text) :=
  (Reading.start.reports_readLines 1 _).map ofReading

theorem reads_of_parse {text : String} (h : parse text = .ok l) :
    l.labels.toList = labelsIn (Text.lines text.toList) ∧ l.labels.toList.Nodup ∧
      l.links.map l.row = rowsIn (Text.lines text.toList) := by
  obtain ⟨s, hread, rfl⟩ := map_eq_ok_iff.mp h
  have hholds := Reading.holds_start.readLines hread
  exact ⟨hholds.labels, s.interner.nodup_labels, rows_ofReading hholds⟩

/-- A text is read line by line, and the first bad line is reported. Otherwise the labels are those
of the text in the order of their first appearance, and the edges those of its lines. Weights are
there if every edge has one; or else the first edge without one is reported. -/
theorem parse_describes (text : String) :
    let lines := Text.lines text.toList
    (∀ e, parse text = .error e ↔ FirstFault LineFault (lines.zipIdx 1) e) ∧
    ((∃ l, parse text = .ok l) ↔ ∀ line ∈ lines, Acceptable line) ∧
    ∀ l, parse text = .ok l →
      (l.labels.toList = labelsIn lines ∧ l.labels.toList.Nodup) ∧
      l.links.map l.row = rowsIn lines ∧
      (∀ e, l.weightMap = .error e ↔ FirstFault Unweighted l.links e) ∧
      ∀ m, l.weightMap = .ok m ↔
        ∃ ws : List Float, l.links.map (·.weight) = ws.map some ∧ m = ⟨.double ws.toArray⟩ := by
  have hreports := reports_parse text
  refine ⟨hreports, ?_, fun l hl => ?_⟩
  · rw [hreports.exists_ok_iff, faultless_lineFault_iff]
  · obtain ⟨hlabels, hnodup, hrows⟩ := reads_of_parse hl
    exact ⟨⟨hlabels, hnodup⟩, hrows, reports_weightMap, fun m => weightMap_eq_ok_iff⟩

end EdgeList

end Geodesic
