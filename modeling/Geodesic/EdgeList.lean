import Geodesic.Decimal.Numeral
import Geodesic.Property.Map
import Geodesic.Text.Blank
import Geodesic.Text.Lines

/-!
# Edge lists

A text with one edge per line: `SOURCE TARGET [WEIGHT]`. A line with a single label declares a
vertex, and a `#` starts a comment. Vertices are numbered in the order in which their labels appear,
edges in the order of their lines.

A text is read line by line. The labels met so far are kept with their numbers, so that an edge can
be recorded as soon as its line is read.
-/

namespace Geodesic

/-- Why an edge list cannot be used; lines are counted from one. -/
inductive InputError where
  | fieldCount (line fields : Nat)
  | invalidWeight (line : Nat) (token : String)
  | missingWeight (line : Nat)
deriving DecidableEq, Repr

namespace InputError

def line : InputError → Nat
  | fieldCount k _ => k
  | invalidWeight k _ => k
  | missingWeight k => k

def problem : InputError → String
  | fieldCount _ n => "expected `SOURCE TARGET [WEIGHT]`, found " ++ toString n ++ " fields"
  | invalidWeight _ token => "invalid weight `" ++ token ++ "`"
  | missingWeight _ => "edge has no weight but --weighted was given"

def message (e : InputError) : String :=
  "line " ++ toString e.line ++ ": " ++ e.problem

end InputError

/-! ## Lines -/

inductive Entry where
  | nothing
  /-- A vertex by itself. -/
  | vertex (label : String)
  | link (source target : String) (weight : Option Float)
deriving DecidableEq

namespace Entry

def content (line : List Char) : List Char :=
  line.takeWhile (· ≠ '#')

def ofFields (line : Nat) : List (List Char) → Except InputError Entry
  | [] => .ok nothing
  | [l] => .ok (vertex (String.ofList l))
  | [s, t] => .ok (link (String.ofList s) (String.ofList t) none)
  | [s, t, w] =>
      match Decimal.double? w with
      | some x => .ok (link (String.ofList s) (String.ofList t) (some x))
      | none => .error (.invalidWeight line (String.ofList w))
  | fs => .error (.fieldCount line fs.length)

def ofLine (line : Nat) (cs : List Char) : Except InputError Entry :=
  ofFields line (Text.fields (content cs))

end Entry

/-! ## Numbered labels -/

/-- Labels in the order in which they came, and the number of each. -/
structure Interner where
  labels : Array String
  index : List (String × Nat)
  /-- The index leads from every label to its place, and from nothing else. -/
  inverse : ∀ l i, index.lookup l = some i ↔ labels[i]? = some l

namespace Interner

def empty : Interner where
  labels := #[]
  index := []
  inverse := by simp

def add (t : Interner) (l : String) (hnew : t.index.lookup l = none) : Interner where
  labels := t.labels.push l
  index := (l, t.labels.size) :: t.index
  inverse := by
    intro m i
    have hold := t.inverse m i
    rw [List.lookup_cons, Array.getElem?_push]
    by_cases hm : m = l
    · subst hm
      have hfresh : t.labels[i]? ≠ some m := by simp [← hold, hnew]
      by_cases hi : i = t.labels.size
      · simp [hi]
      · simp [hi, Ne.symm hi, hfresh]
    · have hother : (m == l) = false := by simpa using hm
      by_cases hi : i = t.labels.size
      · subst hi
        simp [hother, Ne.symm hm, hold]
      · simp [hother, hi, hold]

def intern (t : Interner) (l : String) : Interner × Nat :=
  match hnew : t.index.lookup l with
  | some i => (t, i)
  | none => (t.add l hnew, t.labels.size)

theorem getElem?_intern (t : Interner) (l : String) :
    (t.intern l).1.labels[(t.intern l).2]? = some l := by
  unfold intern
  split
  next i hi => exact (t.inverse l i).mp hi
  next => exact Array.getElem?_push_size

/-- Labels keep their numbers. -/
theorem getElem?_intern_of_some {t : Interner} {i : Nat} {m : String}
    (hm : t.labels[i]? = some m) (l : String) : (t.intern l).1.labels[i]? = some m := by
  unfold intern
  split
  next => exact hm
  next =>
    obtain ⟨hi, -⟩ := Array.getElem?_eq_some_iff.mp hm
    rw [add, Array.getElem?_push, if_neg (Nat.ne_of_lt hi)]
    exact hm

theorem intern_lt (t : Interner) (l : String) :
    (t.intern l).2 < (t.intern l).1.labels.size :=
  (Array.getElem?_eq_some_iff.mp (t.getElem?_intern l)).1

theorem size_le_intern (t : Interner) (l : String) :
    t.labels.size ≤ (t.intern l).1.labels.size := by
  unfold intern
  split
  next => exact Nat.le_refl _
  next => simp [add]

end Interner

/-! ## Reading -/

structure Record where
  source : Nat
  target : Nat
  weight : Option Float
  line : Nat
deriving DecidableEq

def Record.Within (r : Record) (n : Nat) : Prop :=
  r.source < n ∧ r.target < n

theorem Record.Within.mono {r : Record} {n m : Nat} (h : r.Within n) (hle : n ≤ m) : r.Within m :=
  ⟨Nat.lt_of_lt_of_le h.1 hle, Nat.lt_of_lt_of_le h.2 hle⟩

structure Reading where
  interner : Interner
  records : Array Record
  within : ∀ r ∈ records, r.Within interner.labels.size

namespace Reading

def start : Reading where
  interner := .empty
  records := #[]
  within := by simp

def intern (s : Reading) (l : String) : Reading where
  interner := (s.interner.intern l).1
  records := s.records
  within r hr := (s.within r hr).mono (s.interner.size_le_intern l)

def record (s : Reading) (r : Record) (h : r.Within s.interner.labels.size) : Reading where
  interner := s.interner
  records := s.records.push r
  within := by
    intro r' hr'
    rcases Array.mem_push.mp hr' with hr' | rfl
    · exact s.within r' hr'
    · exact h

/-- Record an edge; its labels are numbered from the source on. -/
def link (s : Reading) (source target : String) (weight : Option Float) (line : Nat) : Reading :=
  let first := s.interner.intern source
  let second := first.1.intern target
  ((s.intern source).intern target).record ⟨first.2, second.2, weight, line⟩
    ⟨Nat.lt_of_lt_of_le (s.interner.intern_lt source) (first.1.size_le_intern target),
      first.1.intern_lt target⟩

def add (s : Reading) (line : Nat) : Entry → Reading
  | .nothing => s
  | .vertex l => s.intern l
  | .link a b w => s.link a b w line

/-- Read on over lines that are numbered from `k` on; the first bad one decides. -/
def readLines (s : Reading) (k : Nat) : List (List Char) → Except InputError Reading
  | [] => .ok s
  | cs :: rest => do
      let entry ← Entry.ofLine k cs
      readLines (s.add k entry) (k + 1) rest

end Reading

/-! ## Edge lists -/

structure Link (n : Nat) where
  ends : Edge n
  weight : Option Float
  line : Nat
deriving DecidableEq

def Record.toLink {n : Nat} (r : Record) (h : r.Within n) : Link n where
  ends := ⟨⟨r.source, h.1⟩, ⟨r.target, h.2⟩⟩
  weight := r.weight
  line := r.line

structure EdgeList where
  labels : Array String
  links : List (Link labels.size)
deriving DecidableEq

namespace EdgeList

def ofReading (s : Reading) : EdgeList where
  labels := s.interner.labels
  links := s.records.toList.attach.map fun r =>
    r.val.toLink (s.within r.val (Array.mem_toList_iff.mp r.property))

def parse (text : String) : Except InputError EdgeList :=
  (Reading.start.readLines 1 (Text.lines text.toList)).map ofReading

def edgeCount (l : EdgeList) : Nat :=
  l.links.length

def graph (l : EdgeList) (directed : Bool) : Graph where
  directed := directed
  vertexCount := l.labels.size
  edges := (l.links.map (·.ends)).toArray

@[simp] theorem edgeCount_graph (l : EdgeList) (d : Bool) :
    (l.graph d).edgeCount = l.edgeCount := by
  simp [Graph.edgeCount, graph, edgeCount]

def weightOf {n : Nat} (link : Link n) : Except InputError Float :=
  match link.weight with
  | some w => .ok w
  | none => .error (.missingWeight link.line)

def weights (l : EdgeList) : Except InputError (List Float) :=
  l.links.mapM weightOf

def weightMap (l : EdgeList) : Except InputError (EdgeMap Float32 Float) :=
  l.weights.map fun ws => ⟨.double ws.toArray⟩

end EdgeList

end Geodesic
