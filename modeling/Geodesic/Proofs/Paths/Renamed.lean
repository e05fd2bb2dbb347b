import Geodesic.Proofs.Dependency
import Geodesic.Proofs.Paths.Relabel

/-!
# Trails under other names

Where the steps recorded in one set of tables are those of another under other names, the trails are
too, and so are the counts and shares. Names of edges may coincide, as long as the steps into each
vertex keep different names.
-/

namespace Geodesic.Paths

variable {D D' : Type} {n n' m m' : Nat}

/-- The steps recorded in `q` are those recorded in `p`, renamed. -/
structure Renamed (vertex : Fin n → Fin n') (step : Fin m × Fin n → Fin m' × Fin n')
    (p : Paths D ℚ n m) (q : Paths D' ℚ n' m') : Prop where
  injective : Function.Injective vertex
  origin : ∀ a : Fin m × Fin n, (step a).2 = vertex a.2
  injOn : ∀ v : Fin n, Set.InjOn step {a | a ∈ p.preds[v].toList}
  mem_iff : ∀ (v : Fin n) (b : Fin m' × Fin n'),
    b ∈ q.preds[vertex v].toList ↔ ∃ a ∈ p.preds[v].toList, step a = b

namespace Renamed

variable {vertex : Fin n → Fin n'} {step : Fin m × Fin n → Fin m' × Fin n'} {p : Paths D ℚ n m}
  {q : Paths D' ℚ n' m'} {s t : Fin n} {hit : Fin m × Fin n → Prop}
  {hit' : Fin m' × Fin n' → Prop}

theorem trail_map (h : Renamed vertex step p q) {l : List (Fin m × Fin n)} (hl : p.Trail s t l) :
    q.Trail (vertex s) (vertex t) (l.map step) := by
  induction l generalizing t with
  | nil =>
      rw [trail_nil.mp hl]
      rfl
  | cons a l ih =>
      rw [List.map_cons, trail_cons, h.origin]
      exact ⟨(h.mem_iff t (step a)).mpr ⟨a, hl.1, rfl⟩, ih hl.2⟩

theorem exists_trail (h : Renamed vertex step p q) {l' : List (Fin m' × Fin n')}
    (hl' : q.Trail (vertex s) (vertex t) l') : ∃ l, p.Trail s t l ∧ l.map step = l' := by
  induction l' generalizing t with
  | nil => exact ⟨[], h.injective (trail_nil.mp hl'), rfl⟩
  | cons b l' ih =>
      obtain ⟨hb, hrest⟩ := trail_cons.mp hl'
      obtain ⟨a, ha, rfl⟩ := (h.mem_iff t b).mp hb
      rw [h.origin] at hrest
      obtain ⟨l, hl, hmap⟩ := ih hrest
      exact ⟨a :: l, ⟨ha, hl⟩, by rw [List.map_cons, hmap]⟩

theorem trails_eq (h : Renamed vertex step p q) (s t : Fin n) :
    q.trails (vertex s) (vertex t) = List.map step '' p.trails s t := by
  ext l'
  constructor
  · exact fun hl' => h.exists_trail hl'
  · intro hl'
    obtain ⟨l, hl, rfl⟩ := hl'
    exact h.trail_map hl

theorem trailsBy_eq (h : Renamed vertex step p q) (hhit : ∀ a, hit' (step a) ↔ hit a)
    (s t : Fin n) :
    q.trailsBy (vertex s) hit' (vertex t) = List.map step '' p.trailsBy s hit t := by
  have hmem : ∀ l : List (Fin m × Fin n), (∃ b ∈ l.map step, hit' b) ↔ ∃ a ∈ l, hit a := by
    intro l
    constructor
    · intro hhits
      obtain ⟨b, hb, hbhit⟩ := hhits
      obtain ⟨a, ha, rfl⟩ := List.mem_map.mp hb
      exact ⟨a, ha, (hhit a).mp hbhit⟩
    · intro hhits
      obtain ⟨a, ha, hahit⟩ := hhits
      exact ⟨step a, List.mem_map_of_mem ha, (hhit a).mpr hahit⟩
  ext l'
  constructor
  · intro hl'
    obtain ⟨l, hl, rfl⟩ := h.exists_trail hl'.1
    exact ⟨l, ⟨hl, (hmem l).mp hl'.2⟩, rfl⟩
  · intro hl'
    obtain ⟨l, ⟨hl, hhits⟩, rfl⟩ := hl'
    exact ⟨h.trail_map hl, (hmem l).mpr hhits⟩

theorem injOn_trails (h : Renamed vertex step p q) (s t : Fin n) :
    Set.InjOn (List.map step) (p.trails s t) := by
  intro l hl l' hl' heq
  induction l generalizing t l' with
  | nil => exact (List.map_eq_nil_iff.mp heq.symm).symm
  | cons a l ih =>
      cases l' with
      | nil => cases heq
      | cons b l' =>
          obtain ⟨hstep, hrest⟩ := List.cons.inj heq
          obtain rfl : a = b := h.injOn t hl.1 hl'.1 hstep
          rw [ih a.2 hl.2 hl'.2 hrest]

theorem share_eq (h : Renamed vertex step p q) (hhit : ∀ a, hit' (step a) ↔ hit a)
    (s t : Fin n) : q.share (vertex s) hit' (vertex t) = p.share s hit t := by
  have hinj := h.injOn_trails s t
  have hinj' : Set.InjOn (List.map step) (p.trailsBy s hit t) := hinj.mono trailsBy_subset
  rw [share, share, h.trailsBy_eq hhit, h.trails_eq, hinj.ncard_image, hinj'.ncard_image]

end Renamed

theorem renamed_relabel {φ : Fin m → Fin m'} {p : Paths D ℚ n m} {q : Paths D' ℚ n m'}
    (hinj : ∀ v : Fin n, Set.InjOn (renumber φ) {a | a ∈ p.preds[v].toList})
    (hmem : ∀ (v : Fin n) (a : Fin m' × Fin n),
      a ∈ q.preds[v].toList ↔ a ∈ (p.relabel φ).preds[v].toList) :
    Renamed id (renumber φ) p q where
  injective := Function.injective_id
  origin _ := rfl
  injOn := hinj
  mem_iff v a := by
    have hv := hmem v a
    rwa [preds_relabel, Array.toList_map, List.mem_map] at hv

end Geodesic.Paths
