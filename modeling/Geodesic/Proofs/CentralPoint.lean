import Geodesic.Betweenness
import Geodesic.Proofs.Dominance

/-!
# The dominance of any scores

The dominance depends neither on the order of the scores nor on their unit, and it lies between zero
and the largest of them. What may be refused is the map that holds the scores: one without numbers is
refused for its type, whatever its size.
-/

namespace Geodesic

/-! ## Order and unit -/

section Scores

variable {scores others : Array ℚ}

theorem largest_nonneg (scores : Array ℚ) : 0 ≤ largest scores := by
  rw [largest_eq]
  exact List.foldlRecOn (motive := fun top => 0 ≤ top) _ _ le_rfl
    fun top htop c _ => le_max_of_le_left htop

theorem largest_le_of_subset (h : ∀ c ∈ scores.toList, c ∈ others.toList) :
    largest scores ≤ largest others :=
  largest_le (largest_nonneg others) fun c hc => le_largest (h c hc)

theorem largest_perm (h : scores.toList.Perm others.toList) : largest scores = largest others :=
  le_antisymm (largest_le_of_subset fun _ hc => h.mem_iff.mp hc)
    (largest_le_of_subset fun _ hc => h.mem_iff.mpr hc)

theorem size_eq_of_perm (h : scores.toList.Perm others.toList) : scores.size = others.size := by
  simpa using h.length_eq

theorem dominance_perm (h : scores.toList.Perm others.toList) :
    dominance scores = dominance others := by
  have hspread : spread (largest scores) scores = spread (largest others) others := by
    rw [largest_perm h, spread_eq, spread_eq]
    exact (h.map _).sum_eq
  unfold dominance
  rw [size_eq_of_perm h, hspread]

theorem largest_scale {k : ℚ} (hk : 0 ≤ k) (scores : Array ℚ) :
    largest (scale k scores) = largest scores * k := by
  have hfold : ∀ (l : List ℚ) (top : ℚ),
      (l.map (· * k)).foldl max (top * k) = l.foldl max top * k := by
    intro l
    induction l with
    | nil => simp
    | cons c l ih =>
        intro top
        rw [List.map_cons, List.foldl_cons, List.foldl_cons, ← max_mul_of_nonneg top c hk, ih]
  have hzero := hfold scores.toList 0
  rw [zero_mul] at hzero
  rw [largest_eq, largest_eq, scale, Array.toList_map, hzero]

theorem dominance_scale {k : ℚ} (hk : 0 ≤ k) (scores : Array ℚ) :
    dominance (scale k scores) = dominance scores * k := by
  have hspread : spread (largest (scale k scores)) (scale k scores) =
      spread (largest scores) scores * k := by
    have hterms : ∀ c : ℚ, largest scores * k - c * k = (largest scores - c) * k := by
      intro c
      ring
    rw [largest_scale hk, spread_eq, spread_eq, ← List.sum_map_mul_right, scale, Array.toList_map,
      List.map_map]
    exact congrArg List.sum (List.map_congr_left fun c _ => hterms c)
  unfold dominance
  rw [size_scale, hspread]
  split
  · rw [zero_mul]
  · ring

/-- Scores below zero are as far below the largest as any. -/
theorem dominance_nonneg (scores : Array ℚ) : 0 ≤ dominance scores := by
  unfold dominance
  split
  · exact le_rfl
  · rename_i hsize
    have htwo : 1 < (scores.size : ℚ) := by exact_mod_cast not_le.mp hsize
    rw [spread_eq]
    apply div_nonneg
    · apply List.sum_nonneg
      intro a ha
      obtain ⟨c, hc, rfl⟩ := List.mem_map.mp ha
      exact sub_nonneg.mpr (le_largest hc)
    · linarith

/-! ## The extremes -/

/-- What the dominance says about scores of which `top` is the largest. -/
structure Prominent (scores : Array ℚ) (top : ℚ) : Prop where
  le_top : dominance scores ≤ top
  eq_zero_iff : dominance scores = 0 ↔ ∀ i j : Fin scores.size, scores[i] = scores[j]
  /-- No other vertex has a score. -/
  eq_top_iff : dominance scores = top ↔
    ∀ i j : Fin scores.size, scores[i] ≠ 0 → scores[j] ≠ 0 → i = j

theorem prominent_of_nonneg (hsize : 2 ≤ scores.size) (hscores : ∀ c ∈ scores, 0 ≤ c) {top : ℚ}
    (htop : top ∈ scores) (hlargest : ∀ c ∈ scores, c ≤ top) : Prominent scores top := by
  obtain ⟨k, hk, rfl⟩ := Array.getElem_of_mem htop
  have hnonneg : ∀ i : Fin scores.size, 0 ≤ scores[i] := fun i => hscores _ (by simp)
  have hle : ∀ i : Fin scores.size, scores[i] ≤ scores[k] := fun i => hlargest _ (by simp)
  have heq : Array.ofFn (fun i : Fin scores.size => scores[i]) = scores := Array.ofFn_getElem
  have hbound := dominance_le (c := ⟨k, hk⟩) hsize hnonneg hle
  have hzero := dominance_eq_zero_iff hsize hnonneg
  have hextreme := dominance_eq_iff (c := ⟨k, hk⟩) hsize hnonneg hle
  rw [heq] at hbound hzero hextreme
  refine ⟨hbound, hzero, hextreme.trans ⟨fun hrest i j hi hj => ?_, fun hone i hi => ?_⟩⟩
  · have honly : ∀ v, scores[v] ≠ 0 → v = (⟨k, hk⟩ : Fin scores.size) := by
      intro v hv
      by_contra hne
      exact hv (hrest v hne)
    rw [honly i hi, honly j hj]
  · by_contra hscore
    have hpos : 0 < scores[i] := lt_of_le_of_ne (hnonneg i) (Ne.symm hscore)
    have htop : scores[k] ≠ 0 := (hpos.trans_le (hle i)).ne'
    exact hi (hone i ⟨k, hk⟩ hscore htop)

end Scores

/-! ## Maps of scores -/

section Maps

variable {D R S : Type} [Zero S] [One S] [IntCast S] [Precision R S]

/-- `x` is what stands at `i` in a map, read as a wide number. -/
inductive Values.Entry : Values R S → Nat → S → Prop
  | no {bs : Array Bool} {i : Nat} (h : bs[i]? = some false) : Entry (.bool bs) i 0
  | yes {bs : Array Bool} {i : Nat} (h : bs[i]? = some true) : Entry (.bool bs) i 1
  | int32 {zs : Array Int32} {z : Int32} {i : Nat} (h : zs[i]? = some z) :
      Entry (.int32 zs) i (z.toInt : S)
  | int64 {zs : Array Int64} {z : Int64} {i : Nat} (h : zs[i]? = some z) :
      Entry (.int64 zs) i (z.toInt : S)
  | single {xs : Array R} {x : R} {i : Nat} (h : xs[i]? = some x) :
      Entry (.single xs) i (Precision.widen x)
  | double {xs : Array S} {x : S} {i : Nat} (h : xs[i]? = some x) : Entry (.double xs) i x

theorem Values.entry_iff {v : Values R S} {xs : Array S} (h : v.numbers? = some xs) (i : Nat)
    (x : S) : v.Entry i x ↔ xs[i]? = some x := by
  cases v with
  | bool bs =>
      obtain rfl := Option.some.inj h
      rw [Array.getElem?_map, Option.map_eq_some_iff]
      constructor
      · intro hentry
        cases hentry with
        | no h => exact ⟨false, h, rfl⟩
        | yes h => exact ⟨true, h, rfl⟩
      · rintro ⟨b, hb, rfl⟩
        cases b with
        | false => exact .no hb
        | true => exact .yes hb
  | int32 zs =>
      obtain rfl := Option.some.inj h
      rw [Array.getElem?_map, Option.map_eq_some_iff]
      exact ⟨fun | .int32 h => ⟨_, h, rfl⟩, fun ⟨z, hz, hx⟩ => hx ▸ .int32 hz⟩
  | int64 zs =>
      obtain rfl := Option.some.inj h
      rw [Array.getElem?_map, Option.map_eq_some_iff]
      exact ⟨fun | .int64 h => ⟨_, h, rfl⟩, fun ⟨z, hz, hx⟩ => hx ▸ .int64 hz⟩
  | single rs =>
      obtain rfl := Option.some.inj h
      rw [Array.getElem?_map, Option.map_eq_some_iff]
      exact ⟨fun | .single h => ⟨_, h, rfl⟩, fun ⟨r, hr, hx⟩ => hx ▸ .single hr⟩
  | double ss =>
      obtain rfl := Option.some.inj h
      exact ⟨fun | .double h => h, .double⟩
  | string texts => cases h

variable [Add S] [Sub S] [Div S] [LE S] [DecidableLE S] [NatCast S]

/-- What asking for the dominance of the scores in a map has to answer. -/
structure Answered (g : Graph) (map : VertexMap R S) (answer : Except (Fault D) S) : Prop where
  notScalar : map.valueType.isScalar = false →
    answer = .error (.wrongType .vertexScores .scalar map.valueType)
  wrongSize : map.valueType.isScalar = true → map.size ≠ g.vertexCount →
    answer = .error (.wrongSize .vertexScores g.vertexCount map.size)
  scored : map.valueType.isScalar = true → map.size = g.vertexCount →
    ∃ scores : Array S, scores.size = g.vertexCount ∧
      (∀ i x, scores[i]? = some x ↔ map.values.Entry i x) ∧ answer = .ok (dominance scores)

theorem answered_centralPointDominance (g : Graph) (map : VertexMap R S) :
    Answered g map (centralPointDominance g map : Except (Fault D) S) := by
  unfold centralPointDominance
  cases hnumbers : map.values.numbers? with
  | none =>
      have htype : map.valueType.isScalar = false := (Values.numbers?_eq_none_iff _).mp hnumbers
      refine ⟨fun _ => rfl, fun hscalar => ?_, fun hscalar => ?_⟩
      · rw [htype] at hscalar
        cases hscalar
      · rw [htype] at hscalar
        cases hscalar
  | some xs =>
      have htype : map.valueType.isScalar = true := by
        rw [← Bool.not_eq_false]
        intro hfalse
        rw [(Values.numbers?_eq_none_iff _).mpr hfalse] at hnumbers
        cases hnumbers
      refine ⟨fun hstring => ?_, fun _ hsize => ?_, fun _ hsize => ?_⟩
      · rw [htype] at hstring
        cases hstring
      · have hfits : ¬ map.Fits g := hsize
        simp only [PropertyMap.checkSize, if_neg hfits]
        rfl
      · have hfits : map.Fits g := hsize
        refine ⟨xs, (Values.size_of_numbers? hnumbers).trans hsize,
          fun i x => (Values.entry_iff hnumbers i x).symm, ?_⟩
        simp only [PropertyMap.checkSize, if_pos hfits]
        rfl

end Maps

/-- In exact arithmetic the dominance of scores is never negative, follows them into another unit
and does not depend on their order; of two or more scores that are not negative it tells when they
are all the same and when only one vertex has any. The dominance of a map, in any arithmetic, is that
of its entries; a map is refused for its type first and then for its size. -/
theorem centralPointDominance_of_scores {D R S : Type} [Zero S] [One S] [IntCast S]
    [Precision R S] [Add S] [Sub S] [Div S] [LE S] [DecidableLE S] [NatCast S] :
    (∀ scores : Array ℚ, 0 ≤ dominance scores ∧
      (∀ others : Array ℚ, others.toList.Perm scores.toList →
        dominance others = dominance scores) ∧
      (∀ k : ℚ, 0 ≤ k → dominance (scale k scores) = dominance scores * k) ∧
      (2 ≤ scores.size → (∀ c ∈ scores, 0 ≤ c) →
        ∀ top ∈ scores, (∀ c ∈ scores, c ≤ top) → Prominent scores top)) ∧
    ∀ (g : Graph) (map : VertexMap R S),
      Answered g map (centralPointDominance g map : Except (Fault D) S) := by
  refine ⟨fun scores => ⟨dominance_nonneg scores, ?_, ?_, ?_⟩, answered_centralPointDominance⟩
  · exact fun others hperm => dominance_perm hperm
  · exact fun k hk => dominance_scale hk scores
  · exact fun hsize hscores top htop hlargest => prominent_of_nonneg hsize hscores htop hlargest

theorem centralPointDominance_of_uneven :
    let g := Graph.isolated true 2
    let map : VertexMap Float32 Float := ⟨.int64 #[3, -1]⟩
    (∀ c ∈ #[(1 : ℚ), 1 / 2, 0], 0 ≤ c) ∧ (∀ c ∈ #[(1 : ℚ), 1 / 2, 0], c ≤ 1) ∧
      Prominent #[1, 1 / 2, 0] 1 ∧
      Answered g map (centralPointDominance g map : Except (Fault Float) Float) := by
  intro g map
  have hscores : ∀ c ∈ #[(1 : ℚ), 1 / 2, 0], 0 ≤ c := by simp
  have hlargest : ∀ c ∈ #[(1 : ℚ), 1 / 2, 0], c ≤ 1 := by norm_num
  obtain ⟨hexact, hanswered⟩ := centralPointDominance_of_scores (D := Float) (R := Float32)
    (S := Float)
  obtain ⟨-, -, -, hprominent⟩ := hexact #[1, 1 / 2, 0]
  exact ⟨hscores, hlargest, hprominent (by decide) hscores 1 (by simp) hlargest, hanswered g map⟩

end Geodesic
