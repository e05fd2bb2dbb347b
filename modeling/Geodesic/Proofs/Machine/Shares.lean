import Geodesic.Proofs.HandBack
import Geodesic.Proofs.Machine.Counts

/-!
# Handing back in double precision

Nothing that is handed back is negative. A step from a vertex with infinitely many paths carries
nothing that is defined: the share of one path is zero there, and infinitely many paths take it.
-/

namespace Geodesic.Machine

open Dependency
open Paths (Counted)

variable {D : Type} {n m : Nat} {out : Fin n → List (Fin m × Fin n)} {s w : Fin n} {e : Fin m}
  {p : Paths D Float n m} {c : Float} {d : Dependency Float n m} {a : Fin m × Fin n}

/-! ## Nothing negative -/

/-- No sum is a negative number. -/
structure UnsignedSums (t : Tally Float n m) : Prop where
  vertices : ∀ v : Fin n, Unsigned t.vertices[v]
  edges : ∀ e : Fin m, Unsigned t.edges[e]

theorem unsignedSums_zero : UnsignedSums (Tally.zero n m) where
  vertices v := by
    rw [Tally.vertices_zero]
    exact Or.inr ⟨0, reads_zero⟩
  edges e := by
    rw [Tally.edges_zero]
    exact Or.inr ⟨0, reads_zero⟩

theorem UnsignedSums.merge {t t' : Tally Float n m} (h : UnsignedSums t) (h' : UnsignedSums t') :
    UnsignedSums (t.merge t') where
  vertices v := by
    rw [Tally.vertices_merge]
    exact (h.vertices v).add (h'.vertices v)
  edges e := by
    rw [Tally.edges_merge]
    exact (h.edges e).add (h'.edges e)

structure AllUnsigned (d : Dependency Float n m) : Prop where
  delta : ∀ v : Fin n, Unsigned d.delta[v]
  tally : UnsignedSums d.tally

theorem AllUnsigned.creditStep (hd : AllUnsigned d) (hc : Unsigned (p.sigma[a.2] * c)) :
    AllUnsigned (creditStep p c d a) := by
  refine ⟨fun v => ?_, hd.tally.vertices, fun e => ?_⟩
  · by_cases hv : a.2 = v
    · subst hv
      rw [delta_creditStep_self]
      exact (hd.delta a.2).add hc
    · rw [delta_creditStep_of_ne hv]
      exact hd.delta v
  · by_cases he : a.1 = e
    · subst he
      rw [edges_creditStep_self]
      exact (hd.tally.edges a.1).add hc
    · rw [edges_creditStep_of_ne he]
      exact hd.tally.edges e

theorem AllUnsigned.creditVertex (hd : AllUnsigned d) (w : Fin n) :
    AllUnsigned (creditVertex p d w) := by
  refine ⟨fun v => ?_, fun v => ?_, fun e => ?_⟩
  · rw [delta_creditVertex]
    exact hd.delta v
  · by_cases hv : w = v
    · subst hv
      rcases vertices_creditVertex_self (p := p) d w with heq | heq
      · rw [heq]
        exact hd.tally.vertices w
      · rw [heq]
        exact (hd.tally.vertices w).add (hd.delta w)
    · rw [vertices_creditVertex_of_ne hv]
      exact hd.tally.vertices v
  · rw [edges_creditVertex]
    exact hd.tally.edges e

/-- Every visited vertex hands something back. -/
theorem sigma_not_nonpos (h : Counted out s p) (hw : w ∈ p.order.toList) :
    ¬ p.sigma[w] ≤ Zero.zero := by
  obtain ⟨b, hb, hone⟩ := reads_sigma h w hw
  exact hb.not_nonpos (lt_of_lt_of_le (Nat.cast_pos.mpr unity_pos) hone)

theorem unsigned_coeff (h : Counted out s p) (hw : w ∈ p.order.toList) (hd : AllUnsigned d) :
    Unsigned ((One.one + d.delta[w]) / p.sigma[w]) := by
  obtain ⟨b, hb, hone⟩ := reads_sigma h w hw
  have hgiven : Unsigned (One.one + d.delta[w]) := Unsigned.add (Or.inr ⟨_, reads_one⟩) (hd.delta w)
  exact hgiven.div hb (lt_of_lt_of_le (Nat.cast_pos.mpr unity_pos) hone)

theorem unsigned_credit (h : Counted out s p) (ha : a ∈ p.preds[w].toList) (hc : Unsigned c) :
    Unsigned (p.sigma[a.2] * c) := by
  obtain ⟨b, hb, -⟩ := reads_sigma h a.2 (h.before w a ha).left_mem
  exact Unsigned.mul (Or.inr ⟨b, hb⟩) hc

theorem AllUnsigned.passBack (h : Counted out s p) (hw : w ∈ p.order.toList)
    (hd : AllUnsigned d) : AllUnsigned (passBack p d w) := by
  have hcoeff := unsigned_coeff h hw hd
  rw [passBack_eq (sigma_not_nonpos h hw)]
  exact (List.foldlRecOn (motive := AllUnsigned) _ _ hd fun d' hd' a ha =>
    hd'.creditStep (unsigned_credit h ha hcoeff)).creditVertex w

theorem AllUnsigned.sweep (h : Counted out s p) (hd : AllUnsigned d) {ws : List (Fin n)}
    (hws : ∀ v ∈ ws, v ∈ p.order.toList) : AllUnsigned (ws.foldl (Dependency.passBack p) d) :=
  List.foldlRecOn (motive := AllUnsigned) ws _ hd fun _ hd' v hv => hd'.passBack h (hws v hv)

theorem AllUnsigned.accumulate (h : Counted out s p) (hd : AllUnsigned d) :
    UnsignedSums (d.accumulate p).tally := by
  have hvisited : ∀ v ∈ p.order.toList.reverse, v ∈ p.order.toList := fun _ => List.mem_reverse.mp
  have hswept := hd.sweep h hvisited
  rw [accumulate_eq, (foldl_clear ..).1]
  exact hswept.tally

/-! ## What stays undefined -/

theorem nan_edges_creditStep (he : d.tally.edges[e].isNaN = true) (c : Float)
    (a : Fin m × Fin n) : (creditStep p c d a).tally.edges[e].isNaN = true := by
  by_cases hedge : a.1 = e
  · subst hedge
    rw [edges_creditStep_self]
    exact nan_add_left he _
  · rw [edges_creditStep_of_ne hedge]
    exact he

theorem nan_edges_passBack (he : d.tally.edges[e].isNaN = true) (w : Fin n) :
    (passBack p d w).tally.edges[e].isNaN = true := by
  by_cases hw : p.sigma[w] ≤ Zero.zero
  · rw [passBack_of_nonpos hw]
    exact he
  · rw [passBack_eq hw, edges_creditVertex]
    exact List.foldlRecOn
      (motive := fun d' : Dependency Float n m => d'.tally.edges[e].isNaN = true) _ _ he
      fun _ hd' a _ => nan_edges_creditStep hd' _ a

theorem nan_edges_sweep (he : d.tally.edges[e].isNaN = true) (ws : List (Fin n)) :
    (ws.foldl (passBack p) d).tally.edges[e].isNaN = true :=
  List.foldlRecOn
    (motive := fun d' : Dependency Float n m => d'.tally.edges[e].isNaN = true) ws _ he
    fun _ hd' w _ => nan_edges_passBack hd' w

theorem nan_edges_accumulate (he : d.tally.edges[e].isNaN = true) (p : Paths D Float n m) :
    (d.accumulate p).tally.edges[e].isNaN = true := by
  rw [accumulate_eq, (foldl_clear ..).1]
  exact nan_edges_sweep he _

/-- A step from a vertex of infinitely many paths is undefined as soon as it is credited. -/
theorem nan_of_top (h : Counted out s p) (hd : AllUnsigned d)
    (hnodup : (p.preds[w].toList.map Prod.fst).Nodup) (ha : a ∈ p.preds[w].toList)
    (htop : Reads p.sigma[a.2] ⊤) : (passBack p d w).tally.edges[a.1].isNaN = true := by
  have hw := (h.before w a ha).right_mem
  obtain ⟨b, hb, -⟩ := reads_sigma h w hw
  obtain rfl : b = ⊤ := top_le_iff.mp (sigma_le_of_step h ha htop hb)
  have hgiven : Unsigned (One.one + d.delta[w]) := Unsigned.add (Or.inr ⟨_, reads_one⟩) (hd.delta w)
  rw [passBack_eq (sigma_not_nonpos h hw), edges_creditVertex, edges_foldl_of_mem hnodup ha]
  exact nan_add_right _ (nan_top_mul htop (hgiven.div_top hb))

theorem nan_accumulate (h : Counted out s p) (hd : AllUnsigned d)
    (hnodup : (p.preds[w].toList.map Prod.fst).Nodup) (ha : a ∈ p.preds[w].toList)
    (htop : Reads p.sigma[a.2] ⊤) : (d.accumulate p).tally.edges[a.1].isNaN = true := by
  have hw : w ∈ p.order.toList.reverse := List.mem_reverse.mpr (h.before w a ha).right_mem
  obtain ⟨done, rest, hsplit⟩ := List.append_of_mem hw
  have hdone : ∀ v ∈ done, v ∈ p.order.toList := by
    intro v hv
    rw [← List.mem_reverse, hsplit]
    exact List.mem_append_left _ hv
  rw [accumulate_eq, (foldl_clear ..).1, hsplit, List.foldl_append, List.foldl_cons]
  exact nan_edges_sweep (nan_of_top h (hd.sweep h hdone) hnodup ha htop) rest

end Geodesic.Machine
