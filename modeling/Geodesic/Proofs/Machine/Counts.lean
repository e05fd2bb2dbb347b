import Geodesic.Proofs.Machine.Error
import Geodesic.Proofs.Paths.Recorded

/-!
# Path counts in double precision

Counts only grow along recorded steps, so they are never undefined, and an infinite one makes all
counts beyond it infinite. A finite count falls short of the sum of the counts that it was added up
from by a factor close to one at most.
-/

namespace Geodesic.Machine

variable {x y : Float} {a b : ℕ∞}

theorem Reads.le_add (hx : Reads x a) (hy : Reads y b) :
    ∃ c, Reads (x + y) c ∧ a ≤ c ∧ b ≤ c := by
  have hleft : roundedSum .binary64 a ≤ roundedSum .binary64 (a + b) :=
    roundedSum_mono le_self_add
  have hright : roundedSum .binary64 b ≤ roundedSum .binary64 (a + b) :=
    roundedSum_mono le_add_self
  rw [hx.roundedSum_eq (by decide)] at hleft
  rw [hy.roundedSum_eq (by decide)] at hright
  exact ⟨_, hx.add hy, hleft, hright⟩

theorem Reads.proper_of_le (hx : Reads x a) {M : Nat} (hle : a ≤ M) : Proper x := by
  obtain ⟨N, rfl⟩ := ENat.ne_top_iff_exists.mp (ne_top_of_le_ne_top (ENat.natCast_ne_top M) hle)
  exact hx.proper

/-! ## Sums from left to right -/

/-- What is known of a sum of doubles that are not negative. -/
structure Summed (xs : List Float) (c : Float) : Prop where
  reads : ∃ a, Reads c a
  le : ∀ x ∈ xs, ∀ a b, Reads x a → Reads c b → a ≤ b
  proper : Proper c → ∀ x ∈ xs, Proper x
  error : Proper c → ((xs.map fun x => (units x : ℚ)).sum) ≤ units c * growth ^ xs.length

theorem summed_foldl {xs : List Float} (hxs : ∀ x ∈ xs, ∃ a, Reads x a) {c : Float}
    (hc : ∃ a, Reads c a) : (∀ a b, Reads c a → Reads (xs.foldl (· + ·) c) b → a ≤ b) ∧
      (Proper (xs.foldl (· + ·) c) → (units c : ℚ) + (xs.map fun x => (units x : ℚ)).sum ≤
        units (xs.foldl (· + ·) c) * growth ^ xs.length) ∧
      Summed xs (xs.foldl (· + ·) c) := by
  induction xs generalizing c with
  | nil =>
      refine ⟨fun a b ha hb => (ha.unique hb).le, fun _ => by simp, hc, ?_, ?_, ?_⟩
      · simp
      · simp
      · intro _
        simp
  | cons x xs ih =>
      obtain ⟨a, ha⟩ := hc
      obtain ⟨b, hb⟩ := hxs x (by simp)
      obtain ⟨d, hd, had, hbd⟩ := ha.le_add hb
      obtain ⟨hstart, herror, hsummed⟩ := ih (fun y hy => hxs y (List.mem_cons_of_mem x hy)) ⟨d, hd⟩
      rw [List.foldl_cons]
      generalize xs.foldl (· + ·) (c + x) = z at *
      have hproper : Proper z → Proper (c + x) := fun hz => hd.proper_of_le (hstart d _ hd hz)
      have hgrown : Proper z → (units c : ℚ) + ((x :: xs).map fun x => (units x : ℚ)).sum ≤
          units z * growth ^ (x :: xs).length := by
        intro hz
        have hsum := hproper hz
        have hc := ha.proper_of_le (had.trans (hd.unique hsum).le)
        have hx := hb.proper_of_le (hbd.trans (hd.unique hsum).le)
        have hpair := (hc.add_bounds hx hsum).2
        have hrest := herror hz
        have hnonneg : 0 ≤ (xs.map fun x => (units x : ℚ)).sum :=
          List.sum_nonneg (by simp)
        have hscaled := mul_le_mul_of_nonneg_right hrest growth_pos.le
        have hone := le_mul_of_one_le_right hnonneg one_le_growth
        rw [List.map_cons, List.sum_cons, List.length_cons, pow_succ, ← mul_assoc]
        linarith
      refine ⟨fun a' e ha' he => ?_, hgrown, hsummed.reads, ?_, ?_, fun hz => ?_⟩
      · exact (ha'.unique ha).le.trans (had.trans (hstart d e hd he))
      · rintro y hy b' e hb' he
        rcases List.mem_cons.mp hy with rfl | hy
        · exact (hb'.unique hb).le.trans (hbd.trans (hstart d e hd he))
        · exact hsummed.le y hy b' e hb' he
      · rintro hz y hy
        rcases List.mem_cons.mp hy with rfl | hy
        · have hsum := hproper hz
          exact hb.proper_of_le (hbd.trans (hd.unique hsum).le)
        · exact hsummed.proper hz y hy
      · have hunits : (0 : ℚ) ≤ units c := Nat.cast_nonneg _
        have := hgrown hz
        linarith

theorem summed_of_eq {xs : List Float} {c : Float} (hxs : ∀ x ∈ xs, ∃ a, Reads x a)
    (hc : c = xs.foldl (· + ·) Zero.zero ∨ c = sumInOrder xs) : Summed xs c := by
  have hzero : Summed xs (xs.foldl (· + ·) Zero.zero) := (summed_foldl hxs ⟨0, reads_zero⟩).2.2
  rcases hc with rfl | rfl
  · exact hzero
  · cases xs with
    | nil => exact hzero
    | cons x xs =>
        obtain ⟨a, ha⟩ := hxs x (by simp)
        obtain ⟨hstart, herror, hsummed⟩ :=
          summed_foldl (fun y hy => hxs y (List.mem_cons_of_mem x hy)) ⟨a, ha⟩
        have hsum : sumInOrder (x :: xs) = xs.foldl (· + ·) x := rfl
        rw [hsum]
        generalize xs.foldl (· + ·) x = z at *
        obtain ⟨e, he⟩ := hsummed.reads
        refine ⟨hsummed.reads, ?_, ?_, fun hz => ?_⟩
        · rintro y hy b e hb he
          rcases List.mem_cons.mp hy with rfl | hy
          · exact hstart b e hb he
          · exact hsummed.le y hy b e hb he
        · rintro hz y hy
          rcases List.mem_cons.mp hy with rfl | hy
          · exact ha.proper_of_le (hstart a _ ha hz)
          · exact hsummed.proper hz y hy
        · refine (herror hz).trans ?_
          rw [List.length_cons]
          exact mul_le_mul_of_nonneg_left (pow_le_pow_right₀ one_le_growth (Nat.le_succ _))
            (Nat.cast_nonneg _)

/-! ## Counts of a search -/

section Counts

open Paths (Counted)

variable {D : Type} {n m : Nat} {out : Fin n → List (Fin m × Fin n)} {s : Fin n}
  {p : Paths D Float n m}

theorem reads_sigma (h : Counted out s p) :
    ∀ v ∈ p.order.toList, ∃ a, Reads p.sigma[v] a ∧ (one : ℕ∞) ≤ a := by
  refine Before.induction h.nodup fun v hv ih => ?_
  rcases (h.visited_iff v).mp hv with rfl | hne
  · rw [h.sigma_source]
    exact ⟨_, reads_one, le_rfl⟩
  · have hvs : v ≠ s := by
      rintro rfl
      exact hne h.preds_source
    have hcounts : ∀ x ∈ p.preds[v].toList.map fun a => p.sigma[a.2], ∃ a, Reads x a := by
      intro x hx
      obtain ⟨a, ha, rfl⟩ := List.mem_map.mp hx
      obtain ⟨N, hN, -⟩ := ih a.2 (h.before v a ha)
      exact ⟨N, hN⟩
    have hsummed := summed_of_eq hcounts (h.sigma v hvs)
    obtain ⟨N, hN⟩ := hsummed.reads
    obtain ⟨a, ha⟩ := List.exists_mem_of_ne_nil _ hne
    obtain ⟨M, hM, hone⟩ := ih a.2 (h.before v a ha)
    exact ⟨N, hN, hone.trans (hsummed.le _ (List.mem_map_of_mem ha) M N hM hN)⟩

theorem summed_sigma (h : Counted out s p) {v : Fin n} (hv : v ≠ s) :
    Summed (p.preds[v].toList.map fun a => p.sigma[a.2]) p.sigma[v] := by
  refine summed_of_eq (fun x hx => ?_) (h.sigma v hv)
  obtain ⟨a, ha, rfl⟩ := List.mem_map.mp hx
  obtain ⟨N, hN, -⟩ := reads_sigma h a.2 (h.before v a ha).left_mem
  exact ⟨N, hN⟩

theorem sigma_le_of_step (h : Counted out s p) {v : Fin n} {e : Fin m × Fin n}
    (he : e ∈ p.preds[v].toList) (ha : Reads p.sigma[e.2] a) (hb : Reads p.sigma[v] b) : a ≤ b := by
  have hv : v ≠ s := by
    rintro rfl
    rw [h.preds_source] at he
    cases he
  exact (summed_sigma h hv).le _ (List.mem_map_of_mem he) a b ha hb

/-- A finite count is nearly the sum of the counts before it. -/
theorem sum_sigma_le (h : Counted out s p) {v : Fin n} (hproper : Proper p.sigma[v]) :
    (p.preds[v].toList.map fun a => (units p.sigma[a.2] : ℚ)).sum ≤
      units p.sigma[v] * growth ^ p.preds[v].toList.length := by
  by_cases hv : v = s
  · rw [hv, h.preds_source]
    simp
  · have herror := (summed_sigma h hv).error hproper
    rwa [List.map_map, List.length_map] at herror

end Counts

end Geodesic.Machine
