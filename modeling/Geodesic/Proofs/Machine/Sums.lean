import Geodesic.Proofs.Machine.Mass

/-!
# What one source adds to the sums

A source raises each sum at most once, and by less than `most`, while none of the counts that it
hands on has overflowed. Sums of few such amounts are bounded by multiples of `most`, which rounding
keeps.
-/

namespace Geodesic.Machine

open Dependency
open Float.Model (Format)
open Paths (Counted)

/-! ## Sums of few amounts -/

/-- In units, what a source adds to a sum at most. -/
def most : Nat :=
  2 ^ 100 * one

theorem two_pow_mul_most_le {k : Nat} (hk : k ≤ 900) : 2 ^ k * most ≤ cap := by
  have hexponent : 2 ^ k * most = 2 ^ (k + 100 + 1074) := by
    rw [most, one_eq, pow_add, pow_add, mul_assoc]
  rw [hexponent]
  exact two_pow_le_cap (by omega)

theorem most_le_cap : most ≤ cap := by
  have hscaled := two_pow_mul_most_le (k := 1) (by decide)
  generalize most = b at hscaled ⊢
  omega

theorem nearest_mul_most {k : Nat} (hk : k < 2 ^ 53) :
    nearest (Format.binary64).mantissaBits (k * most) = k * most := by
  obtain ⟨i, hi⟩ : ∃ i, most = 2 ^ i := ⟨100 + 1074, by rw [most, one_eq, pow_add]⟩
  rw [hi]
  exact nearest_of_lt hk i

/-- A double of at most `k` times the amount that a source adds. -/
structure Sized (k : Nat) (x : Float) : Prop where
  proper : Proper x
  le : units x ≤ k * most

variable {x y : Float} {j k : Nat}

theorem Sized.add (hx : Sized j x) (hy : Sized k y) (hjk : j + k < 2 ^ 53) :
    Sized (j + k) (x + y) := by
  have hle : units x + units y ≤ (j + k) * most := by
    rw [Nat.add_mul]
    exact Nat.add_le_add hx.le hy.le
  have hcap : units x + units y ≤ cap :=
    hle.trans ((Nat.mul_le_mul_right most hjk.le).trans (two_pow_mul_most_le (by decide)))
  have hsum := hx.proper.add hy.proper (by exact_mod_cast hcap)
  refine ⟨hsum, ?_⟩
  rw [hx.proper.units_add hy.proper hsum, ← nearest_mul_most hjk]
  exact nearest_mono (by decide) hle

theorem sized_zero : Sized 0 Zero.zero where
  proper := reads_zero.proper
  le := by
    rw [Reads.units_eq (N := 0) reads_zero]
    exact Nat.zero_le _

/-- Kept, or raised by at most `b` units. -/
def Raised (b : ℚ) (x y : Float) : Prop :=
  y = x ∨ ∃ z, Proper z ∧ (units z : ℚ) ≤ b ∧ y = x + z

theorem Raised.sized (h : Raised most x y) (hx : Sized k x) (hk : k + 1 < 2 ^ 53) :
    Sized (k + 1) y := by
  rcases h with rfl | ⟨z, hz, hle, rfl⟩
  · exact ⟨hx.proper, hx.le.trans (Nat.mul_le_mul_right most (Nat.le_succ k))⟩
  · refine hx.add ⟨hz, ?_⟩ hk
    rw [Nat.one_mul]
    exact_mod_cast hle

/-! ## One sweep -/

section Sweep

variable {D : Type} {g : Graph} {s w : g.Vertex} {ws : List g.Vertex} {b : ℚ}
  {p : Paths D Float g.vertexCount g.edgeCount} {d : Dependency Float g.vertexCount g.edgeCount}

/-- An edge is credited at one vertex only. -/
theorem raised_edges (h : Counted g.outEdges s p) (hfit : ∀ e : g.EdgeId, ¬ p.Overflows e)
    (hws : ws <:+ p.order.toList.reverse) (hd : Within p b ws d) (hb : b ≤ cap) (e : g.EdgeId) :
    Raised b d.tally.edges[e] (ws.foldl (passBack p) d).tally.edges[e] := by
  induction ws generalizing d with
  | nil => exact Or.inl rfl
  | cons w ws ih =>
      have hnodup : (w :: ws).Nodup := (List.nodup_reverse.mpr h.nodup).sublist hws.sublist
      have hw : w ∈ p.order.toList := List.mem_reverse.mp (hws.mem (by simp))
      obtain ⟨hcredits, hnext⟩ := hd.passBack h hfit hws hb
      rw [List.foldl_cons]
      by_cases hhit : ∃ a ∈ p.preds[w].toList, a.1 = e
      · obtain ⟨a, ha, rfl⟩ := hhit
        have hlater : ∀ v ∈ ws, ∀ d : Dependency Float g.vertexCount g.edgeCount,
            (passBack p d v).tally.edges[a.1] = d.tally.edges[a.1] := by
          intro v hv d
          refine edges_passBack_of_ne fun b hb hedge => ?_
          obtain rfl := h.edge_unique v w b a hb ha hedge
          exact (List.nodup_cons.mp hnodup).1 hv
        have hkept := sweep_of_ne (x := fun d => d.tally.edges[a.1]) hlater (passBack p d w)
        obtain ⟨hproper, hle⟩ := hcredits a ha
        refine Or.inr ⟨_, hproper, hle, hkept.trans ?_⟩
        rw [passBack_eq (sigma_not_nonpos h hw), edges_creditVertex]
        exact edges_foldl_of_mem (h.nodup_edges_into w) ha
      · have hkept : (passBack p d w).tally.edges[e] = d.tally.edges[e] :=
          edges_passBack_of_ne fun a ha he => hhit ⟨a, ha, he⟩
        have hrest := ih ((List.suffix_cons w ws).trans hws) hnext
        rwa [hkept] at hrest

/-- A vertex is credited in its own turn only. -/
theorem raised_vertices (h : Counted g.outEdges s p) (hfit : ∀ e : g.EdgeId, ¬ p.Overflows e)
    (hws : ws <:+ p.order.toList.reverse) (hd : Within p b ws d) (hb : b ≤ cap) (v : g.Vertex) :
    Raised b d.tally.vertices[v] (ws.foldl (passBack p) d).tally.vertices[v] := by
  induction ws generalizing d with
  | nil => exact Or.inl rfl
  | cons w ws ih =>
      have hnodup : (w :: ws).Nodup := (List.nodup_reverse.mpr h.nodup).sublist hws.sublist
      have hw : w ∈ p.order.toList := List.mem_reverse.mp (hws.mem (by simp))
      have hnext := (hd.passBack h hfit hws hb).2
      rw [List.foldl_cons]
      by_cases hv : w = v
      · subst hv
        have hlater : ∀ v ∈ ws, ∀ d : Dependency Float g.vertexCount g.edgeCount,
            (passBack p d v).tally.vertices[w] = d.tally.vertices[w] := by
          intro v hv d
          refine vertices_passBack_of_ne fun heq => ?_
          exact (List.nodup_cons.mp hnodup).1 (heq ▸ hv)
        have hkept := sweep_of_ne (x := fun d => d.tally.vertices[w]) hlater (passBack p d w)
        have hdelta : (p.preds[w].toList.foldl
            (creditStep p ((One.one + d.delta[w]) / p.sigma[w])) d).delta[w] = d.delta[w] := by
          refine delta_foldl_of_ne fun a ha heq => ?_
          exact (List.nodup_cons.mp hnodup).1 (heq ▸ h.origin_mem hws ha)
        have hturn := vertices_creditVertex_self (p := p) (p.preds[w].toList.foldl
          (creditStep p ((One.one + d.delta[w]) / p.sigma[w])) d) w
        rw [vertices_foldl_creditStep, hdelta] at hturn
        have hpass := congrArg (fun d => d.tally.vertices[w])
          (passBack_eq (d := d) (sigma_not_nonpos h hw))
        rcases hturn with hsame | hraised
        · exact Or.inl (hkept.trans (hpass.trans hsame))
        · exact Or.inr ⟨_, hd.proper w (by simp), hd.held_le, hkept.trans (hpass.trans hraised)⟩
      · have hkept : (passBack p d w).tally.vertices[v] = d.tally.vertices[v] :=
          vertices_passBack_of_ne hv
        have hrest := ih ((List.suffix_cons w ws).trans hws) hnext
        rwa [hkept] at hrest

/-- Each edge is recorded once at most. -/
theorem load_le (h : Counted g.outEdges s p) (hws : ws.Nodup) :
    load p ws ≤ 2 * g.edgeCount + 3 * ws.length := by
  have hedges : (ws.map fun v => p.preds[v].toList.length).sum ≤ g.edgeCount := by
    have hlength := (h.nodup_edges hws).length_le_card
    rw [List.length_flatMap, Fintype.card_fin] at hlength
    simpa using hlength
  have hsplit : load p ws =
      2 * (ws.map fun v => p.preds[v].toList.length).sum + 3 * ws.length := by
    clear hws hedges
    induction ws with
    | nil => rfl
    | cons w ws ih =>
        have hcons : load p (w :: ws) = 2 * p.preds[w].toList.length + 3 + load p ws :=
          List.sum_cons
        rw [hcons, ih, List.map_cons, List.sum_cons, List.length_cons]
        ring
  omega

/-- At first nothing has been handed to anyone. -/
theorem within_start (h : Counted g.outEdges s p)
    (hcleared : ∀ v : g.Vertex, d.delta[v] = Zero.zero)
    (hsize : g.vertexCount + g.edgeCount ≤ 2 ^ 52) : Within p most p.order.toList.reverse d := by
  have hzero : ∀ v : g.Vertex, Reads d.delta[v] (0 : Nat) := by
    intro v
    rw [hcleared]
    exact reads_zero
  have hmass : mass d p.order.toList.reverse = 0 := by
    refine List.sum_eq_zero fun y hy => ?_
    obtain ⟨v, -, rfl⟩ := List.mem_map.mp hy
    rw [(hzero v).units_eq, Nat.cast_zero]
  have hnodup := List.nodup_reverse.mpr h.nodup
  have hlength : p.order.toList.reverse.length ≤ 2 ^ 52 := by
    have hcard := hnodup.length_le_card
    rw [Fintype.card_fin] at hcard
    omega
  have hload : load p p.order.toList.reverse ≤ 2 ^ 48 * 48 := by
    have hbound := load_le h hnodup
    have hcard := hnodup.length_le_card
    rw [Fintype.card_fin] at hcard
    omega
  refine ⟨fun v _ => (hzero v).proper, ?_⟩
  rw [hmass, zero_add]
  have hlength' : (p.order.toList.reverse.length : ℚ) ≤ 2 ^ 52 := by exact_mod_cast hlength
  calc (p.order.toList.reverse.length * one : ℚ) * growth ^ load p p.order.toList.reverse
      ≤ 2 ^ 52 * one * 2 ^ 48 := by
        refine mul_le_mul (mul_le_mul_of_nonneg_right hlength' (Nat.cast_nonneg _))
          (growth_pow_le hload) (pow_pos growth_pos _).le ?_
        exact mul_nonneg (by positivity) (Nat.cast_nonneg _)
    _ = 2 ^ 100 * one := by ring
    _ = most := by rw [most, Nat.cast_mul, Nat.cast_pow, Nat.cast_ofNat]

/-- Without overflown counts a source raises the sums by numbers. -/
theorem raised_accumulate (h : Counted g.outEdges s p) (hfit : ∀ e : g.EdgeId, ¬ p.Overflows e)
    (hcleared : ∀ v : g.Vertex, d.delta[v] = Zero.zero)
    (hsize : g.vertexCount + g.edgeCount ≤ 2 ^ 52) :
    (∀ v : g.Vertex, Raised most d.tally.vertices[v] (d.accumulate p).tally.vertices[v]) ∧
      ∀ e : g.EdgeId, Raised most d.tally.edges[e] (d.accumulate p).tally.edges[e] := by
  have hstart := within_start h hcleared hsize
  have hcap : (most : ℚ) ≤ cap := Nat.cast_le.mpr most_le_cap
  rw [accumulate_eq, (foldl_clear ..).1]
  exact ⟨raised_vertices h hfit List.suffix_rfl hstart hcap,
    raised_edges h hfit List.suffix_rfl hstart hcap⟩

end Sweep

end Geodesic.Machine
