import Geodesic.Proofs.Machine.Shares

/-!
# How much can be handed back

While no path count that is handed on has overflowed, what the vertices of a sweep have been handed
never adds up to more than one for each vertex, apart from rounding. Rounding multiplies this mass
by `growth` once for each operation, so all amounts stay far below the largest double.
-/

namespace Geodesic

/-- A recorded step along this edge starts at a vertex whose path count has left the range. -/
def Paths.Overflows {D : Type} {n m : Nat} (p : Paths D Float n m) (e : Fin m) : Prop :=
  ∃ w : Fin n, ∃ a ∈ p.preds[w].toList, a.1 = e ∧ p.sigma[a.2].isFinite = false

namespace Machine

open Dependency
open Paths (Counted)

variable {D : Type} {n m : Nat} {out : Fin n → List (Fin m × Fin n)} {s w : Fin n} {e : Fin m}
  {p : Paths D Float n m} {c x : Float} {d : Dependency Float n m} {a : Fin m × Fin n}
  {ws : List (Fin n)} {steps : List (Fin m × Fin n)}

/-! ## What one vertex shares out -/

theorem proper_origin (h : Counted out s p) (hfit : ∀ e : Fin m, ¬ p.Overflows e)
    (ha : a ∈ p.preds[w].toList) : Proper p.sigma[a.2] := by
  obtain ⟨b, hb, -⟩ := reads_sigma h a.2 (h.before w a ha).left_mem
  have hfinite : p.sigma[a.2].isFinite = true := by
    by_contra hover
    exact hfit a.1 ⟨w, a, ha, rfl, Bool.eq_false_iff.mpr hover⟩
  rw [proper_iff]
  exact (Unsigned.isFinite_iff (Or.inr ⟨b, hb⟩)).mp hfinite

/-- The amounts that one path of `c` each hands to some steps, in units. -/
def credits (p : Paths D Float n m) (c : Float) (steps : List (Fin m × Fin n)) : ℚ :=
  (steps.map fun a => (units (p.sigma[a.2] * c) : ℚ)).sum

theorem le_credits (ha : a ∈ steps) : (units (p.sigma[a.2] * c) : ℚ) ≤ credits p c steps :=
  List.single_le_sum (List.forall_mem_map.mpr fun _ _ => Nat.cast_nonneg _) _
    (List.mem_map_of_mem ha)

/-- Where too many paths end, nothing is left for each of them. -/
theorem credits_of_top (h : Counted out s p) (hfit : ∀ e : Fin m, ¬ p.Overflows e) (hx : Proper x)
    (htop : Reads p.sigma[w] ⊤) :
    (∀ a ∈ p.preds[w].toList, Proper (p.sigma[a.2] * (x / p.sigma[w]))) ∧
      credits p (x / p.sigma[w]) p.preds[w].toList = 0 := by
  have hnone : ∀ a ∈ p.preds[w].toList, Reads (p.sigma[a.2] * (x / p.sigma[w])) (0 : Nat) :=
    fun a ha => (proper_origin h hfit ha).mul_zero (hx.div_top htop)
  refine ⟨fun a ha => (hnone a ha).proper, List.sum_eq_zero fun y hy => ?_⟩
  obtain ⟨a, ha, rfl⟩ := List.mem_map.mp hy
  rw [(hnone a ha).units_eq, Nat.cast_zero]

/-- The counts at the origins add up to the count at the end, so the shares to what is shared. -/
theorem credits_of_proper (h : Counted out s p) (hfit : ∀ e : Fin m, ¬ p.Overflows e)
    (hx : Proper x) (hone : one ≤ units x) (hcap : (units x : ℚ) * growth ≤ cap)
    (hz : Proper p.sigma[w]) (hpaths : one ≤ units p.sigma[w]) :
    (∀ a ∈ p.preds[w].toList, Proper (p.sigma[a.2] * (x / p.sigma[w]))) ∧
      credits p (x / p.sigma[w]) p.preds[w].toList ≤
        units x * growth ^ (p.preds[w].toList.length + 2) := by
  have hshare : ∀ a ∈ p.preds[w].toList, Proper (p.sigma[a.2] * (x / p.sigma[w])) ∧
      (units (p.sigma[a.2] * (x / p.sigma[w])) : ℚ) ≤
        units x / units p.sigma[w] * growth ^ 2 * units p.sigma[a.2] := by
    intro a ha
    have hy := proper_origin h hfit ha
    obtain ⟨b, hb, hyone⟩ := reads_sigma h a.2 (h.before w a ha).left_mem
    obtain rfl := hb.unique hy
    have hyz : units p.sigma[a.2] ≤ units p.sigma[w] :=
      Nat.cast_le.mp (sigma_le_of_step h ha hy hz)
    exact hx.share hy hz hone (Nat.cast_le.mp hyone) hyz hcap
  refine ⟨fun a ha => (hshare a ha).1, ?_⟩
  have hzpos : (0 : ℚ) < units p.sigma[w] := Nat.cast_pos.mpr (unity_pos.trans_le hpaths)
  have hratio : (0 : ℚ) ≤ units x / units p.sigma[w] * growth ^ 2 :=
    mul_nonneg (div_nonneg (Nat.cast_nonneg _) hzpos.le) (pow_pos growth_pos 2).le
  calc credits p (x / p.sigma[w]) p.preds[w].toList
      ≤ (p.preds[w].toList.map fun a =>
          units x / units p.sigma[w] * growth ^ 2 * units p.sigma[a.2]).sum :=
        List.sum_le_sum fun a ha => (hshare a ha).2
    _ = units x / units p.sigma[w] * growth ^ 2 *
          (p.preds[w].toList.map fun a => (units p.sigma[a.2] : ℚ)).sum :=
        List.sum_map_mul_left ..
    _ ≤ units x / units p.sigma[w] * growth ^ 2 *
          (units p.sigma[w] * growth ^ p.preds[w].toList.length) :=
        mul_le_mul_of_nonneg_left (sum_sigma_le h hz) hratio
    _ = units x * growth ^ (p.preds[w].toList.length + 2) := by
        field_simp
        ring

/-- Steps into a vertex carry what it shares out, and no more. -/
theorem credits_le (h : Counted out s p) (hfit : ∀ e : Fin m, ¬ p.Overflows e)
    (hw : w ∈ p.order.toList) (hx : Proper x) (hone : one ≤ units x)
    (hcap : (units x : ℚ) * growth ≤ cap) :
    (∀ a ∈ p.preds[w].toList, Proper (p.sigma[a.2] * (x / p.sigma[w]))) ∧
      credits p (x / p.sigma[w]) p.preds[w].toList ≤
        units x * growth ^ (p.preds[w].toList.length + 2) := by
  obtain ⟨b, hb, hpaths⟩ := reads_sigma h w hw
  cases b with
  | top =>
      obtain ⟨hproper, hzero⟩ := credits_of_top h hfit hx hb
      rw [hzero]
      exact ⟨hproper, mul_nonneg (Nat.cast_nonneg _) (pow_pos growth_pos _).le⟩
  | coe N =>
      have hcount : one ≤ units p.sigma[w] := by
        rw [hb.units_eq]
        exact Nat.cast_le.mp hpaths
      exact credits_of_proper h hfit hx hone hcap hb.proper hcount

/-! ## What the vertices hold -/

/-- What the vertices of a list have been handed, in units. -/
def mass (d : Dependency Float n m) (ws : List (Fin n)) : ℚ :=
  (ws.map fun v => (units d.delta[v] : ℚ)).sum

theorem mass_nonneg (d : Dependency Float n m) (ws : List (Fin n)) : 0 ≤ mass d ws :=
  List.sum_nonneg (List.forall_mem_map.mpr fun _ _ => Nat.cast_nonneg _)

theorem credits_nonneg (p : Paths D Float n m) (c : Float) (steps : List (Fin m × Fin n)) :
    0 ≤ credits p c steps :=
  List.sum_nonneg (List.forall_mem_map.mpr fun _ _ => Nat.cast_nonneg _)

theorem mass_creditStep (hws : ws.Nodup) (hd : ∀ v ∈ ws, Proper d.delta[v]) (ha : a.2 ∈ ws)
    (hcredit : Proper (p.sigma[a.2] * c))
    (hcap : mass d ws + units (p.sigma[a.2] * c) ≤ cap) :
    (∀ v ∈ ws, Proper (creditStep p c d a).delta[v]) ∧
      mass (creditStep p c d a) ws ≤ (mass d ws + units (p.sigma[a.2] * c)) * growth := by
  -- All but the origin of the step keep what they hold.
  have hrest : ∀ v ∈ ws.erase a.2, (creditStep p c d a).delta[v] = d.delta[v] := by
    intro v hv
    exact delta_creditStep_of_ne fun heq => (hws.mem_erase_iff.mp hv).1 heq.symm
  have hothers : ((ws.erase a.2).map fun v => (units (creditStep p c d a).delta[v] : ℚ)) =
      (ws.erase a.2).map fun v => (units d.delta[v] : ℚ) :=
    List.map_congr_left fun v hv => by rw [hrest v hv]
  have hbefore := List.sum_map_erase (fun v => (units d.delta[v] : ℚ)) ha
  have hafter := List.sum_map_erase (fun v => (units (creditStep p c d a).delta[v] : ℚ)) ha
  have hnonneg : 0 ≤ ((ws.erase a.2).map fun v => (units d.delta[v] : ℚ)).sum :=
    List.sum_nonneg (List.forall_mem_map.mpr fun _ _ => Nat.cast_nonneg _)
  rw [hothers, delta_creditStep_self] at hafter
  rw [mass, ← hbefore] at hcap
  have hsum : Proper (d.delta[a.2] + p.sigma[a.2] * c) :=
    (hd a.2 ha).add hcredit (by linarith)
  have hgrown := ((hd a.2 ha).add_bounds hcredit hsum).1
  constructor
  · intro v hv
    by_cases hva : a.2 = v
    · subst hva
      rw [delta_creditStep_self]
      exact hsum
    · rw [delta_creditStep_of_ne hva]
      exact hd v hv
  · rw [mass, mass, ← hafter, ← hbefore]
    have hkept := le_mul_of_one_le_right hnonneg one_le_growth
    linarith

theorem mass_foldl (hws : ws.Nodup) (hd : ∀ v ∈ ws, Proper d.delta[v])
    (hsteps : ∀ a ∈ steps, a.2 ∈ ws ∧ Proper (p.sigma[a.2] * c))
    (hcap : (mass d ws + credits p c steps) * growth ^ steps.length ≤ cap) :
    (∀ v ∈ ws, Proper (steps.foldl (creditStep p c) d).delta[v]) ∧
      mass (steps.foldl (creditStep p c) d) ws ≤
        (mass d ws + credits p c steps) * growth ^ steps.length := by
  induction steps generalizing d with
  | nil =>
      refine ⟨hd, le_of_eq ?_⟩
      simp [credits]
  | cons a steps ih =>
      obtain ⟨ha, hcredit⟩ := hsteps a (by simp)
      have hmass := mass_nonneg d ws
      have hrest := credits_nonneg p c steps
      have hone : (0 : ℚ) ≤ units (p.sigma[a.2] * c) := Nat.cast_nonneg _
      have hsplit : credits p c (a :: steps) = units (p.sigma[a.2] * c) + credits p c steps := by
        rw [credits, List.map_cons, List.sum_cons]
        rfl
      rw [hsplit, List.length_cons] at hcap ⊢
      generalize hu : (units (p.sigma[a.2] * c) : ℚ) = u at *
      have hpower : (1 : ℚ) ≤ growth ^ (steps.length + 1) := one_le_pow₀ one_le_growth
      have hfirst : mass d ws + u ≤ cap := by
        have htotal := le_mul_of_one_le_right (add_nonneg hmass (add_nonneg hone hrest)) hpower
        linarith
      obtain ⟨hd', hmass'⟩ := mass_creditStep hws hd ha hcredit (by rw [hu]; exact hfirst)
      rw [hu] at hmass'
      have hstep : (mass (creditStep p c d a) ws + credits p c steps) * growth ^ steps.length ≤
          (mass d ws + (u + credits p c steps)) * growth ^ (steps.length + 1) := by
        rw [pow_succ', ← mul_assoc]
        refine mul_le_mul_of_nonneg_right ?_ (pow_pos growth_pos _).le
        have hkept := le_mul_of_one_le_right hrest one_le_growth
        linarith
      obtain ⟨hproper, hle⟩ := ih hd' (fun b hb => hsteps b (List.mem_cons_of_mem a hb))
        (hstep.trans hcap)
      exact ⟨hproper, hle.trans hstep⟩

/-! ## One vertex after another -/

theorem scale_le {y : ℚ} {i j : Nat} (hy : 0 ≤ y) (hij : i ≤ j) :
    y * growth ^ i ≤ y * growth ^ j :=
  mul_le_mul_of_nonneg_left (pow_le_pow_right₀ one_le_growth hij) hy

theorem le_scale {y : ℚ} (hy : 0 ≤ y) (j : Nat) : y ≤ y * growth ^ j :=
  le_mul_of_one_le_right hy (one_le_pow₀ one_le_growth)

/-- What a vertex shares out: one for itself, and what it has been handed. -/
theorem one_add_bounds (hx : Proper x) (hcap : (one + units x : ℚ) ≤ cap) :
    Proper (One.one + x) ∧ one ≤ units (One.one + x) ∧
      (units (One.one + x) : ℚ) ≤ (one + units x) * growth := by
  have hone : units One.one = one := reads_one.units_eq
  have hsum : Proper (One.one + x) := reads_one.proper.add hx (by rw [hone]; exact hcap)
  obtain ⟨b, hb, hle, -⟩ := reads_one.le_add hx
  obtain rfl := hb.unique hsum
  have hgrown := (reads_one.proper.add_bounds hx hsum).1
  rw [hone] at hgrown
  exact ⟨hsum, Nat.cast_le.mp hle, hgrown⟩

/-- What the steps into `w` carry when it is its turn. -/
theorem credits_of_held (h : Counted out s p) (hfit : ∀ e : Fin m, ¬ p.Overflows e)
    (hw : w ∈ p.order.toList) (hx : Proper x) (hcap : (one + units x : ℚ) * growth ^ 2 ≤ cap) :
    (∀ a ∈ p.preds[w].toList, Proper (p.sigma[a.2] * ((One.one + x) / p.sigma[w]))) ∧
      credits p ((One.one + x) / p.sigma[w]) p.preds[w].toList ≤
        (one + units x) * growth ^ (p.preds[w].toList.length + 3) := by
  have hheld : (0 : ℚ) ≤ one + units x := add_nonneg (Nat.cast_nonneg _) (Nat.cast_nonneg _)
  obtain ⟨hsum, hone, hle⟩ := one_add_bounds hx ((le_scale hheld 2).trans hcap)
  have hshared_cap : (units (One.one + x) : ℚ) * growth ≤ cap := by
    calc (units (One.one + x) : ℚ) * growth ≤ (one + units x) * growth * growth :=
          mul_le_mul_of_nonneg_right hle growth_pos.le
      _ = (one + units x) * growth ^ 2 := by ring
      _ ≤ cap := hcap
  obtain ⟨hproper, hcredits⟩ := credits_le h hfit hw hsum hone hshared_cap
  refine ⟨hproper, ?_⟩
  calc credits p ((One.one + x) / p.sigma[w]) p.preds[w].toList
      ≤ units (One.one + x) * growth ^ (p.preds[w].toList.length + 2) := hcredits
    _ ≤ (one + units x) * growth * growth ^ (p.preds[w].toList.length + 2) :=
        mul_le_mul_of_nonneg_right hle (pow_pos growth_pos _).le
    _ = (one + units x) * growth ^ (p.preds[w].toList.length + 3) := by ring

/-- The number of operations that handing back from the vertices of a list takes at most. -/
def load (p : Paths D Float n m) (ws : List (Fin n)) : Nat :=
  (ws.map fun v => 2 * p.preds[v].toList.length + 3).sum

/-- What is left to hand back, one for each vertex and what it has been handed, stays below `b`
after all operations to come. -/
structure Within (p : Paths D Float n m) (b : ℚ) (ws : List (Fin n))
    (d : Dependency Float n m) : Prop where
  proper : ∀ v ∈ ws, Proper d.delta[v]
  bound : (mass d ws + ws.length * one) * growth ^ load p ws ≤ b

variable {b : ℚ}

/-- The operations of the first vertex scale what it shares out and what the others hold. -/
theorem Within.bound_cons (hd : Within p b (w :: ws) d) :
    ((one + units d.delta[w] + mass d ws) * growth ^ (2 * p.preds[w].toList.length + 3) +
      ws.length * one) * growth ^ load p ws ≤ b := by
  have hbound := hd.bound
  have hmass : mass d (w :: ws) = units d.delta[w] + mass d ws := List.sum_cons
  have hload : load p (w :: ws) = 2 * p.preds[w].toList.length + 3 + load p ws := List.sum_cons
  have hothers : (0 : ℚ) ≤ ws.length * one := mul_nonneg (Nat.cast_nonneg _) (Nat.cast_nonneg _)
  rw [hmass, hload, List.length_cons, Nat.cast_succ, pow_add, ← mul_assoc] at hbound
  refine le_trans (mul_le_mul_of_nonneg_right ?_ (pow_pos growth_pos _).le) hbound
  calc (one + units d.delta[w] + mass d ws) * growth ^ (2 * p.preds[w].toList.length + 3) +
        ws.length * one
      ≤ (one + units d.delta[w] + mass d ws) * growth ^ (2 * p.preds[w].toList.length + 3) +
        ws.length * one * growth ^ (2 * p.preds[w].toList.length + 3) :=
        add_le_add le_rfl (le_scale hothers _)
    _ = (units d.delta[w] + mass d ws + (ws.length + 1) * one) *
        growth ^ (2 * p.preds[w].toList.length + 3) := by ring

theorem Within.shared_le (hd : Within p b (w :: ws) d) :
    (one + units d.delta[w] + mass d ws) * growth ^ (2 * p.preds[w].toList.length + 3) ≤ b := by
  have hmass := mass_nonneg d ws
  have hshared : (0 : ℚ) ≤ (one + units d.delta[w] + mass d ws) *
      growth ^ (2 * p.preds[w].toList.length + 3) := by
    refine mul_nonneg ?_ (pow_pos growth_pos _).le
    exact add_nonneg (add_nonneg (Nat.cast_nonneg _) (Nat.cast_nonneg _)) hmass
  have hothers : (0 : ℚ) ≤ ws.length * one := mul_nonneg (Nat.cast_nonneg _) (Nat.cast_nonneg _)
  refine le_trans ?_ hd.bound_cons
  exact (le_add_of_nonneg_right hothers).trans (le_scale (add_nonneg hshared hothers) _)

theorem Within.held_le (hd : Within p b (w :: ws) d) : (units d.delta[w] : ℚ) ≤ b := by
  have hmass := mass_nonneg d ws
  have hone : (0 : ℚ) ≤ one := Nat.cast_nonneg _
  have hheld : (0 : ℚ) ≤ units d.delta[w] := Nat.cast_nonneg _
  have htotal : (units d.delta[w] : ℚ) ≤ one + units d.delta[w] + mass d ws := by linarith
  exact (htotal.trans (le_scale (hheld.trans htotal) _)).trans hd.shared_le

theorem mass_creditVertex (d : Dependency Float n m) (w : Fin n) :
    mass (creditVertex p d w) ws = mass d ws := by
  unfold mass
  simp only [delta_creditVertex]

/-- Handing back from one vertex keeps to the bound, and so does all that it credits. -/
theorem Within.passBack (h : Counted out s p) (hfit : ∀ e : Fin m, ¬ p.Overflows e)
    (hws : w :: ws <:+ p.order.toList.reverse) (hd : Within p b (w :: ws) d) (hb : b ≤ cap) :
    (∀ a ∈ p.preds[w].toList, Proper (p.sigma[a.2] * ((One.one + d.delta[w]) / p.sigma[w])) ∧
      (units (p.sigma[a.2] * ((One.one + d.delta[w]) / p.sigma[w])) : ℚ) ≤ b) ∧
      Within p b ws (passBack p d w) := by
  have hw : w ∈ p.order.toList := List.mem_reverse.mp (hws.mem (by simp))
  have hnodup : (w :: ws).Nodup := (List.nodup_reverse.mpr h.nodup).sublist hws.sublist
  have hmass := mass_nonneg d ws
  have hheld : (0 : ℚ) ≤ one + units d.delta[w] :=
    add_nonneg (Nat.cast_nonneg _) (Nat.cast_nonneg _)
  have hown : (one + units d.delta[w] : ℚ) * growth ^ (2 * p.preds[w].toList.length + 3) ≤ b := by
    refine le_trans (mul_le_mul_of_nonneg_right ?_ (pow_pos growth_pos _).le) hd.shared_le
    exact le_add_of_nonneg_right hmass
  have hcap : (one + units d.delta[w] : ℚ) * growth ^ 2 ≤ cap :=
    (scale_le hheld (by omega)).trans (hown.trans hb)
  obtain ⟨hproper, hcredits⟩ := credits_of_held h hfit hw (hd.proper w (by simp)) hcap
  have hfold : (mass d ws + credits p ((One.one + d.delta[w]) / p.sigma[w]) p.preds[w].toList) *
      growth ^ p.preds[w].toList.length ≤
        (one + units d.delta[w] + mass d ws) * growth ^ (2 * p.preds[w].toList.length + 3) := by
    have hboth := add_le_add (le_scale hmass (p.preds[w].toList.length + 3)) hcredits
    refine (mul_le_mul_of_nonneg_right hboth (pow_pos growth_pos _).le).trans (le_of_eq ?_)
    ring
  obtain ⟨hlast, hmass'⟩ := mass_foldl hnodup.of_cons
    (fun v hv => hd.proper v (List.mem_cons_of_mem w hv))
    (fun a ha => ⟨h.origin_mem hws ha, hproper a ha⟩) (hfold.trans (hd.shared_le.trans hb))
  constructor
  · intro a ha
    have hone : (units (p.sigma[a.2] * ((One.one + d.delta[w]) / p.sigma[w])) : ℚ) ≤
        (one + units d.delta[w]) * growth ^ (p.preds[w].toList.length + 3) :=
      (le_credits ha).trans hcredits
    exact ⟨hproper a ha, hone.trans ((scale_le hheld (by omega)).trans hown)⟩
  · rw [passBack_eq (sigma_not_nonpos h hw)]
    constructor
    · intro v hv
      rw [delta_creditVertex]
      exact hlast v hv
    · rw [mass_creditVertex]
      refine le_trans (mul_le_mul_of_nonneg_right ?_ (pow_pos growth_pos _).le) hd.bound_cons
      exact add_le_add (hmass'.trans hfold) le_rfl

end Machine

end Geodesic
