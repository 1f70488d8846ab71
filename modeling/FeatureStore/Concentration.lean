/-
  FeatureStore/Concentration.lean
  ===============================
  **Concentration of signed amounts.**

  Finitely many participants hold signed amounts `w i`.  `gross` is the sum of
  the absolute amounts, the share of a participant is its absolute amount over
  the gross, and the index (Herfindahl) is the sum of the squared shares.

    * The index lies between one over the number of participants and one
      (`one_div_card_le_index`, `index_le_one`).
    * It is one exactly when a single participant holds everything
      (`index_eq_one_iff`).
    * A net amount whose weights are at most one is bounded by the gross
      (`abs_sum_mul_le`).

  Nothing in this file depends on what the participants and amounts are.
-/
import Mathlib.Algebra.BigOperators.Field
import Mathlib.Algebra.Order.Chebyshev
import Mathlib.Algebra.Order.BigOperators.Group.Finset
import Mathlib.Algebra.Order.Field.Basic
import Mathlib.Tactic.Linarith

universe u v

namespace Concentration

variable {ι : Type u} {K : Type v} [Field K] [LinearOrder K] [IsStrictOrderedRing K]

def gross (S : Finset ι) (w : ι → K) : K := ∑ i ∈ S, |w i|

def share (S : Finset ι) (w : ι → K) (i : ι) : K := |w i| / gross S w

def index (S : Finset ι) (w : ι → K) : K := ∑ i ∈ S, share S w i ^ 2

variable {S : Finset ι} {w : ι → K}

theorem gross_nonneg : 0 ≤ gross S w := Finset.sum_nonneg fun i _ => abs_nonneg (w i)

theorem gross_pos_iff : 0 < gross S w ↔ ∃ i ∈ S, w i ≠ 0 := by
  constructor
  · intro hpos
    by_contra hnone
    have hzero : gross S w = 0 := Finset.sum_eq_zero fun i hi => by
      by_contra hne
      exact hnone ⟨i, hi, fun h => hne (by rw [h, abs_zero])⟩
    exact absurd hpos (by rw [hzero]; exact lt_irrefl 0)
  · rintro ⟨i, hi, hne⟩
    exact Finset.sum_pos' (fun j _ => abs_nonneg (w j)) ⟨i, hi, abs_pos.mpr hne⟩

/-! ### Shares -/

theorem share_nonneg (i : ι) : 0 ≤ share S w i := div_nonneg (abs_nonneg _) gross_nonneg

theorem share_le_one {i : ι} (hi : i ∈ S) : share S w i ≤ 1 := by
  refine div_le_one_of_le₀ ?_ gross_nonneg
  exact Finset.single_le_sum (f := fun j => |w j|) (fun j _ => abs_nonneg (w j)) hi

omit [IsStrictOrderedRing K] in
theorem sum_share (h : 0 < gross S w) : ∑ i ∈ S, share S w i = 1 := by
  unfold share
  rw [← Finset.sum_div]
  exact div_self (ne_of_gt h)

theorem share_eq_zero_iff (h : 0 < gross S w) {i : ι} : share S w i = 0 ↔ w i = 0 := by
  unfold share
  rw [div_eq_zero_iff, abs_eq_zero]
  exact or_iff_left (ne_of_gt h)

theorem sq_share_le {i : ι} (hi : i ∈ S) : share S w i ^ 2 ≤ share S w i := by
  rw [sq]
  exact mul_le_of_le_one_left (share_nonneg i) (share_le_one hi)

/-! ### The index -/

theorem index_nonneg : 0 ≤ index S w := Finset.sum_nonneg fun _ _ => sq_nonneg _

theorem index_le_one (h : 0 < gross S w) : index S w ≤ 1 := by
  rw [← sum_share h]
  exact Finset.sum_le_sum fun i hi => sq_share_le hi

/-- Equal shares are the least concentrated. -/
theorem one_div_card_le_index (h : 0 < gross S w) : 1 / (S.card : K) ≤ index S w := by
  obtain ⟨i, hi, _⟩ := gross_pos_iff.mp h
  have hcard : (0 : K) < S.card := Nat.cast_pos.mpr (Finset.card_pos.mpr ⟨i, hi⟩)
  have hcauchy := sq_sum_le_card_mul_sum_sq (s := S) (f := share S w)
  rw [sum_share h, one_pow] at hcauchy
  rw [div_le_iff₀ hcard, mul_comm]
  exact hcauchy

theorem index_pos (h : 0 < gross S w) : 0 < index S w := by
  obtain ⟨i, hi, _⟩ := gross_pos_iff.mp h
  have hcard : (0 : K) < S.card := Nat.cast_pos.mpr (Finset.card_pos.mpr ⟨i, hi⟩)
  exact lt_of_lt_of_le (one_div_pos.mpr hcard) (one_div_card_le_index h)

/-- **The index is one when one participant holds everything.** -/
theorem index_eq_one_iff (h : 0 < gross S w) : index S w = 1 ↔ ∃! i, i ∈ S ∧ w i ≠ 0 := by
  constructor
  · intro hone
    -- no share lies strictly between zero and one
    have hsharp : ∀ i ∈ S, share S w i ^ 2 = share S w i := by
      refine (Finset.sum_eq_sum_iff_of_le fun i hi => sq_share_le hi).mp ?_
      rw [sum_share h]
      exact hone
    obtain ⟨i, hi, hne⟩ := gross_pos_iff.mp h
    refine ⟨i, ⟨hi, hne⟩, ?_⟩
    rintro j ⟨hj, hne'⟩
    by_contra hij
    have hshare : ∀ k ∈ S, w k ≠ 0 → share S w k = 1 := by
      intro k hk hwk
      have hkne : share S w k ≠ 0 := fun hzero => hwk ((share_eq_zero_iff h).mp hzero)
      have hsq := hsharp k hk
      rw [sq] at hsq
      exact mul_right_cancel₀ hkne (hsq.trans (one_mul _).symm)
    have hpair : share S w j + share S w i ≤ ∑ k ∈ S, share S w k :=
      Finset.add_le_sum (fun k _ => share_nonneg k) hj hi hij
    rw [hshare j hj hne', hshare i hi hne, sum_share h] at hpair
    linarith
  · rintro ⟨i, ⟨hi, hne⟩, hunique⟩
    have hzero : ∀ j ∈ S, j ≠ i → w j = 0 := by
      intro j hj hji
      by_contra hwj
      exact hji (hunique j ⟨hj, hwj⟩)
    have hgross : gross S w = |w i| :=
      Finset.sum_eq_single_of_mem i hi fun j hj hji => by rw [hzero j hj hji, abs_zero]
    have hindex : index S w = share S w i ^ 2 :=
      Finset.sum_eq_single_of_mem i hi fun j hj hji => by
        rw [(share_eq_zero_iff h).mpr (hzero j hj hji)]
        exact zero_pow two_ne_zero
    rw [hindex, share, hgross, div_self (abs_ne_zero.mpr hne), one_pow]

/-! ### Net amounts -/

/-- Weights of at most one keep a net amount inside the gross. -/
theorem abs_sum_mul_le {c : ι → K} (hc : ∀ i ∈ S, |c i| ≤ 1) :
    |∑ i ∈ S, w i * c i| ≤ gross S w := by
  refine (Finset.abs_sum_le_sum_abs _ _).trans (Finset.sum_le_sum ?_)
  intro i hi
  rw [abs_mul]
  exact mul_le_of_le_one_right (abs_nonneg _) (hc i hi)

/-- The same for the parts of one amount. -/
theorem abs_sum_map_le {K : Type v} [AddCommGroup K] [LinearOrder K] [IsOrderedAddMonoid K]
    {l : List ι} {w bound : ι → K} (h : ∀ i ∈ l, |w i| ≤ bound i) :
    |(l.map w).sum| ≤ (l.map bound).sum := by
  induction l with
  | nil => simp
  | cons i l ih =>
    have hrest := ih fun j hj => h j (List.mem_cons_of_mem _ hj)
    rw [List.map_cons, List.map_cons, List.sum_cons, List.sum_cons]
    exact (abs_add_le _ _).trans (add_le_add (h i List.mem_cons_self) hrest)

end Concentration
