/-
  FeatureStore/Lots.lean
  ======================
  **Lots of a priced quantity.**

  A quantity that was collected at several prices is a list of lots.  Its mean
  price is the cost of the lots over their size.  The lemmas say how size, cost
  and mean move when a lot is added and when all lots shrink alike
  (`mean_append`, `mean_scale`), and that the mean lies between the prices
  (`exists_le_mean`, `exists_mean_le`).

  Nothing in this file depends on what is bought and when.
-/
import Mathlib.Algebra.BigOperators.Group.List.Basic
import Mathlib.Algebra.BigOperators.Ring.List
import Mathlib.Algebra.Order.BigOperators.Group.List
import Mathlib.Algebra.Order.Field.Basic
import Mathlib.Tactic.Linarith
import Mathlib.Tactic.Ring

universe u

structure Lot (K : Type u) where
  size : K
  price : K
deriving DecidableEq, Repr

namespace Lots

variable {K : Type u} [Field K]

def size (lots : List (Lot K)) : K := (lots.map Lot.size).sum

def cost (lots : List (Lot K)) : K := (lots.map fun lot => lot.size * lot.price).sum

/-- The size-weighted price of the lots. -/
def mean (lots : List (Lot K)) : K := cost lots / size lots

/-- Every lot is scaled by the same factor. -/
def scale (c : K) (lots : List (Lot K)) : List (Lot K) :=
  lots.map fun lot => { lot with size := c * lot.size }

@[simp] theorem size_nil : size ([] : List (Lot K)) = 0 := rfl

@[simp] theorem size_append (lots more : List (Lot K)) :
    size (lots ++ more) = size lots + size more := by
  simp [size]

@[simp] theorem cost_append (lots more : List (Lot K)) :
    cost (lots ++ more) = cost lots + cost more := by
  simp [cost]

@[simp] theorem size_singleton (lot : Lot K) : size [lot] = lot.size := by simp [size]

@[simp] theorem cost_singleton (lot : Lot K) : cost [lot] = lot.size * lot.price := by simp [cost]

@[simp] theorem size_scale (c : K) (lots : List (Lot K)) : size (scale c lots) = c * size lots := by
  induction lots with
  | nil => simp [size, scale]
  | cons lot lots ih =>
    simp only [size, scale, List.map_cons, List.sum_cons] at ih ⊢
    rw [ih]
    ring

@[simp] theorem cost_scale (c : K) (lots : List (Lot K)) : cost (scale c lots) = c * cost lots := by
  induction lots with
  | nil => simp [cost, scale]
  | cons lot lots ih =>
    simp only [cost, scale, List.map_cons, List.sum_cons] at ih ⊢
    rw [ih]
    ring

@[simp] theorem map_price_scale (c : K) (lots : List (Lot K)) :
    (scale c lots).map Lot.price = lots.map Lot.price := by
  simp [scale]

/-- The mean price stays when all lots shrink alike. -/
theorem mean_scale {c : K} (hc : c ≠ 0) (lots : List (Lot K)) : mean (scale c lots) = mean lots := by
  rw [mean, size_scale, cost_scale, mul_div_mul_left _ _ hc, mean]

theorem mean_singleton {lot : Lot K} (h : lot.size ≠ 0) : mean [lot] = lot.price := by
  rw [mean, size_singleton, cost_singleton, mul_div_cancel_left₀ _ h]

section Bounds

variable [LinearOrder K] [IsStrictOrderedRing K] {lots : List (Lot K)}

/-- Lots that all cost more than `p` cost more than their size at `p`. -/
theorem size_mul_lt_cost {p : K} (hsize : ∀ lot ∈ lots, 0 < lot.size) (hne : lots ≠ [])
    (hprice : ∀ lot ∈ lots, p < lot.price) : size lots * p < cost lots := by
  rw [size, cost, ← List.sum_map_mul_right]
  apply List.sum_lt_sum_of_ne_nil hne
  intro lot hlot
  exact mul_lt_mul_of_pos_left (hprice lot hlot) (hsize lot hlot)

theorem cost_lt_size_mul {p : K} (hsize : ∀ lot ∈ lots, 0 < lot.size) (hne : lots ≠ [])
    (hprice : ∀ lot ∈ lots, lot.price < p) : cost lots < size lots * p := by
  rw [size, cost, ← List.sum_map_mul_right]
  apply List.sum_lt_sum_of_ne_nil hne
  intro lot hlot
  exact mul_lt_mul_of_pos_left (hprice lot hlot) (hsize lot hlot)

theorem size_pos (hsize : ∀ lot ∈ lots, 0 < lot.size) (hne : lots ≠ []) : 0 < size lots := by
  apply List.sum_pos
  · intro c hc
    obtain ⟨lot, hlot, rfl⟩ := List.mem_map.mp hc
    exact hsize lot hlot
  · simpa using hne

/-- Size times mean is cost, without lots as well. -/
theorem size_mul_mean (hsize : ∀ lot ∈ lots, 0 < lot.size) : size lots * mean lots = cost lots := by
  by_cases hne : lots = []
  · simp [hne, size, cost]
  · exact mul_div_cancel₀ _ (ne_of_gt (size_pos hsize hne))

/-- A lot more re-weights the mean. -/
theorem mean_append (hsize : ∀ lot ∈ lots, 0 < lot.size) (lot : Lot K) :
    mean (lots ++ [lot]) =
      (size lots * mean lots + lot.size * lot.price) / (size lots + lot.size) := by
  rw [size_mul_mean hsize, mean, size_append, cost_append, size_singleton, cost_singleton]

/-- **The mean price is no less than the lowest price.** -/
theorem exists_le_mean (hsize : ∀ lot ∈ lots, 0 < lot.size) (hne : lots ≠ []) :
    ∃ lot ∈ lots, lot.price ≤ mean lots := by
  by_contra hall
  push Not at hall
  have hlt := size_mul_lt_cost hsize hne hall
  exact absurd (size_mul_mean hsize) (ne_of_lt hlt)

/-- **The mean price is no more than the highest price.** -/
theorem exists_mean_le (hsize : ∀ lot ∈ lots, 0 < lot.size) (hne : lots ≠ []) :
    ∃ lot ∈ lots, mean lots ≤ lot.price := by
  by_contra hall
  push Not at hall
  have hlt := cost_lt_size_mul hsize hne hall
  exact absurd (size_mul_mean hsize) (ne_of_gt hlt)

end Bounds

end Lots
