/-
  FeatureStore/Sorting.lean
  =========================
  **Sorting by a key, and the nearest-rank percentiles of a list.**

  `sortBy key l` is the stable sort of `l`.  With a key that tells all elements
  apart it depends on the elements and not on their order (`sortBy_congr`).

  `v` is the percentile `q` of a list if more than the share `q` of its elements
  are at most `v`, and no more than this share are less than `v`.  In a sorted list
  of length `n` that is the element at position `⌊n * q⌋` (`isPercentile_getElem`).

  Nothing in this file depends on what is sorted.
-/
import Mathlib.Algebra.Order.Floor.Ring
import Mathlib.Algebra.Order.Floor.Semiring
import Mathlib.Algebra.Order.Field.Basic
import Mathlib.Data.Rat.Floor
import Mathlib.Data.List.Count
import Mathlib.Data.List.Sort
import Mathlib.Tactic.Linarith

universe u v

namespace Sorting

/-! ### Sorting by a key -/

section SortBy

variable {α : Type u} {κ : Type v} [LinearOrder κ] (key : α → κ)

def sortBy (l : List α) : List α := l.mergeSort fun a b => decide (key a ≤ key b)

theorem sortBy_perm (l : List α) : (sortBy key l).Perm l := List.mergeSort_perm l _

theorem pairwise_sortBy (l : List α) : (sortBy key l).Pairwise fun a b => key a ≤ key b := by
  have htrans : ∀ a b c : α, decide (key a ≤ key b) = true → decide (key b ≤ key c) = true →
      decide (key a ≤ key c) = true := by
    intro a b c hab hbc
    exact decide_eq_true ((of_decide_eq_true hab).trans (of_decide_eq_true hbc))
  have htotal : ∀ a b : α, (decide (key a ≤ key b) || decide (key b ≤ key a)) = true := by
    intro a b
    simpa using le_total (key a) (key b)
  exact (List.pairwise_mergeSort htrans htotal l).imp of_decide_eq_true

theorem sortBy_congr {l l' : List α} (hkey : Function.Injective key) (h : l.Perm l') :
    sortBy key l = sortBy key l' :=
  List.Perm.eq_of_pairwise (fun _ _ _ _ hab hba => hkey (le_antisymm hab hba))
    (pairwise_sortBy key l) (pairwise_sortBy key l')
    ((sortBy_perm key l).trans (h.trans (sortBy_perm key l').symm))

/-- What is not among the first comes after them. -/
theorem key_le_of_notMem_take {l : List α} {n : ℕ} {x y : α} (hx : x ∈ l)
    (hout : x ∉ (sortBy key l).take n) (hy : y ∈ (sortBy key l).take n) : key y ≤ key x := by
  have hpair := pairwise_sortBy key l
  have hmem := (sortBy_perm key l).mem_iff.mpr hx
  rw [← List.take_append_drop n (sortBy key l)] at hpair hmem
  rcases List.mem_append.mp hmem with hin | hrest
  · exact absurd hin hout
  · exact (List.pairwise_append.mp hpair).2.2 y hy x hrest

theorem sortBy_of_pairwise {l : List α} (h : l.Pairwise fun a b => key a ≤ key b) :
    sortBy key l = l :=
  List.mergeSort_of_pairwise (h.imp decide_eq_true)

end SortBy

/-! ### Percentiles -/

variable {α : Type u} [LinearOrder α] {l l' : List α} {q : ℚ} {v : α} {k : ℕ}

/-- `v` is the percentile `q` of the list. -/
structure IsPercentile (q : ℚ) (l : List α) (v : α) : Prop where
  mem : v ∈ l
  most : l.length * q < l.countP fun x => x ≤ v
  few : (l.countP fun x => x < v) ≤ l.length * q

theorem IsPercentile.perm (h : IsPercentile q l v) (hperm : l.Perm l') : IsPercentile q l' v where
  mem := hperm.mem_iff.mp h.mem
  most := by simpa only [hperm.length_eq, hperm.countP_eq] using h.most
  few := by simpa only [hperm.length_eq, hperm.countP_eq] using h.few

theorem countP_lt_getElem_le (hs : l.Pairwise (· ≤ ·)) (hk : k < l.length) :
    (l.countP fun x => x < l[k]) ≤ k := by
  have hdrop : ((l.drop k).countP fun x => x < l[k]) = 0 := by
    refine List.countP_eq_zero.mpr fun x hx => ?_
    obtain ⟨j, hj, rfl⟩ := List.mem_drop_iff_getElem.mp hx
    have hle : l[k] ≤ l[k + j] := by
      rcases Nat.eq_zero_or_pos j with rfl | hpos
      · exact le_refl l[k]
      · exact List.pairwise_iff_getElem.mp hs k (k + j) hk (by omega) (by omega)
    simpa using hle
  have hsplit := congrArg (List.countP fun x => x < l[k]) (List.take_append_drop k l)
  rw [List.countP_append, hdrop, Nat.add_zero] at hsplit
  calc (l.countP fun x => x < l[k]) = (l.take k).countP fun x => x < l[k] := hsplit.symm
    _ ≤ (l.take k).length := List.countP_le_length
    _ ≤ k := List.length_take_le k l

theorem lt_countP_le_getElem (hs : l.Pairwise (· ≤ ·)) (hk : k < l.length) :
    k < l.countP fun x => x ≤ l[k] := by
  have htake : ((l.take (k + 1)).countP fun x => x ≤ l[k]) = (l.take (k + 1)).length := by
    refine List.countP_eq_length.mpr fun x hx => ?_
    obtain ⟨j, hj, rfl⟩ := List.mem_take_iff_getElem.mp hx
    have hle : l[j] ≤ l[k] := by
      rcases Nat.lt_or_ge j k with hlt | hge
      · exact List.pairwise_iff_getElem.mp hs j k (by omega) hk hlt
      · obtain rfl : j = k := by omega
        exact le_refl l[j]
    simpa using hle
  have hlength : (l.take (k + 1)).length = k + 1 := List.length_take_of_le hk
  have hle := (List.take_sublist (k + 1) l).countP_le (p := fun x => x ≤ l[k])
  omega

/-- The position of the percentile `q` in a sorted list of `n` elements. -/
def rank (q : ℚ) (n : ℕ) : ℕ := ⌊n * q⌋₊

theorem rank_lt {n : ℕ} (hq : 0 ≤ q) (hq1 : q < 1) (hn : 0 < n) : rank q n < n := by
  have hn' : (0 : ℚ) < n := Nat.cast_pos.mpr hn
  refine (Nat.floor_lt (mul_nonneg hn'.le hq)).mpr ?_
  calc (n : ℚ) * q < n * 1 := mul_lt_mul_of_pos_left hq1 hn'
    _ = n := mul_one _

/-- **The element at the rank is the percentile.** -/
theorem isPercentile_getElem (hq : 0 ≤ q) (hs : l.Pairwise (· ≤ ·))
    (hk : rank q l.length < l.length) : IsPercentile q l l[rank q l.length] where
  mem := List.getElem_mem hk
  most := by
    have hlt : (l.length : ℚ) * q < rank q l.length + 1 := Nat.lt_floor_add_one _
    have hcount : ((rank q l.length + 1 : ℕ) : ℚ) ≤
        (l.countP fun x => x ≤ l[rank q l.length] : ℕ) :=
      Nat.cast_le.mpr (lt_countP_le_getElem hs hk)
    push_cast at hcount
    linarith
  few := by
    have hle : (rank q l.length : ℚ) ≤ l.length * q :=
      Nat.floor_le (mul_nonneg (Nat.cast_nonneg _) hq)
    have hcount : ((l.countP fun x => x < l[rank q l.length] : ℕ) : ℚ) ≤ rank q l.length :=
      Nat.cast_le.mpr (countP_lt_getElem_le hs hk)
    linarith

end Sorting
