/-
  FeatureStore/Rounding.lean
  ==========================
  **Rounding to decimal places, ties to even.**

  `roundTo d x` is the multiple of `10^(-d)` nearest to `x`; of two that are
  equally near it is the one whose last digit is even.  It never leaves an
  interval whose ends have at most `d` decimal places (`le_roundTo`,
  `roundTo_le`), and it reaches such a number already from a little below
  (`le_roundTo_iff`).

  Nothing in this file depends on what is rounded.
-/
import Mathlib.Algebra.Order.Floor.Ring
import Mathlib.Algebra.Order.Field.Basic
import Mathlib.Data.Rat.Floor
import Mathlib.Tactic.Linarith

namespace Rounding

/-- The nearest integer, ties to even. -/
def halfEven (x : ℚ) : ℤ :=
  if x - ⌊x⌋ < 1 / 2 then ⌊x⌋
  else if 1 / 2 < x - ⌊x⌋ then ⌊x⌋ + 1
  else if ⌊x⌋ % 2 = 0 then ⌊x⌋
  else ⌊x⌋ + 1

theorem halfEven_cases (x : ℚ) : halfEven x = ⌊x⌋ ∨ (halfEven x = ⌊x⌋ + 1 ∧ 1 / 2 ≤ x - ⌊x⌋) := by
  unfold halfEven
  by_cases hlow : x - ⌊x⌋ < 1 / 2
  · exact Or.inl (if_pos hlow)
  · rw [if_neg hlow]
    have hhalf : 1 / 2 ≤ x - ⌊x⌋ := not_lt.mp hlow
    by_cases hhigh : 1 / 2 < x - ⌊x⌋
    · exact Or.inr ⟨if_pos hhigh, hhalf⟩
    · rw [if_neg hhigh]
      by_cases heven : ⌊x⌋ % 2 = 0
      · exact Or.inl (if_pos heven)
      · exact Or.inr ⟨if_neg heven, hhalf⟩

theorem le_halfEven {m : ℤ} {x : ℚ} (h : (m : ℚ) ≤ x) : m ≤ halfEven x := by
  have hfloor : m ≤ ⌊x⌋ := Int.le_floor.mpr h
  rcases halfEven_cases x with heq | ⟨heq, _⟩ <;> rw [heq] <;> omega

theorem halfEven_le {m : ℤ} {x : ℚ} (h : x ≤ (m : ℚ)) : halfEven x ≤ m := by
  rcases halfEven_cases x with heq | ⟨heq, hhalf⟩
  · rw [heq]
    exact Int.cast_le.mp ((Int.floor_le x).trans h)
  · -- `x` is not an integer, so its floor is below `m`
    have hlt : (⌊x⌋ : ℚ) < m := by linarith
    rw [heq]
    exact Int.add_one_le_iff.mpr (Int.cast_lt.mp hlt)

theorem floor_lt_halfEven_iff (x : ℚ) :
    ⌊x⌋ < halfEven x ↔ 1 / 2 < x - ⌊x⌋ ∨ (x - ⌊x⌋ = 1 / 2 ∧ ⌊x⌋ % 2 ≠ 0) := by
  unfold halfEven
  by_cases hlow : x - ⌊x⌋ < 1 / 2
  · rw [if_pos hlow]
    refine iff_of_false (lt_irrefl _) ?_
    rintro (h | ⟨h, _⟩) <;> linarith
  · rw [if_neg hlow]
    by_cases hhigh : 1 / 2 < x - ⌊x⌋
    · rw [if_pos hhigh]
      exact iff_of_true (Int.lt_add_one_iff.mpr (le_refl _)) (Or.inl hhigh)
    · have htie : x - ⌊x⌋ = 1 / 2 := le_antisymm (not_lt.mp hhigh) (not_lt.mp hlow)
      rw [if_neg hhigh]
      by_cases heven : ⌊x⌋ % 2 = 0
      · rw [if_pos heven]
        refine iff_of_false (lt_irrefl _) ?_
        rintro (h | ⟨_, hodd⟩)
        · exact hhigh h
        · exact hodd heven
      · rw [if_neg heven]
        exact iff_of_true (Int.lt_add_one_iff.mpr (le_refl _)) (Or.inr ⟨htie, heven⟩)

/-- **When the rounded number reaches an integer.** -/
theorem le_halfEven_iff {m : ℤ} {x : ℚ} :
    m ≤ halfEven x ↔ m - 1 / 2 < x ∨ (x = m - 1 / 2 ∧ m % 2 = 0) := by
  have hfloor : (⌊x⌋ : ℚ) ≤ x := Int.floor_le x
  have hceil : x < ⌊x⌋ + 1 := Int.lt_floor_add_one x
  rcases lt_trichotomy m (⌊x⌋ + 1) with hlt | rfl | hgt
  · have hm : (m : ℚ) ≤ ⌊x⌋ := Int.cast_le.mpr (by omega)
    exact iff_of_true (le_halfEven (hm.trans hfloor)) (Or.inl (by linarith))
  · rw [Int.add_one_le_iff, floor_lt_halfEven_iff]
    push_cast
    refine or_congr ?_ (and_congr ?_ (by omega))
    · constructor <;> intro h <;> linarith
    · constructor <;> intro h <;> linarith
  · have hm : (⌊x⌋ : ℚ) + 1 + 1 ≤ m := by exact_mod_cast Int.add_one_le_iff.mpr hgt
    have hcases := halfEven_cases x
    refine iff_of_false (by omega) ?_
    rintro (h | ⟨h, _⟩) <;> linarith

/-- `round(x, d)`. -/
def roundTo (d : ℕ) (x : ℚ) : ℚ := halfEven (x * 10 ^ d) / 10 ^ d

theorem scale_pos (d : ℕ) : (0 : ℚ) < 10 ^ d := pow_pos (by norm_num) d

theorem le_roundTo {d : ℕ} {m : ℤ} {x : ℚ} (h : (m : ℚ) / 10 ^ d ≤ x) :
    (m : ℚ) / 10 ^ d ≤ roundTo d x := by
  refine div_le_div_of_nonneg_right ?_ (le_of_lt (scale_pos d))
  exact Int.cast_le.mpr (le_halfEven ((div_le_iff₀ (scale_pos d)).mp h))

theorem roundTo_le {d : ℕ} {m : ℤ} {x : ℚ} (h : x ≤ (m : ℚ) / 10 ^ d) :
    roundTo d x ≤ (m : ℚ) / 10 ^ d := by
  refine div_le_div_of_nonneg_right ?_ (le_of_lt (scale_pos d))
  exact Int.cast_le.mpr (halfEven_le ((le_div_iff₀ (scale_pos d)).mp h))

/-- The rounded number reaches a multiple of `10^(-d)` from half a unit below it on,
    if the last digit is even. -/
theorem le_roundTo_iff {d : ℕ} {m : ℤ} {x : ℚ} (hm : m % 2 = 0) :
    (m : ℚ) / 10 ^ d ≤ roundTo d x ↔ (m - 1 / 2) / 10 ^ d ≤ x := by
  have hscale := scale_pos d
  calc (m : ℚ) / 10 ^ d ≤ roundTo d x
      ↔ (m : ℚ) ≤ halfEven (x * 10 ^ d) := div_le_div_iff_of_pos_right hscale
    _ ↔ m - 1 / 2 < x * 10 ^ d ∨ x * 10 ^ d = m - 1 / 2 := by
      rw [Int.cast_le, le_halfEven_iff, and_iff_left hm]
    _ ↔ m - 1 / 2 ≤ x * 10 ^ d := by rw [le_iff_lt_or_eq, eq_comm]
    _ ↔ (m - 1 / 2) / 10 ^ d ≤ x := (div_le_iff₀ hscale).symm

theorem roundTo_eq_of_mem_Ico {d : ℕ} {m : ℤ} {x : ℚ} (hm : m % 2 = 0)
    (h : x ∈ Set.Ico ((m - 1 / 2 : ℚ) / 10 ^ d) ((m : ℚ) / 10 ^ d)) :
    roundTo d x = (m : ℚ) / 10 ^ d :=
  le_antisymm (roundTo_le h.2.le) ((le_roundTo_iff hm).mpr h.1)

/-- **Rounding stays in the unit interval.** -/
theorem roundTo_mem_Icc {d : ℕ} {x : ℚ} (h : x ∈ Set.Icc 0 1) : roundTo d x ∈ Set.Icc 0 1 := by
  have hne : (10 : ℚ) ^ d ≠ 0 := ne_of_gt (scale_pos d)
  constructor
  · have hlow := le_roundTo (d := d) (m := 0) (x := x) (by simpa using h.1)
    simpa using hlow
  · have hone : ((10 ^ d : ℤ) : ℚ) / 10 ^ d = 1 := by
      rw [Int.cast_pow, Int.cast_ofNat, div_self hne]
    have hhigh := roundTo_le (d := d) (m := 10 ^ d) (x := x) (by rw [hone]; exact h.2)
    rwa [hone] at hhigh

example : roundTo 4 0.12345 = 0.1234 := by decide +kernel

end Rounding
