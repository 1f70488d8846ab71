/-
  FeatureStore/ScoreRange.lean
  ============================
  **The score on rows that the engine can produce.**

  The scorer clamps the imbalance from below and the concentration from above
  only.  The other two bounds come from the buckets: an imbalance is at most one
  and an index is not negative.  With them every component lies in the unit
  interval, and so does the score, whose weights add up to one.  Of `math.exp`
  only `Logistic` is used, which `logistic_of_exp` derives from what an
  exponential does.
-/
import FeatureStore.IssuedRows
import FeatureStore.Scorer
import FeatureStore.SnapshotBounds

namespace FeatureStore

/-! ### The logistic function -/

/-- `_sig`, as the scorer calls it, is monotone with values in the unit
    interval. -/
structure Logistic (exp : ℚ → Option ℚ) : Prop where
  mono : ∀ x y, x ≤ y → sig exp x 1 3 ≤ sig exp y 1 3
  mem : ∀ x, sig exp x 1 3 ∈ Set.Icc 0 1

/-- An exponential that is nonnegative and monotone, and that overflows from some
    positive argument on, gives a logistic function. -/
theorem logistic_of_exp {exp : ℚ → Option ℚ} (hnonneg : ∀ x e, exp x = some e → 0 ≤ e)
    (hmono : ∀ x y e e', x ≤ y → exp x = some e → exp y = some e' → e ≤ e')
    (hover : ∀ x y, x ≤ y → exp x = none → exp y = none) (hpos : ∀ x, exp x = none → 0 < x) :
    Logistic exp where
  mono := by
    intro x y hxy
    have harg : -1 * (y - 3) ≤ -1 * (x - 3) := by linarith
    unfold sig
    rcases hx : exp (-1 * (x - 3)) with _ | e
    · -- an overflow is left of the centre
      have hleft := hpos _ hx
      have hlt : x < 3 := by linarith
      rcases hy : exp (-1 * (y - 3)) with _ | e'
      · have hleft' := hpos _ hy
        have hlt' : y < 3 := by linarith
        simp [hlt, hlt']
      · simp only [hlt, if_true]
        have he' := hnonneg _ _ hy
        exact div_nonneg zero_le_one (by linarith)
    · rcases hy : exp (-1 * (y - 3)) with _ | e'
      · rw [hover _ _ harg hy] at hx
        cases hx
      · have he' := hnonneg _ _ hy
        have hle := hmono _ _ _ _ harg hy hx
        exact one_div_le_one_div_of_le (by linarith) (by linarith)
  mem := by
    intro x
    unfold sig
    rcases hx : exp (-1 * (x - 3)) with _ | e
    · by_cases hlt : x < 3 <;> simp [hlt]
    · have he := hnonneg _ _ hx
      exact ⟨div_nonneg zero_le_one (by linarith), (div_le_one (by linarith)).mpr (by linarith)⟩

/-- A rational function that is one at zero, as an exponential is. -/
def coarseExp (x : ℚ) : Option ℚ := some (if x ≤ 0 then 1 / (1 - x) else 1 + x)

theorem logistic_coarseExp : Logistic coarseExp := by
  refine logistic_of_exp ?_ ?_ (fun x y _ h => by cases h) (fun x h => by cases h)
  · intro x e he
    cases he
    split
    · exact div_nonneg zero_le_one (by linarith)
    · linarith
  · intro x y e e' hxy he he'
    cases he
    cases he'
    by_cases hy : y ≤ 0
    · rw [if_pos (hxy.trans hy), if_pos hy]
      exact one_div_le_one_div_of_le (by linarith) (by linarith)
    · have hone : (1 : ℚ) ≤ 1 + y := by linarith
      rw [if_neg hy]
      by_cases hx : x ≤ 0
      · rw [if_pos hx]
        exact ((div_le_one (by linarith)).mpr (by linarith)).trans hone
      · rw [if_neg hx]
        linarith

/-! ### Rows -/

/-- The row is missing, or a snapshot that the engine had in some run on fills
    with nonnegative prices and sizes. -/
def FromEngine (win : Window) (row : Option Snapshot) : Prop :=
  ∀ s, row = some s → ∃ p coin, (∀ f ∈ p, f.Nonneg) ∧ SnapshotAt p (coin, win, s)

/-- What the scorer relies on in a row. -/
structure Snapshot.Scorable (s : Snapshot) : Prop where
  volume : 0 ≤ s.volume
  imbalance : s.buySellImbalance ≤ 1
  hhi : 0 ≤ s.hhi

theorem FromEngine.scorable {win : Window} {s : Snapshot} (h : FromEngine win (some s)) :
    s.Scorable := by
  obtain ⟨p, coin, hp, hs⟩ := h s rfl
  obtain ⟨hagg, _⟩ := hs.aggregates
  have hpos : ∀ f ∈ batch p coin win s.bucketTs, 0 ≤ f.notional := fun f hf =>
    (hp f (mem_of_mem_batch hf).1).notional
  exact
    { volume := hagg.volume ▸ Batch.volume_nonneg hpos
      imbalance := hagg.buySellImbalance ▸ (abs_le.mp (Batch.abs_imbalance_le hpos)).2
      hhi := hagg.hhi ▸ Batch.hhi_nonneg _ }

theorem fromEngine_openSnapshot {p : List Fill} (hp : ∀ f ∈ p, f.Nonneg) (coin : String)
    (win : Window) : FromEngine win ((FeatureEngine.after p).openSnapshot? coin win) :=
  fun _ hs => ⟨p, coin, hp, Or.inl (FeatureEngine.openSnapshot?_eq_some_iff.mp hs)⟩

theorem rate_nonneg {row : Option Snapshot} (h : ∀ s, row = some s → 0 ≤ s.volume) {seconds : ℚ}
    (hsec : 0 ≤ seconds) : 0 ≤ rate row seconds := by
  rcases row with _ | s
  · exact le_refl 0
  · exact div_nonneg (h s rfl) hsec

/-! ### Components -/

/-- Every component lies in the unit interval. -/
structure Components.InUnit (c : Components) : Prop where
  volSpike : c.volSpike ∈ Set.Icc 0 1
  imbalance : c.imbalance ∈ Set.Icc 0 1
  concentration : c.concentration ∈ Set.Icc 0 1
  bigFlow : c.bigFlow ∈ Set.Icc 0 1

theorem Components.InUnit.round {c : Components} (h : c.InUnit) : c.round.InUnit where
  volSpike := Rounding.roundTo_mem_Icc h.volSpike
  imbalance := Rounding.roundTo_mem_Icc h.imbalance
  concentration := Rounding.roundTo_mem_Icc h.concentration
  bigFlow := Rounding.roundTo_mem_Icc h.bigFlow

variable {exp : ℚ → Option ℚ} {w1m w1h : Option Snapshot}

theorem components_inUnit (hexp : Logistic exp) (h1m : ∀ s, w1m = some s → s.Scorable) :
    (components exp w1m w1h).InUnit where
  volSpike := hexp.mem _
  imbalance := by
    refine ⟨le_max_left _ _, max_le zero_le_one ?_⟩
    rcases w1m with _ | s
    · exact zero_le_one
    · exact (h1m s rfl).imbalance
  concentration := by
    refine ⟨le_min zero_le_one ?_, min_le_left _ _⟩
    rcases w1m with _ | s
    · norm_num
    · exact div_nonneg (h1m s rfl).hhi (by norm_num)
  bigFlow := ⟨le_max_left _ _, max_le zero_le_one (min_le_left _ _)⟩

/-- The weights of the score add up to one. -/
theorem rawScore_mem (h : (components exp w1m w1h).InUnit) :
    rawScore exp w1m w1h ∈ Set.Icc 0 1 := by
  obtain ⟨⟨hspike, hspike'⟩, ⟨himb, himb'⟩, ⟨hconc, hconc'⟩, ⟨hbig, hbig'⟩⟩ := h
  simp only [rawScore]
  constructor <;> linarith

/-- The score is monotone in every component. -/
theorem rawScore_mono {w1m' w1h' : Option Snapshot}
    (hspike : (components exp w1m w1h).volSpike ≤ (components exp w1m' w1h').volSpike)
    (himb : (components exp w1m w1h).imbalance ≤ (components exp w1m' w1h').imbalance)
    (hconc : (components exp w1m w1h).concentration ≤ (components exp w1m' w1h').concentration)
    (hbig : (components exp w1m w1h).bigFlow ≤ (components exp w1m' w1h').bigFlow) :
    rawScore exp w1m w1h ≤ rawScore exp w1m' w1h' := by
  simp only [rawScore]
  linarith

/-- A larger baseline makes the ratio smaller. -/
theorem volRatio_anti {h : Snapshot} {x y : ℚ} (hshort : 0 ≤ shortRate w1m) (hx : 0 < x)
    (hxy : x ≤ y) :
    volRatio w1m (some { h with volume := y }) ≤ volRatio w1m (some { h with volume := x }) := by
  have hbase : ∀ v : ℚ, 0 < v → baseRate (some { h with volume := v }) = v / 3600 := by
    intro v hv
    have hne : rate (some { h with volume := v }) 3600 ≠ 0 := div_ne_zero (ne_of_gt hv) (by norm_num)
    exact if_pos hne
  unfold volRatio
  rw [hbase x hx, hbase y (lt_of_lt_of_le hx hxy)]
  exact div_le_div_of_nonneg_left hshort (by linarith) (by linarith)

/-- **Score range and monotonicity.**  On rows that are missing or that the
    engine has produced, at whatever moments:

    * the components and the score lie in `[0, 1]`, before and after rounding;
    * the unrounded score does not decrease when the 1m row's imbalance, index
      or large flow grows, and does not increase when a positive 1h volume
      grows. -/
theorem score_range (exp : ℚ → Option ℚ) (hexp : Logistic exp) (w1m w5m w1h : Option Snapshot)
    (h1m : FromEngine .m1 w1m) :
    ((components exp w1m w1h).InUnit ∧ rawScore exp w1m w1h ∈ Set.Icc 0 1) ∧
    ((unusualAccumulation exp w1m w5m w1h).components.InUnit ∧
      (unusualAccumulation exp w1m w5m w1h).score ∈ Set.Icc 0 1) ∧
    (∀ s, w1m = some s → ∀ x y, x ≤ y →
      rawScore exp (some { s with buySellImbalance := x }) w1h ≤
        rawScore exp (some { s with buySellImbalance := y }) w1h ∧
      rawScore exp (some { s with hhi := x }) w1h ≤ rawScore exp (some { s with hhi := y }) w1h ∧
      rawScore exp (some { s with largeFlow := x }) w1h ≤
        rawScore exp (some { s with largeFlow := y }) w1h) ∧
    (∀ h, w1h = some h → ∀ x y, 0 < x → x ≤ y →
      rawScore exp w1m (some { h with volume := y }) ≤
        rawScore exp w1m (some { h with volume := x })) := by
  have hrow : ∀ s, w1m = some s → s.Scorable := by
    rintro s rfl
    exact h1m.scorable
  have hunit : (components exp w1m w1h).InUnit := components_inUnit hexp hrow
  have hscore := rawScore_mem hunit
  refine ⟨⟨hunit, hscore⟩, ⟨hunit.round, Rounding.roundTo_mem_Icc hscore⟩, ?_, ?_⟩
  · rintro s rfl x y hxy
    have hvol : 0 < if s.volume ≠ 0 then s.volume else 1e-9 := by
      split
      · rename_i hne
        exact lt_of_le_of_ne (hrow s rfl).volume (Ne.symm hne)
      · norm_num
    refine ⟨?_, ?_, ?_⟩
    · exact rawScore_mono (le_refl _) (max_le_max (le_refl 0) hxy) (le_refl _) (le_refl _)
    · refine rawScore_mono (le_refl _) (le_refl _) (min_le_min (le_refl 1) ?_) (le_refl _)
      exact div_le_div_of_nonneg_right hxy (by norm_num)
    · refine rawScore_mono (le_refl _) (le_refl _) (le_refl _) (max_le_max (le_refl 0) ?_)
      exact min_le_min (le_refl 1) (div_le_div_of_nonneg_right hxy (le_of_lt hvol))
  · rintro h rfl x y hx hxy
    have hshort : 0 ≤ shortRate w1m := rate_nonneg (fun s hs => (hrow s hs).volume) (by norm_num)
    exact rawScore_mono (hexp.mono _ _ (volRatio_anti hshort hx hxy)) (le_refl _) (le_refl _)
      (le_refl _)

/-- A minute with three times the volume per second of its hour. -/
theorem score_range_triple_rate :
    (unusualAccumulation coarseExp
      ((FeatureEngine.after [⟨"w", "BTC", 19, 1, .B, 0, 0, true⟩,
        ⟨"w", "BTC", 1, 1, .B, 60000, 0, true⟩]).openSnapshot? "BTC" .m1) none
      ((FeatureEngine.after [⟨"w", "BTC", 19, 1, .B, 0, 0, true⟩,
        ⟨"w", "BTC", 1, 1, .B, 60000, 0, true⟩]).openSnapshot? "BTC" .h1)).score ∈ Set.Icc 0 1 :=
  (score_range coarseExp logistic_coarseExp _ none _
    (fromEngine_openSnapshot (by decide +kernel) "BTC" .m1)).2.1.2

end FeatureStore
