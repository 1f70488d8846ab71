/-
  FeatureStore/SteadyFlow.lean
  ============================
  **The volume spike of a steady coin.**

  A coin that trades the same notional in every second has no spike.  The scorer
  divides the volume of the open 1h bucket by 3600 however much of the hour has
  passed, so that early in the hour the baseline is too low.  `volume_of_steady`
  says how far a bucket has filled at second `T`, `volRatio_of_steady` what the
  scorer makes of it, and `steady_flow_iff` in which seconds the ratio is at
  most three.
-/
import FeatureStore.ScoreRange

namespace FeatureStore

open Grouping (group)
open FeatureEngine (after exists_open_buckets after_open_get?)

/-- One fill of notional `v` in every second from 0 to `T`. -/
def Steady (coin : String) (v : ℚ) (T : ℕ) (fs : List Fill) : Prop :=
  (group Fill.coin coin fs).map (fun f => (f.sec, f.notional)) =
    (List.range (T + 1)).map fun i : ℕ => ((i : ℤ), v)

/-- How many of the numbers up to `T` lie in its window of the given size. -/
theorem length_filter_window {size : ℕ} (hsize : 0 < size) (T : ℕ) :
    ((List.range (T + 1)).filter fun i => i / size = T / size).length = T % size + 1 := by
  have hsplit : T + 1 = size * (T / size) + (T % size + 1) := by
    have hdiv := Nat.div_add_mod T size
    omega
  have hbefore : (List.range (size * (T / size))).filter (fun i => i / size = T / size) = [] := by
    rw [List.filter_eq_nil_iff]
    intro i hi heq
    have hlt : i / size < T / size :=
      (Nat.div_lt_iff_lt_mul hsize).mpr (by rw [mul_comm]; exact List.mem_range.mp hi)
    exact absurd (of_decide_eq_true heq) (ne_of_lt hlt)
  have hinside : ((List.range (T % size + 1)).map (size * (T / size) + ·)).filter
      (fun i => i / size = T / size) = (List.range (T % size + 1)).map (size * (T / size) + ·) := by
    rw [List.filter_eq_self]
    intro i hi
    obtain ⟨j, hj, rfl⟩ := List.mem_map.mp hi
    have hlt : j < size := lt_of_lt_of_le (List.mem_range.mp hj) (Nat.mod_lt T hsize)
    rw [decide_eq_true_eq, Nat.mul_add_div hsize, Nat.div_eq_of_lt hlt, Nat.add_zero]
  conv_lhs => rw [hsplit]
  rw [List.range_add, List.filter_append, hbefore, hinside]
  simp

/-- The size of a window as a natural number. -/
theorem Window.exists_size (win : Window) : ∃ size : ℕ, 0 < size ∧ win.size = size := by
  cases win with
  | m1 => exact ⟨60, by decide, rfl⟩
  | m5 => exact ⟨300, by decide, rfl⟩
  | h1 => exact ⟨3600, by decide, rfl⟩

theorem Window.floor_eq_iff {win : Window} {size : ℕ} (hsize : win.size = size) (i T : ℕ) :
    win.floor i = win.floor T ↔ i / size = T / size := by
  have hpos := win.size_pos
  unfold floor
  rw [mul_left_inj' (ne_of_gt hpos), hsize]
  norm_cast

section Steady

variable {coin : String} {v : ℚ} {T : ℕ} {fs : List Fill}

theorem Steady.secs (h : Steady coin v T fs) :
    (group Fill.coin coin fs).map Fill.sec = (List.range (T + 1)).map fun i : ℕ => (i : ℤ) := by
  have hfst := congrArg (List.map Prod.fst) h
  simpa only [List.map_map, Function.comp_def] using hfst

/-- The latest second of the coin is `T`. -/
theorem Steady.isGreatest (h : Steady coin v T fs) :
    IsGreatest {t | ∃ f ∈ fs, f.coin = coin ∧ f.sec = t} (T : ℤ) := by
  have hmem : ∀ t, (∃ f ∈ fs, f.coin = coin ∧ f.sec = t) ↔ ∃ i < T + 1, (i : ℤ) = t := by
    intro t
    have hiff : t ∈ (group Fill.coin coin fs).map Fill.sec ↔
        t ∈ (List.range (T + 1)).map fun i : ℕ => (i : ℤ) := by rw [h.secs]
    simpa only [List.mem_map, Grouping.mem_group, and_assoc, List.mem_range] using hiff
  refine ⟨(hmem T).mpr ⟨T, Nat.lt_succ_self T, rfl⟩, ?_⟩
  intro t ht
  obtain ⟨i, hi, rfl⟩ := (hmem t).mp ht
  exact Int.ofNat_le.mpr (Nat.le_of_lt_succ hi)

/-- The fills come in the order of their seconds, so that all of them count. -/
theorem Steady.batch_eq (h : Steady coin v T fs) (win : Window) (t : ℤ) :
    batch fs coin win t = group (windowStart win) t (group Fill.coin coin fs) := by
  have hrange : ((group Fill.coin coin fs).map Fill.sec).Pairwise (· ≤ ·) := by
    rw [h.secs, List.pairwise_map]
    exact List.pairwise_lt_range.imp fun hlt => Int.ofNat_le.mpr (le_of_lt hlt)
  rw [List.pairwise_map] at hrange
  exact win.tumbling.counted_of_sorted (hrange.imp fun hle => win.floor_mono hle) t

/-- The notionals of the fills in the window of second `T`. -/
theorem Steady.notionals (h : Steady coin v T fs) {win : Window} {size : ℕ}
    (hsize : win.size = size) :
    (batch fs coin win (win.floor T)).map Fill.notional =
      ((List.range (T + 1)).filter fun i => i / size = T / size).map fun _ => v := by
  have hpairs := congrArg (fun l : List (ℤ × ℚ) =>
    (l.filter fun p => win.floor p.1 = win.floor T).map Prod.snd) h
  simp only [List.filter_map, List.map_map, Function.comp_def, Window.floor_eq_iff hsize] at hpairs
  rw [h.batch_eq]
  exact hpairs

/-- **How far a bucket has filled.** -/
theorem volume_of_steady (h : Steady coin v T fs) (win : Window) :
    ∃ s, (after fs).openSnapshot? coin win = some s ∧
      s.volume = v * (((T : ℤ) % win.size + 1 : ℤ) : ℚ) := by
  have hcoin : coin ∈ fs.map Fill.coin := by
    obtain ⟨f, hf, hfcoin, _⟩ := h.isGreatest.1
    exact List.mem_map.mpr ⟨f, hf, hfcoin⟩
  obtain ⟨T', hT', hopen⟩ := exists_open_buckets hcoin
  obtain ⟨bucket, hbucket, hstart⟩ := hopen win
  obtain rfl : T' = T := hT'.unique h.isGreatest
  obtain ⟨size, hpos, hsize⟩ := win.exists_size
  refine ⟨bucket.snapshot (some (after fs).wallets), ?_, ?_⟩
  · rw [FeatureEngine.openSnapshot?, after_open_get?, hbucket, Option.map_some]
  · have hagg := aggregates_of_mem_panes
      (List.mem_append_right _ (Option.mem_toList.mpr hbucket)) (some (after fs).wallets)
    rw [hagg.volume, hstart, Batch.volume, h.notionals hsize, List.map_const', List.sum_replicate,
      length_filter_window hpos, hsize, nsmul_eq_mul, mul_comm]
    norm_cast

end Steady

/-- What the scorer makes of it. -/
theorem volRatio_of_steady {coin : String} {v : ℚ} (hv : 0 < v) {T : ℕ} {fs : List Fill}
    (h : Steady coin v T fs) :
    volRatio ((after fs).openSnapshot? coin .m1) ((after fs).openSnapshot? coin .h1) =
      60 * (((T % 60 + 1 : ℕ) : ℚ) / ((T % 3600 + 1 : ℕ) : ℚ)) := by
  obtain ⟨s, hs, hvol⟩ := volume_of_steady h .m1
  obtain ⟨s', hs', hvol'⟩ := volume_of_steady h .h1
  have hminute : s.volume = v * ((T % 60 + 1 : ℕ) : ℚ) := by
    rw [hvol]
    norm_cast
  have hhour : s'.volume = v * ((T % 3600 + 1 : ℕ) : ℚ) := by
    rw [hvol']
    norm_cast
  have hpos : 0 < s'.volume := hhour ▸ mul_pos hv (Nat.cast_pos.mpr (Nat.succ_pos _))
  rw [hs, hs', volRatio_of_pos hpos, hminute, hhour, mul_div_mul_left _ _ (ne_of_gt hv)]

/-- **When a steady flow is no spike.**  For a coin that has traded the same
    notional in every second up to `T`, the ratio is at most three, and the
    component at most one half, exactly in the seconds `j` of a minute `k` of
    the hour with `19 (j + 1) ≤ 60 k`.  The threshold is that of exact arithmetic:
    where both sides are equal a float ratio can exceed it. -/
theorem steady_flow_iff (exp : ℚ → Option ℚ) (hexp : Logistic exp) (hzero : exp 0 = some 1)
    (coin : String) (v : ℚ) (hv : 0 < v) (T : ℕ) (fs : List Fill) (h : Steady coin v T fs) :
    (volRatio ((after fs).openSnapshot? coin .m1) ((after fs).openSnapshot? coin .h1) ≤ 3 ∧
      (unusualAccumulation exp ((after fs).openSnapshot? coin .m1)
        ((after fs).openSnapshot? coin .m5)
        ((after fs).openSnapshot? coin .h1)).components.volSpike ≤ 0.5) ↔
    19 * (T % 60 + 1) ≤ 60 * (T % 3600 / 60) := by
  have hratio : volRatio ((after fs).openSnapshot? coin .m1) ((after fs).openSnapshot? coin .h1) ≤ 3 ↔
      19 * (T % 60 + 1) ≤ 60 * (T % 3600 / 60) := by
    have hhour : (0 : ℚ) < ((T % 3600 + 1 : ℕ) : ℚ) := Nat.cast_pos.mpr (Nat.succ_pos _)
    rw [volRatio_of_steady hv h, ← mul_div_assoc, div_le_iff₀ hhour]
    norm_cast
    have hmod : T % 3600 % 60 = T % 60 := Nat.mod_mod_of_dvd T (by decide)
    have hdiv := Nat.div_add_mod (T % 3600) 60
    omega
  rw [← hratio]
  refine ⟨And.left, fun hle => ⟨hle, ?_⟩⟩
  have hcentre : sig exp 3 1 3 = 5000 / 10 ^ 4 := by
    have harg : (-1 : ℚ) * (3 - 3) = 0 := by norm_num
    simp only [sig, harg, hzero]
    norm_num
  have hspike : sig exp (volRatio ((after fs).openSnapshot? coin .m1)
      ((after fs).openSnapshot? coin .h1)) 1 3 ≤ ((5000 : ℤ) : ℚ) / 10 ^ 4 := by
    rw [Int.cast_ofNat, ← hcentre]
    exact hexp.mono _ _ hle
  refine (Rounding.roundTo_le hspike).trans ?_
  norm_num

/-- Unit fills, one in every second up to `T`. -/
def steadyFills (coin : String) (T : ℕ) : List Fill :=
  (List.range (T + 1)).map fun i : ℕ => ⟨"w", coin, 1, 1, .B, i * 1000, 0, true⟩

theorem steady_steadyFills (coin : String) (T : ℕ) : Steady coin 1 T (steadyFills coin T) := by
  have hgroup : group Fill.coin coin (steadyFills coin T) = steadyFills coin T := by
    rw [group, List.filter_eq_self]
    intro f hf
    obtain ⟨i, _, rfl⟩ := List.mem_map.mp hf
    exact decide_eq_true rfl
  unfold Steady
  rw [hgroup, steadyFills, List.map_map]
  apply List.map_congr_left
  intro i _
  simp [Fill.sec, Fill.notional]

/-- On the hour a steady coin trades at sixty times its baseline. -/
theorem steady_flow_spikes :
    volRatio ((after (steadyFills "BTC" 3600)).openSnapshot? "BTC" .m1)
        ((after (steadyFills "BTC" 3600)).openSnapshot? "BTC" .h1) = 60 ∧
    ¬volRatio ((after (steadyFills "BTC" 3600)).openSnapshot? "BTC" .m1)
        ((after (steadyFills "BTC" 3600)).openSnapshot? "BTC" .h1) ≤ 3 := by
  have hratio := volRatio_of_steady one_pos (steady_steadyFills "BTC" 3600)
  norm_num at hratio
  rw [hratio]
  norm_num

/-- Half an hour later it does not. -/
theorem steady_flow_iff_half_past :
    volRatio ((after (steadyFills "BTC" 5400)).openSnapshot? "BTC" .m1)
      ((after (steadyFills "BTC" 5400)).openSnapshot? "BTC" .h1) ≤ 3 :=
  ((steady_flow_iff coarseExp logistic_coarseExp (by decide +kernel) "BTC" 1 one_pos 5400
    (steadyFills "BTC" 5400) (steady_steadyFills "BTC" 5400)).mpr (by decide)).1

end FeatureStore
