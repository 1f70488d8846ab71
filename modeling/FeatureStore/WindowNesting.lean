/-
  FeatureStore/WindowNesting.lean
  ===============================
  **The three windows of a coin nest.**

  The three buckets of a coin evolve separately: a late fill may be dropped by
  the smaller window and accepted by the larger one.  They stay nested because
  60 divides 300 and 300 divides 3600, so that a larger window's start is a
  monotone function of the smaller one's (`Window.floor_floor`), and because
  the open bucket of each window is the window of the same second, the latest
  of the coin (`exists_open_buckets`).  The library's nesting lemmas then give
  the containment of the counted fills, and nonnegative notionals give the
  order of the aggregates.
-/
import FeatureStore.Scorer
import FeatureStore.WindowBatch
import Mathlib.Algebra.Order.BigOperators.Group.List
import Mathlib.Algebra.Order.Field.Basic
import Mathlib.Data.Finset.Max

namespace FeatureStore

open Grouping (group)

/-! ### Windows inside windows -/

namespace Window

variable {inner outer : Window}

/-- The larger window of a second is the larger window of the start of its
    smaller one. -/
theorem floor_floor (hdvd : inner.size ∣ outer.size) (sec : ℤ) :
    outer.floor (inner.floor sec) = outer.floor sec := by
  obtain ⟨k, hk⟩ := hdvd
  have hpos := inner.size_pos
  have hquot : sec / inner.size * inner.size / outer.size = sec / outer.size := by
    rw [hk, ← Int.ediv_ediv_of_nonneg (le_of_lt hpos), ← Int.ediv_ediv_of_nonneg (le_of_lt hpos),
      Int.mul_ediv_cancel _ (ne_of_gt hpos)]
  simp only [floor]
  rw [hquot]

theorem floor_le_floor (hdvd : inner.size ∣ outer.size) (sec : ℤ) :
    outer.floor sec ≤ inner.floor sec := by
  rw [← floor_floor hdvd sec]
  exact outer.floor_le _

theorem floor_add_le (hdvd : inner.size ∣ outer.size) (sec : ℤ) :
    inner.floor sec + inner.size ≤ outer.floor sec + outer.size := by
  have hlt : inner.floor sec < outer.floor sec + outer.size := by
    rw [← floor_floor hdvd sec]
    exact outer.lt_floor_add _
  -- both ends are multiples of the inner size
  have hmul : inner.size ∣ outer.floor sec + outer.size - inner.floor sec :=
    dvd_sub (dvd_add (dvd_trans hdvd (outer.size_dvd_floor sec)) hdvd) (inner.size_dvd_floor sec)
  have hle := Int.le_of_dvd (by omega) hmul
  omega

end Window

/-! ### The aggregates of a sublist -/

namespace Batch

variable {l l' : List Fill}

theorem sum_notional_le (h : l.Sublist l') (hpos : ∀ f ∈ l', 0 ≤ f.notional) :
    (l.map Fill.notional).sum ≤ (l'.map Fill.notional).sum := by
  apply (h.map Fill.notional).sum_le_sum
  intro v hv
  obtain ⟨f, hf, rfl⟩ := List.mem_map.mp hv
  exact hpos f hf

theorem volume_mono (h : l.Sublist l') (hpos : ∀ f ∈ l', 0 ≤ f.notional) :
    volume l ≤ volume l' :=
  sum_notional_le h hpos

theorem takerBuy_mono (h : l.Sublist l') (hpos : ∀ f ∈ l', 0 ≤ f.notional) :
    takerBuy l ≤ takerBuy l' :=
  sum_notional_le (h.filter _) fun f hf => hpos f (List.mem_of_mem_filter hf)

theorem takerSell_mono (h : l.Sublist l') (hpos : ∀ f ∈ l', 0 ≤ f.notional) :
    takerSell l ≤ takerSell l' :=
  sum_notional_le (h.filter _) fun f hf => hpos f (List.mem_of_mem_filter hf)

theorem wallets_mono (h : l.Sublist l') : wallets l ⊆ wallets l' := by
  intro addr haddr
  obtain ⟨f, hf, rfl⟩ := mem_wallets.mp haddr
  exact mem_wallets.mpr ⟨f, h.subset hf, rfl⟩

theorem volume_nonneg (hpos : ∀ f ∈ l, 0 ≤ f.notional) : 0 ≤ volume l := by
  apply List.sum_nonneg
  intro v hv
  obtain ⟨f, hf, rfl⟩ := List.mem_map.mp hv
  exact hpos f hf

end Batch

/-! ### The open buckets of a coin -/

/-- The bucket `b` of the smaller window lies inside the bucket `b'` of the
    larger one, with everything it has counted. -/
structure Nests (fs : List Fill) (coin : String) (inner outer : Window) (b b' : Bucket) :
    Prop where
  start_le : b'.bucketTs ≤ b.bucketTs
  end_le : b.bucketTs + inner.size ≤ b'.bucketTs + outer.size
  counted : batchIdx fs coin inner b.bucketTs ⊆ batchIdx fs coin outer b'.bucketTs
  volume : b.volume ≤ b'.volume
  takerBuy : b.takerBuy ≤ b'.takerBuy
  takerSell : b.takerSell ≤ b'.takerSell
  activeWallets : b.walletFlow.size ≤ b'.walletFlow.size

namespace FeatureEngine

open Tumbling (current_isGreatest current_eq_none_iff)

variable {fs : List Fill} {coin : String}

/-- Every coin seen has an open bucket in every window, the bucket of its
    latest second. -/
theorem exists_open_buckets (hcoin : coin ∈ fs.map Fill.coin) :
    ∃ T, IsGreatest {t | ∃ f ∈ fs, f.coin = coin ∧ f.sec = t} T ∧
      ∀ win : Window, ∃ bucket,
        win.tumbling.current (group Fill.coin coin fs) = some bucket ∧
        bucket.bucketTs = win.floor T := by
  have hne : group Fill.coin coin fs ≠ [] := by
    obtain ⟨f, hf, rfl⟩ := List.mem_map.mp hcoin
    exact (Grouping.group_ne_nil_iff _).mpr ⟨f, hf, rfl⟩
  have hsecs : ((group Fill.coin coin fs).map Fill.sec).toFinset.Nonempty :=
    (List.toFinset_nonempty_iff _).mpr (fun hnil => hne (List.map_eq_nil_iff.mp hnil))
  obtain ⟨T, hT⟩ : ∃ T, IsGreatest {t | ∃ f ∈ fs, f.coin = coin ∧ f.sec = t} T := by
    have hset : {t | ∃ f ∈ fs, f.coin = coin ∧ f.sec = t} =
        ↑((group Fill.coin coin fs).map Fill.sec).toFinset := by
      ext t
      simp [Grouping.mem_group, and_assoc]
    rw [hset]
    exact ⟨_, Finset.isGreatest_max' _ hsecs⟩
  refine ⟨T, hT, ?_⟩
  intro win
  obtain ⟨bucket, hbucket⟩ := Option.ne_none_iff_exists'.mp
    (fun hnone => hne ((current_eq_none_iff win.tumbling _).mp hnone))
  refine ⟨bucket, hbucket, ?_⟩
  have hstarts : win.tumbling.starts (group Fill.coin coin fs) =
      win.floor '' {t | ∃ f ∈ fs, f.coin = coin ∧ f.sec = t} := by
    ext t
    constructor
    · rintro ⟨f, hf, rfl⟩
      obtain ⟨hmem, hkey⟩ := (Grouping.mem_group _).mp hf
      exact ⟨f.sec, ⟨f, hmem, hkey, rfl⟩, rfl⟩
    · rintro ⟨_, ⟨f, hmem, hkey, rfl⟩, rfl⟩
      exact ⟨f, (Grouping.mem_group _).mpr ⟨hmem, hkey⟩, rfl⟩
  have hmax := current_isGreatest win.tumbling hbucket
  rw [hstarts] at hmax
  exact hmax.unique (Monotone.map_isGreatest (fun _ _ h => win.floor_mono h) hT)

/-- The start of the larger window is a function of the start of the smaller. -/
theorem windowStart_nested {inner outer : Window} (hdvd : inner.size ∣ outer.size) (f : Fill) :
    outer.tumbling.startOf f = outer.floor (inner.tumbling.startOf f) :=
  (Window.floor_floor hdvd f.sec).symm

theorem nests_of_dvd {inner outer : Window} (hdvd : inner.size ∣ outer.size)
    (hpos : ∀ f ∈ fs, 0 ≤ f.notional) {T : ℤ} {b b' : Bucket}
    (hb : inner.tumbling.current (group Fill.coin coin fs) = some b)
    (hT : b.bucketTs = inner.floor T)
    (hb' : outer.tumbling.current (group Fill.coin coin fs) = some b')
    (hT' : b'.bucketTs = outer.floor T) : Nests fs coin inner outer b b' := by
  have hsub : (batch fs coin inner b.bucketTs).Sublist (batch fs coin outer b'.bucketTs) :=
    Tumbling.counted_nested (fun _ _ h => outer.floor_mono h) (windowStart_nested hdvd) hb hb'
  have hfills : ∀ f ∈ batch fs coin outer b'.bucketTs, 0 ≤ f.notional := fun f hf =>
    hpos f (mem_of_mem_batch hf).1
  have hagg := aggregates_of_mem_panes
    (List.mem_append_right _ (Option.mem_toList.mpr hb)) none
  have hagg' := aggregates_of_mem_panes
    (List.mem_append_right _ (Option.mem_toList.mpr hb')) none
  exact
    { start_le := by
        rw [hT, hT']
        exact Window.floor_le_floor hdvd T
      end_le := by
        rw [hT, hT']
        exact Window.floor_add_le hdvd T
      counted := fun i hi =>
        Tumbling.countedIdx_nested (fun _ _ h => outer.floor_mono h) (windowStart_nested hdvd) hb hb'
          hi
      volume := by
        refine (le_of_eq hagg.volume).trans (le_trans ?_ (le_of_eq hagg'.volume.symm))
        exact Batch.volume_mono hsub hfills
      takerBuy := by
        refine (le_of_eq hagg.takerBuy).trans (le_trans ?_ (le_of_eq hagg'.takerBuy.symm))
        exact Batch.takerBuy_mono hsub hfills
      takerSell := by
        refine (le_of_eq hagg.takerSell).trans (le_trans ?_ (le_of_eq hagg'.takerSell.symm))
        exact Batch.takerSell_mono hsub hfills
      activeWallets := by
        refine (le_of_eq hagg.activeWallets).trans
          (le_trans ?_ (le_of_eq hagg'.activeWallets.symm))
        exact Finset.card_le_card (Batch.wallets_mono hsub) }

/-- All three windows of every coin seen are open, and nothing else is. -/
theorem size_openBuckets (fs : List Fill) :
    (after fs).coins.openBuckets.size = 3 * (fs.map Fill.coin).toFinset.card := by
  have hkeys : (after fs).coins.openBuckets.keys.toFinset =
      (fs.map Fill.coin).toFinset ×ˢ {Window.m1, Window.m5, Window.h1} := by
    ext ⟨coin, win⟩
    have hwin : win = .m1 ∨ win = .m5 ∨ win = .h1 := by cases win <;> decide
    rw [List.mem_toFinset, ← not_iff_not, ← Dict.get?_eq_none_iff, after_open_get?,
      current_eq_none_iff]
    simp [group, hwin]
  rw [← Dict.length_keys, ← List.toFinset_card_of_nodup (Dict.keys_nodup _), hkeys,
    Finset.card_product, mul_comm]
  rfl

/-- An `apply` that closes the larger bucket of a coin closes the smaller. -/
theorem closed_nested {inner outer : Window} (hdvd : inner.size ∣ outer.size) {f : Fill}
    {s : Snapshot} (h : (coin, outer, s) ∈ ((after fs).apply f).2.closed) :
    ∃ s', (coin, inner, s') ∈ ((after fs).apply f).2.closed := by
  obtain ⟨old, hcoin, hclose, _⟩ := mem_apply_closed.mp h
  cases hb' : outer.tumbling.current (group Fill.coin coin fs) with
  | none =>
    rw [hb', Tumbling.closes_none] at hclose
    cases hclose
  | some b' =>
    rw [hb'] at hclose
    have hne : group Fill.coin coin fs ≠ [] := fun hnil => by
      rw [hnil] at hb'
      cases hb'
    obtain ⟨b, hb⟩ := Option.ne_none_iff_exists'.mp
      (fun hnone => hne ((current_eq_none_iff inner.tumbling _).mp hnone))
    have hclose' := Tumbling.closes_nested (fun _ _ h => outer.floor_mono h)
      (windowStart_nested hdvd) hb hb' hclose
    refine ⟨_, mem_apply_closed.mpr ⟨b, hcoin, ?_, rfl⟩⟩
    rw [hb]
    exact hclose'

/-- **Nesting of the three windows**, in every state the engine reaches on fills
    with nonnegative notional:

    * exactly the three windows of every coin seen are open;
    * the open bucket of each window starts at the window of one second `T`,
      the latest of the coin, holds its batch, and 1m nests in 5m in 1h;
    * closing 5m closes 1m, and closing 1h closes all three;
    * the ratio behind the volume spike, taken from snapshots of one state with
      a positive 1h volume, lies in `[0, 60]`. -/
theorem windows_nest (fs : List Fill) (hpos : ∀ f ∈ fs, 0 ≤ f.notional) :
    (after fs).coins.openBuckets.size = 3 * (fs.map Fill.coin).toFinset.card ∧
    (∀ coin ∈ fs.map Fill.coin, ∃ T, IsGreatest {t | ∃ f ∈ fs, f.coin = coin ∧ f.sec = t} T ∧
      ∃ bucket : Window → Bucket,
        (∀ win, (after fs).coins.openBuckets.get? (coin, win) = some (bucket win) ∧
          (bucket win).bucketTs = win.floor T ∧
          bucket win = Bucket.ofFills (win.floor T) (batch fs coin win (win.floor T))) ∧
        Nests fs coin .m1 .m5 (bucket .m1) (bucket .m5) ∧
        Nests fs coin .m5 .h1 (bucket .m5) (bucket .h1)) ∧
    (∀ f coin s, (coin, .m5, s) ∈ ((after fs).apply f).2.closed →
      ∃ s', (coin, .m1, s') ∈ ((after fs).apply f).2.closed) ∧
    (∀ f coin s, (coin, .h1, s) ∈ ((after fs).apply f).2.closed →
      (∃ s', (coin, .m1, s') ∈ ((after fs).apply f).2.closed) ∧
      ∃ s', (coin, .m5, s') ∈ ((after fs).apply f).2.closed) ∧
    (∀ coin s h, (coin, .m1, s) ∈ (after fs).openSnapshots →
      (coin, .h1, h) ∈ (after fs).openSnapshots → 0 < h.volume →
      0 ≤ volRatio (some s) (some h) ∧ volRatio (some s) (some h) ≤ 60) := by
  have hdvd₁ : Window.size .m1 ∣ Window.size .m5 := by decide
  have hdvd₂ : Window.size .m5 ∣ Window.size .h1 := by decide
  have hdvd₃ : Window.size .m1 ∣ Window.size .h1 := by decide
  refine ⟨size_openBuckets fs, ?_, ?_, ?_, ?_⟩
  · intro coin hcoin
    obtain ⟨T, hT, hbuckets⟩ := exists_open_buckets hcoin
    choose bucket hbucket using hbuckets
    refine ⟨T, hT, bucket, ?_, ?_, ?_⟩
    · intro win
      obtain ⟨hcur, hts⟩ := hbucket win
      refine ⟨(after_open_get? fs coin win).trans hcur, hts, ?_⟩
      have hpane := win.tumbling.current_eq_pane hcur
      rwa [Window.tumbling_stamp, hts] at hpane
    · exact nests_of_dvd hdvd₁ hpos (hbucket .m1).1 (hbucket .m1).2 (hbucket .m5).1 (hbucket .m5).2
    · exact nests_of_dvd hdvd₂ hpos (hbucket .m5).1 (hbucket .m5).2 (hbucket .h1).1 (hbucket .h1).2
  · intro f coin s hs
    exact closed_nested hdvd₁ hs
  · intro f coin s hs
    exact ⟨closed_nested hdvd₃ hs, closed_nested hdvd₂ hs⟩
  · intro coin s h hs hh hvol
    obtain ⟨b, hb, rfl⟩ := mem_openSnapshots.mp hs
    obtain ⟨b', hb', rfl⟩ := mem_openSnapshots.mp hh
    have hcoin : coin ∈ fs.map Fill.coin := by
      by_contra hcontra
      have hnil : group Fill.coin coin fs = [] := List.filter_eq_nil_iff.mpr fun f hf hkey =>
        hcontra (List.mem_map.mpr ⟨f, hf, of_decide_eq_true hkey⟩)
      rw [hnil] at hb
      cases hb
    obtain ⟨T, _, hbuckets⟩ := exists_open_buckets hcoin
    obtain ⟨b₁, hb₁, hT⟩ := hbuckets .m1
    obtain ⟨b₂, hb₂, hT'⟩ := hbuckets .h1
    obtain rfl : b₁ = b := Option.some.inj (hb₁.symm.trans hb)
    obtain rfl : b₂ = b' := Option.some.inj (hb₂.symm.trans hb')
    have hle : b₁.volume ≤ b₂.volume := (nests_of_dvd hdvd₃ hpos hb hT hb' hT').volume
    have hnonneg : 0 ≤ b₁.volume := by
      have hpane := Window.m1.tumbling.current_eq_pane hb
      rw [hpane, Window.pane_eq, Bucket.ofFills_volume]
      apply Batch.volume_nonneg
      intro f hf
      exact hpos f (mem_of_mem_batch hf).1
    rw [volRatio_of_pos hvol]
    have hratio : b₁.volume / b₂.volume ≤ 1 := (div_le_one hvol).mpr hle
    have hratio' : 0 ≤ b₁.volume / b₂.volume := div_nonneg hnonneg (le_of_lt hvol)
    constructor
    · exact mul_nonneg (by norm_num) hratio'
    · calc 60 * (b₁.volume / b₂.volume) ≤ 60 * 1 := mul_le_mul_of_nonneg_left hratio (by norm_num)
        _ = 60 := mul_one 60

theorem windows_nest_two_fills :
    (after [⟨"w", "BTC", 100, 2, .B, 5000, 0, true⟩, ⟨"w", "ETH", 10, 1, .A, 4000, 0, false⟩]
      ).coins.openBuckets.size = 3 * 2 :=
  (windows_nest
    [⟨"w", "BTC", 100, 2, .B, 5000, 0, true⟩, ⟨"w", "ETH", 10, 1, .A, 4000, 0, false⟩]
    (by decide +kernel)).1

end FeatureEngine

end FeatureStore
