/-
  FeatureStore/RollUp.lean
  ========================
  **The larger windows, from the smaller ones.**

  `CoinWindowAggregator` keeps the three windows of a coin apart, and nowhere computes
  one from another.  They agree all the same.  A bucket of a larger window is what the
  smaller buckets inside it add up to, column by column and wallet by wallet, with the
  fills that only the smaller windows have passed over (`windows_roll_up`).  In a stream
  in the order of time there are none of these, and the hour can be read off the minutes.
-/
import FeatureStore.LateFills

namespace FeatureStore

open FeatureEngine (buckets buckets_of_window exists_bucket_of_mem_finalSnapshots
  finalSnapshots_bucketTs mem_buckets windowStart_nested)
open Grouping (group)

variable (fs : List Fill) (coin : String) {inner outer : Window} {t : ℤ}

/-- The fills of the outer window at `t` that the inner window has passed over. -/
def lateOnlyFills (inner outer : Window) (t : ℤ) : List Fill :=
  group (windowStart outer) t
    (Tumbling.lateOnly inner.tumbling outer.tumbling (group Fill.coin coin fs))

/-- The snapshots of the inner window inside the outer one at `t`. -/
def innerSnapshots (inner outer : Window) (t : ℤ) : List Snapshot :=
  (coinSnapshots fs coin inner).filter fun s => outer.floor s.bucketTs = t

theorem sum_innerSnapshots {g : Snapshot → ℚ} (g' : Bucket → ℚ)
    (hg : ∀ bucket wallets, g (Bucket.snapshot bucket wallets) = g' bucket) :
    ((innerSnapshots fs coin inner outer t).map g).sum =
      (((inner.tumbling.panes (group Fill.coin coin fs)).filter
        fun bucket => outer.floor bucket.bucketTs = t).map g').sum := by
  rw [innerSnapshots, Tumbling.sum_filter, Tumbling.sum_filter]
  congr 1
  exact map_coinSnapshots fs coin inner fun bucket wallets => by rw [hg]; rfl

/-- A bucket, from the buckets inside it. -/
theorem sum_inner_add_late (hdvd : inner.size ∣ outer.size) {g : Bucket → ℚ} {h : Fill → ℚ}
    (hg : ∀ t l, g (Bucket.ofFills t l) = (l.map h).sum) {bucket : Bucket}
    (hbucket : bucket ∈ outer.tumbling.panes (group Fill.coin coin fs)) :
    (((inner.tumbling.panes (group Fill.coin coin fs)).filter
        fun b => outer.floor b.bucketTs = bucket.bucketTs).map g).sum +
      ((lateOnlyFills fs coin inner outer bucket.bucketTs).map h).sum = g bucket :=
  Tumbling.roll_up (fun _ _ h => outer.floor_mono h) (windowStart_nested hdvd) hg hg hbucket

theorem sum_inner_taker_add_late (hdvd : inner.size ∣ outer.size) (side : Fill → Bool)
    {g : Bucket → ℚ} (hg : ∀ t l, g (Bucket.ofFills t l) = Batch.taker side l) {bucket : Bucket}
    (hbucket : bucket ∈ outer.tumbling.panes (group Fill.coin coin fs)) :
    (((inner.tumbling.panes (group Fill.coin coin fs)).filter
        fun b => outer.floor b.bucketTs = bucket.bucketTs).map g).sum +
      Batch.taker side (lateOnlyFills fs coin inner outer bucket.bucketTs) = g bucket := by
  rw [Batch.taker_eq_sum]
  exact sum_inner_add_late fs coin hdvd (fun t l => (hg t l).trans (Batch.taker_eq_sum side l))
    hbucket

/-- What the snapshots inside an outer one add up to, with the fills that they miss. -/
structure Snapshot.RollsUp (parts : List Snapshot) (missing : List Fill) (s : Snapshot) : Prop where
  volume : (parts.map Snapshot.volume).sum + Batch.volume missing = s.volume
  takerBuy : (parts.map Snapshot.takerBuy).sum + Batch.takerBuy missing = s.takerBuy
  takerSell : (parts.map Snapshot.takerSell).sum + Batch.takerSell missing = s.takerSell

theorem exists_pane_of_mem_coinSnapshots {win : Window} {s : Snapshot}
    (h : s ∈ coinSnapshots fs coin win) :
    ∃ bucket ∈ win.tumbling.panes (group Fill.coin coin fs), ∃ wallets,
      s = bucket.snapshot wallets := by
  obtain ⟨bucket, hbucket, wallets, rfl⟩ :=
    exists_bucket_of_mem_finalSnapshots (mem_snapshotsOf.mp h)
  exact ⟨bucket, mem_buckets.mp hbucket, wallets, rfl⟩

theorem rollsUp_of_mem (hdvd : inner.size ∣ outer.size) {s : Snapshot}
    (hs : s ∈ coinSnapshots fs coin outer) :
    s.RollsUp (innerSnapshots fs coin inner outer s.bucketTs)
      (lateOnlyFills fs coin inner outer s.bucketTs) := by
  obtain ⟨bucket, hbucket, wallets, rfl⟩ := exists_pane_of_mem_coinSnapshots fs coin hs
  refine ⟨?_, ?_, ?_⟩
  · rw [sum_innerSnapshots fs coin Bucket.volume fun _ _ => rfl]
    exact sum_inner_add_late fs coin hdvd Bucket.ofFills_volume hbucket
  · rw [sum_innerSnapshots fs coin Bucket.takerBuy fun _ _ => rfl]
    exact sum_inner_taker_add_late fs coin hdvd Fill.isBuy Bucket.ofFills_takerBuy hbucket
  · rw [sum_innerSnapshots fs coin Bucket.takerSell fun _ _ => rfl]
    exact sum_inner_taker_add_late fs coin hdvd (fun f => !f.isBuy) Bucket.ofFills_takerSell
      hbucket

/-- The net flow of one wallet. -/
theorem flow_rolls_up (hdvd : inner.size ∣ outer.size) {bucket : Bucket}
    (hbucket : bucket ∈ outer.tumbling.panes (group Fill.coin coin fs)) (addr : String) :
    (((inner.tumbling.panes (group Fill.coin coin fs)).filter
        fun b => outer.floor b.bucketTs = bucket.bucketTs).map
          fun b => (b.walletFlow.get? addr).getD 0).sum +
      Batch.flow (lateOnlyFills fs coin inner outer bucket.bucketTs) addr =
        (bucket.walletFlow.get? addr).getD 0 := by
  have hflow : ∀ l, Batch.flow l addr =
      (l.map fun f => if f.addr = addr then f.signedNotional else 0).sum := fun l => by
    rw [Batch.flow, group, Tumbling.sum_filter]
  rw [hflow]
  exact sum_inner_add_late fs coin hdvd (fun t l => (Bucket.ofFills_flow t l addr).trans (hflow l))
    hbucket

theorem coinSnapshots_bucketTs (win : Window) :
    (coinSnapshots fs coin win).map Snapshot.bucketTs =
      (win.tumbling.panes (group Fill.coin coin fs)).map win.tumbling.stamp :=
  finalSnapshots_bucketTs fs coin win

/-- Every inner snapshot lies in one outer one. -/
theorem existsUnique_outer (hdvd : inner.size ∣ outer.size) {s : Snapshot}
    (hs : s ∈ coinSnapshots fs coin inner) :
    ∃! s', s' ∈ coinSnapshots fs coin outer ∧ s'.bucketTs = outer.floor s.bucketTs := by
  obtain ⟨bucket, hbucket, wallets, rfl⟩ := exists_pane_of_mem_coinSnapshots fs coin hs
  obtain ⟨bucket', hbucket', hstamp⟩ := Tumbling.exists_pane_nested
    (fun _ _ h => outer.floor_mono h) (windowStart_nested hdvd) hbucket
  have hstamps := coinSnapshots_bucketTs fs coin outer
  have hmem : bucket'.bucketTs ∈ (coinSnapshots fs coin outer).map Snapshot.bucketTs := by
    rw [hstamps]
    exact List.mem_map_of_mem hbucket'
  obtain ⟨s', hs', heq⟩ := List.mem_map.mp hmem
  refine ⟨s', ⟨hs', heq.trans hstamp⟩, fun s'' hs'' => ?_⟩
  have hnodup : ((coinSnapshots fs coin outer).map Snapshot.bucketTs).Nodup := by
    rw [hstamps]
    exact outer.tumbling.panes_stamps_nodup _
  exact List.inj_on_of_nodup_map hnodup hs''.1 hs' (hs''.2.trans (heq.trans hstamp).symm)

theorem lateOnlyFills_of_timeSorted (hsorted : Fill.TimeSorted fs) (inner outer : Window) (t : ℤ) :
    lateOnlyFills fs coin inner outer t = [] := by
  have hcoin := inner.sorted_of_timeSorted
    (hsorted.sublist (Grouping.group_sublist Fill.coin coin fs))
  rw [lateOnlyFills, Tumbling.lateOnly_of_sorted hcoin, Grouping.group_nil]

/-- **The larger windows, from the smaller ones.**  For every sequence of fills, every
    coin, and two windows of which one divides the other:

    * volume and taker flows of an outer snapshot are those of the inner snapshots that
      start in it, with those of the fills that only the inner window has passed over;
    * so is the net flow of every wallet in an outer bucket;
    * every inner snapshot lies in exactly one outer one;
    * in a stream in the order of time nothing is missing. -/
theorem windows_roll_up (hdvd : inner.size ∣ outer.size) :
    (∀ s ∈ coinSnapshots fs coin outer,
      s.RollsUp (innerSnapshots fs coin inner outer s.bucketTs)
        (lateOnlyFills fs coin inner outer s.bucketTs)) ∧
    (∀ bucket ∈ ((buckets fs).filter fun c => c.1 = coin ∧ c.2.1 = outer).map fun c => c.2.2,
      ∀ addr,
      (((((buckets fs).filter fun c => c.1 = coin ∧ c.2.1 = inner).map fun c => c.2.2).filter
          fun b => outer.floor b.bucketTs = bucket.bucketTs).map
            fun b => (b.walletFlow.get? addr).getD 0).sum +
        Batch.flow (lateOnlyFills fs coin inner outer bucket.bucketTs) addr =
          (bucket.walletFlow.get? addr).getD 0) ∧
    (∀ s ∈ coinSnapshots fs coin inner,
      ∃! s', s' ∈ coinSnapshots fs coin outer ∧ s'.bucketTs = outer.floor s.bucketTs) ∧
    (Fill.TimeSorted fs → ∀ t, lateOnlyFills fs coin inner outer t = []) := by
  refine ⟨fun s hs => rollsUp_of_mem fs coin hdvd hs, ?_,
    fun s hs => existsUnique_outer fs coin hdvd hs,
    fun hsorted t => lateOnlyFills_of_timeSorted fs coin hsorted inner outer t⟩
  intro bucket hbucket addr
  rw [buckets_of_window] at hbucket ⊢
  exact flow_rolls_up fs coin hdvd hbucket addr

/-- The hour of `oneLate`, from its minutes: the first minute has passed over a fill. -/
theorem windows_roll_up_one_late :
    (coinSnapshots oneLate "BTC" .h1).map Snapshot.volume = [600] ∧
    (innerSnapshots oneLate "BTC" .m1 .h1 0).map Snapshot.volume = [200, 300] ∧
    ∀ s ∈ coinSnapshots oneLate "BTC" .h1,
      s.RollsUp (innerSnapshots oneLate "BTC" .m1 .h1 s.bucketTs)
        (lateOnlyFills oneLate "BTC" .m1 .h1 s.bucketTs) :=
  ⟨by decide +kernel, by decide +kernel, (windows_roll_up oneLate "BTC" (by decide)).1⟩

end FeatureStore
