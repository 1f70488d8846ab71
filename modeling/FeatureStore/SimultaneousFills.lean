/-
  FeatureStore/SimultaneousFills.lean
  ===================================
  **Fills of the same millisecond may come in any order.**

  Sorting a day by time leaves the order of simultaneous fills open.  The additive
  features do not depend on it: sums do not depend on any order, a last timestamp
  is the greatest, and in a stream ordered by time the batch of a window is every
  fill that falls into it.  What remains is `avg_entry`, and `smart_flow`, which
  reads the wallets when the bucket closes.
-/
import FeatureStore.WalletClass

namespace FeatureStore

open Grouping (group)
open FeatureEngine (after emitted finalSnapshots)

variable {fs fs' : List Fill}

/-! ### Last timestamps -/

theorem map_tsMs_perm (h : fs.Perm fs') (hs : Fill.TimeSorted fs) (hs' : Fill.TimeSorted fs') :
    fs.map Fill.tsMs = fs'.map Fill.tsMs :=
  List.Perm.eq_of_pairwise (fun _ _ _ _ => le_antisymm) (List.pairwise_map.mpr hs)
    (List.pairwise_map.mpr hs') (h.map _)

theorem last_tsMs_perm (h : fs.Perm fs') (hs : Fill.TimeSorted fs) (hs' : Fill.TimeSorted fs') :
    fs.getLast?.map Fill.tsMs = fs'.getLast?.map Fill.tsMs := by
  simpa only [List.getLast?_map] using congrArg List.getLast? (map_tsMs_perm h hs hs')

theorem Fill.TimeSorted.group {κ : Type*} [DecidableEq κ] (hs : Fill.TimeSorted fs)
    (key : Fill → κ) (k : κ) : Fill.TimeSorted (Grouping.group key k fs) :=
  hs.sublist (Grouping.group_sublist _ _ _)

/-! ### Wallets and positions -/

theorem WalletState.ofFills_congr (h : fs.Perm fs') (hs : Fill.TimeSorted fs)
    (hs' : Fill.TimeSorted fs') : ofFills fs = ofFills fs' := by
  have hlast : (ofFills fs).lastTs = (ofFills fs').lastTs := by
    simp only [ofFills_eq, last_tsMs_perm h hs hs']
  rw [ofFills_perm h, hlast]

/-- The fields of a position that are sums, and the time of its last fill. -/
def WalletCoinState.additive (s : WalletCoinState) : ℚ × ℚ × ℕ × ℤ :=
  (s.netPos, s.realizedPnl, s.fillCount, s.lastTs)

theorem WalletCoinState.foldl_additive (s : WalletCoinState) (fs : List Fill) :
    (fs.foldl update s).additive =
      (s.netPos + (fs.map Fill.signedSz).sum, s.realizedPnl + (fs.map Fill.closedPnl).sum,
        s.fillCount + fs.length, (fs.getLast?.map Fill.tsMs).getD s.lastTs) := by
  induction fs generalizing s with
  | nil => simp [additive]
  | cons f fs ih =>
    rw [List.foldl_cons, ih, WalletState.lastTs_cons]
    simp [update, add_assoc, Nat.add_comm]

theorem WalletCoinState.foldl_congr (h : fs.Perm fs') (hs : Fill.TimeSorted fs)
    (hs' : Fill.TimeSorted fs') (s : WalletCoinState) :
    (fs.foldl update s).additive = (fs'.foldl update s).additive := by
  simp only [foldl_additive, (h.map _).sum_eq, h.length_eq, last_tsMs_perm h hs hs']

/-! ### Windows -/

namespace Batch

variable {l l' : List Fill}

theorem volume_perm (h : l.Perm l') : volume l = volume l' := (h.map _).sum_eq

theorem takerBuy_perm (h : l.Perm l') : takerBuy l = takerBuy l' := ((h.filter _).map _).sum_eq

theorem takerSell_perm (h : l.Perm l') : takerSell l = takerSell l' := ((h.filter _).map _).sum_eq

theorem wallets_perm (h : l.Perm l') : wallets l = wallets l' :=
  List.toFinset_eq_of_perm _ _ (h.map _)

theorem flow_perm (h : l.Perm l') : flow l = flow l' :=
  funext fun _ => ((h.filter _).map _).sum_eq

theorem gross_perm (h : l.Perm l') : gross l = gross l' := by
  rw [gross, gross, wallets_perm h, flow_perm h]

end Batch

/-- A snapshot of a batch is a snapshot of the batch in any other order. -/
theorem Snapshot.Aggregates.perm {s : Snapshot} {l l' : List Fill} (hs : s.Aggregates l)
    (h : l.Perm l') : s.Aggregates l' where
  volume := hs.volume.trans (Batch.volume_perm h)
  takerBuy := hs.takerBuy.trans (Batch.takerBuy_perm h)
  takerSell := hs.takerSell.trans (Batch.takerSell_perm h)
  activeWallets := hs.activeWallets.trans (by rw [Batch.wallets_perm h])
  hhi := hs.hhi.trans (by
    rw [Batch.hhi, Batch.hhi, Batch.gross_perm h, Batch.wallets_perm h, Batch.flow_perm h])
  largeFlow := hs.largeFlow.trans (by
    rw [Batch.largeFlow, Batch.largeFlow, Batch.wallets_perm h, Batch.flow_perm h])
  buySellImbalance := hs.buySellImbalance.trans (by
    rw [Batch.imbalance, Batch.imbalance, Batch.takerBuy_perm h, Batch.takerSell_perm h])

/-- Two snapshots of a batch differ in `smart_flow` only. -/
theorem Snapshot.Aggregates.eq {s s' : Snapshot} {l : List Fill} (hs : s.Aggregates l)
    (hs' : s'.Aggregates l) (hts : s'.bucketTs = s.bucketTs) :
    s' = { s with smartFlow := s'.smartFlow } := by
  obtain ⟨_, _, _, _, _, _, _, _, _⟩ := s
  obtain ⟨_, _, _, _, _, _, _, _, _⟩ := s'
  simp only [Snapshot.mk.injEq]
  exact ⟨hts, hs'.volume.trans hs.volume.symm, hs'.takerBuy.trans hs.takerBuy.symm,
    hs'.takerSell.trans hs.takerSell.symm, hs'.buySellImbalance.trans hs.buySellImbalance.symm,
    hs'.activeWallets.trans hs.activeWallets.symm, hs'.hhi.trans hs.hhi.symm,
    hs'.largeFlow.trans hs.largeFlow.symm, trivial⟩

theorem tumbling_sorted (hs : Fill.TimeSorted fs) (coin : String) (win : Window) :
    win.tumbling.Sorted (group Fill.coin coin fs) :=
  win.sorted_of_timeSorted (hs.group _ _)

theorem batch_perm (h : fs.Perm fs') (hs : Fill.TimeSorted fs) (hs' : Fill.TimeSorted fs')
    (coin : String) (win : Window) (t : ℤ) :
    (batch fs coin win t).Perm (batch fs' coin win t) :=
  win.tumbling.counted_perm (Grouping.group_perm _ h) (tumbling_sorted hs coin win)
    (tumbling_sorted hs' coin win) t

theorem emitted_bucketTs (fs : List Fill) (coin : String) (win : Window) :
    (snapshotsOf (emitted fs) coin win).map Snapshot.bucketTs =
      (win.tumbling.closed (group Fill.coin coin fs)).map win.tumbling.stamp := by
  rw [FeatureEngine.emitted_eq, CoinWindowAggregator.snapshotsOf_run_bucketTs, aggregatorInputs_fst]
  rfl

/-- The closed buckets of a (coin, window), as a set of starts. -/
theorem exists_emitted_iff {coin : String} {win : Window} {t : ℤ} :
    (∃ s, (coin, win, s) ∈ emitted fs ∧ s.bucketTs = t) ↔
      t ∈ (win.tumbling.closed (group Fill.coin coin fs)).map win.tumbling.stamp := by
  rw [← emitted_bucketTs, List.mem_map]
  simp only [mem_snapshotsOf]

theorem exists_openSnapshot_iff {coin : String} {win : Window} {t : ℤ} :
    (∃ s, (coin, win, s) ∈ (after fs).openSnapshots ∧ s.bucketTs = t) ↔
      (win.tumbling.current (group Fill.coin coin fs)).map win.tumbling.stamp = some t := by
  rw [Option.map_eq_some_iff]
  constructor
  · rintro ⟨s, hs, rfl⟩
    obtain ⟨bucket, hbucket, rfl⟩ := FeatureEngine.mem_openSnapshots.mp hs
    exact ⟨bucket, hbucket, rfl⟩
  · rintro ⟨bucket, hbucket, rfl⟩
    exact ⟨_, FeatureEngine.mem_openSnapshots.mpr ⟨bucket, hbucket, rfl⟩, rfl⟩

theorem aggregates_of_mem_finalSnapshots {coin : String} {win : Window} {s : Snapshot}
    (h : (coin, win, s) ∈ finalSnapshots fs) : s.Aggregates (batch fs coin win s.bucketTs) := by
  obtain ⟨bucket, hbucket, wallets, rfl⟩ := FeatureEngine.exists_bucket_of_mem_finalSnapshots h
  exact aggregates_of_mem_panes (FeatureEngine.mem_buckets.mp hbucket) wallets

/-- **The order of simultaneous fills does not matter for the additive
    features.**  For two arrangements of the same fills in the order of their
    timestamps, the engine ends with

    * the same state of every wallet, and the same position, PnL, count and last
      timestamp of every (wallet, coin);
    * the same closed and the same open buckets;
    * the same last snapshot of each bucket, but for `smart_flow`. -/
theorem simultaneous_fills (fs fs' : List Fill) (h : fs.Perm fs') (hs : Fill.TimeSorted fs)
    (hs' : Fill.TimeSorted fs') :
    (∀ addr, (after fs).wallets.get? addr = (after fs').wallets.get? addr) ∧
    (∀ addr coin, ((after fs).wc.get? (addr, coin)).map WalletCoinState.additive =
      ((after fs').wc.get? (addr, coin)).map WalletCoinState.additive) ∧
    (∀ coin win t, (∃ s, (coin, win, s) ∈ emitted fs ∧ s.bucketTs = t) ↔
      ∃ s, (coin, win, s) ∈ emitted fs' ∧ s.bucketTs = t) ∧
    (∀ coin win t, (∃ s, (coin, win, s) ∈ (after fs).openSnapshots ∧ s.bucketTs = t) ↔
      ∃ s, (coin, win, s) ∈ (after fs').openSnapshots ∧ s.bucketTs = t) ∧
    (∀ coin win s s', (coin, win, s) ∈ finalSnapshots fs → (coin, win, s') ∈ finalSnapshots fs' →
      s'.bucketTs = s.bucketTs → s' = { s with smartFlow := s'.smartFlow }) := by
  refine ⟨?_, ?_, ?_, ?_, ?_⟩
  · intro addr
    have hgroup : (group Fill.addr addr fs).Perm (group Fill.addr addr fs') :=
      Grouping.group_perm _ h
    have hstate := WalletState.ofFills_congr hgroup (hs.group _ _) (hs'.group _ _)
    have hnil := Grouping.eq_nil_iff_of_perm hgroup
    rw [FeatureEngine.after_wallets_get?, FeatureEngine.after_wallets_get?]
    exact if_congr hnil rfl (congrArg some hstate)
  · intro addr coin
    have hgroup : (group (fun f : Fill => (f.addr, f.coin)) (addr, coin) fs).Perm
        (group (fun f : Fill => (f.addr, f.coin)) (addr, coin) fs') := Grouping.group_perm _ h
    have hstate := WalletCoinState.foldl_congr hgroup (hs.group _ _) (hs'.group _ _) {}
    have hnil := Grouping.eq_nil_iff_of_perm hgroup
    rw [FeatureEngine.after_wc_get?, FeatureEngine.after_wc_get?, apply_ite (Option.map _),
      apply_ite (Option.map _)]
    exact if_congr hnil rfl (congrArg some hstate)
  · intro coin win t
    have hclosed := win.tumbling.closed_stamps_perm (Grouping.group_perm _ h)
      (tumbling_sorted hs coin win) (tumbling_sorted hs' coin win)
    exact exists_emitted_iff.trans ((iff_of_eq (congrArg (t ∈ ·) hclosed)).trans
      exists_emitted_iff.symm)
  · intro coin win t
    have hopen := win.tumbling.current_stamp_perm
      (Grouping.group_perm Fill.coin (k := coin) h)
    exact exists_openSnapshot_iff.trans ((iff_of_eq (congrArg (· = some t) hopen)).trans
      exists_openSnapshot_iff.symm)
  · intro coin win s s' hmem hmem' hts
    have hagg := (aggregates_of_mem_finalSnapshots hmem).perm
      (batch_perm h hs hs' coin win s.bucketTs)
    have hagg' := aggregates_of_mem_finalSnapshots hmem'
    rw [hts] at hagg'
    exact hagg.eq hagg' hts

/-- Two simultaneous fills, and one that closes their minute. -/
theorem simultaneous_fills_two_orders :
    ((after [⟨"v", "BTC", 100, 1, .B, 0, 0, true⟩, ⟨"w", "BTC", 90, 1, .A, 0, 5, false⟩,
        ⟨"v", "BTC", 80, 1, .A, 60000, 0, true⟩]).wallets.get? "w") =
      some ⟨5, 1, 90, -90, 0, 1, 0⟩ :=
  ((simultaneous_fills
    [⟨"v", "BTC", 100, 1, .B, 0, 0, true⟩, ⟨"w", "BTC", 90, 1, .A, 0, 5, false⟩,
      ⟨"v", "BTC", 80, 1, .A, 60000, 0, true⟩]
    [⟨"w", "BTC", 90, 1, .A, 0, 5, false⟩, ⟨"v", "BTC", 100, 1, .B, 0, 0, true⟩,
      ⟨"v", "BTC", 80, 1, .A, 60000, 0, true⟩]
    (List.Perm.swap _ _ _) (by decide) (by decide)).1 "w").trans (by decide +kernel)

end FeatureStore
