/-
  FeatureStore/WindowBatch.lean
  =============================
  **Streaming windows equal a batch `GROUP BY`.**

  `Batch` says what the columns of `coin_window_features` mean for a finite set
  of fills, with no reference to buckets: sums over the fills, and per-wallet
  net flows over the set of wallets.  `Bucket.snapshot_ofFills` shows that a
  bucket that has been given a list of fills reports exactly those aggregates.

  `batch` says which fills a window start stands for: the fills of the coin
  that fall into that window and start no earlier than any fill of the coin
  before them.  `streaming_eq_batch` puts the two together for every run of the
  aggregator, in any order of timestamps.
-/
import FeatureStore.EngineRun
import Mathlib.Algebra.BigOperators.Ring.Finset

namespace FeatureStore

open Grouping (group)

/-! ### Batch aggregates -/

namespace Batch

def volume (l : List Fill) : ℚ := (l.map Fill.notional).sum

def takerBuy (l : List Fill) : ℚ :=
  ((l.filter fun f => f.crossed && f.isBuy).map Fill.notional).sum

def takerSell (l : List Fill) : ℚ :=
  ((l.filter fun f => f.crossed && !f.isBuy).map Fill.notional).sum

def imbalance (l : List Fill) : ℚ :=
  if 0 < takerBuy l + takerSell l then
    (takerBuy l - takerSell l) / (takerBuy l + takerSell l)
  else 0

/-- The wallets that occur in the batch. -/
def wallets (l : List Fill) : Finset String := (l.map Fill.addr).toFinset

/-- The net signed notional of one wallet. -/
def flow (l : List Fill) (addr : String) : ℚ :=
  ((group Fill.addr addr l).map Fill.signedNotional).sum

def gross (l : List Fill) : ℚ := ∑ a ∈ wallets l, |flow l a|

/-- Herfindahl index of the wallets' net flows. -/
def hhi (l : List Fill) : ℚ :=
  if 0 < gross l then ∑ a ∈ wallets l, (|flow l a| / gross l) ^ 2 else 0

/-- Net flow of the wallets whose own net flow is large. -/
def largeFlow (l : List Fill) : ℚ :=
  ∑ a ∈ wallets l with LARGE_NOTIONAL ≤ |flow l a|, flow l a

theorem mem_wallets {l : List Fill} {addr : String} :
    addr ∈ wallets l ↔ ∃ f ∈ l, f.addr = addr := by
  simp [wallets]

end Batch

/-- The columns of a snapshot other than `smart_flow` are the aggregates of a
    batch of fills. -/
structure Snapshot.Aggregates (s : Snapshot) (l : List Fill) : Prop where
  volume : s.volume = Batch.volume l
  takerBuy : s.takerBuy = Batch.takerBuy l
  takerSell : s.takerSell = Batch.takerSell l
  activeWallets : s.activeWallets = (Batch.wallets l).card
  hhi : s.hhi = Batch.hhi l
  largeFlow : s.largeFlow = Batch.largeFlow l
  buySellImbalance : s.buySellImbalance = Batch.imbalance l

/-! ### A bucket that has been given a list of fills -/

/-- The bucket after adding the fills in order. -/
def Bucket.ofFills (t : ℤ) (l : List Fill) : Bucket := l.foldl Bucket.add { bucketTs := t }

theorem Window.pane_eq (win : Window) (t : ℤ) (l : List Fill) :
    win.tumbling.pane t l = Bucket.ofFills t l := rfl

namespace Bucket

theorem ofFills_snoc (t : ℤ) (l : List Fill) (f : Fill) :
    ofFills t (l ++ [f]) = (ofFills t l).add f := by
  simp [ofFills]

@[simp] theorem ofFills_volume (t : ℤ) (l : List Fill) :
    (ofFills t l).volume = Batch.volume l := by
  induction l using List.reverseRecOn with
  | nil => rfl
  | append_singleton l f ih =>
    simp only [ofFills_snoc, add, ih, Batch.volume, List.map_append, List.sum_append,
      List.map_singleton, List.sum_singleton]

@[simp] theorem ofFills_takerBuy (t : ℤ) (l : List Fill) :
    (ofFills t l).takerBuy = Batch.takerBuy l := by
  induction l using List.reverseRecOn with
  | nil => rfl
  | append_singleton l f ih =>
    simp only [ofFills_snoc, add, ih, Batch.takerBuy, List.filter_append, List.map_append,
      List.sum_append]
    cases h : f.crossed && f.isBuy <;> simp [h]

@[simp] theorem ofFills_takerSell (t : ℤ) (l : List Fill) :
    (ofFills t l).takerSell = Batch.takerSell l := by
  induction l using List.reverseRecOn with
  | nil => rfl
  | append_singleton l f ih =>
    simp only [ofFills_snoc, add, ih, Batch.takerSell, List.filter_append, List.map_append,
      List.sum_append]
    cases h : f.crossed && !f.isBuy <;> simp [h]

/-- `wallet_flow` is a map fed by the fills of the bucket. -/
theorem ofFills_walletFlow (t : ℤ) (l : List Fill) :
    (ofFills t l).walletFlow =
      Dict.feed Fill.addr 0 (fun v f => v + f.signedNotional) Dict.empty l := by
  induction l using List.reverseRecOn with
  | nil => rfl
  | append_singleton l f ih =>
    rw [ofFills_snoc, Dict.feed_snoc, ← ih]
    rfl

theorem ofFills_flow (t : ℤ) (l : List Fill) (addr : String) :
    ((ofFills t l).walletFlow.get? addr).getD 0 = Batch.flow l addr := by
  rw [ofFills_walletFlow, Dict.get?_feed_getD]
  exact (Grouping.measure_foldl (g := id) (fun _ _ => rfl) 0 _).trans (zero_add _)

theorem ofFills_wallets (t : ℤ) (l : List Fill) :
    (ofFills t l).walletFlow.keys.toFinset = Batch.wallets l := by
  ext addr
  rw [List.mem_toFinset, ofFills_walletFlow, Dict.mem_keys_feed_empty, Batch.mem_wallets]

/-- A sum over the values of `wallet_flow` is a sum over the wallets. -/
theorem sum_values_ofFills (t : ℤ) (l : List Fill) (g : ℚ → ℚ) :
    ((ofFills t l).walletFlow.values.map g).sum = ∑ a ∈ Batch.wallets l, g (Batch.flow l a) := by
  have h := (ofFills t l).walletFlow.sum_items (fun _ v => g v) 0
  rw [ofFills_wallets] at h
  simp only [ofFills_flow] at h
  rw [← h, Dict.values, List.map_map]
  rfl

theorem ofFills_gross (t : ℤ) (l : List Fill) : (ofFills t l).gross = Batch.gross l :=
  sum_values_ofFills t l fun v => |v|

theorem sum_filter_eq_sum_ite (p : ℚ → Prop) [DecidablePred p] (l : List ℚ) :
    (l.filter fun v => p v).sum = (l.map fun v => if p v then v else 0).sum := by
  induction l with
  | nil => rfl
  | cons v l ih => by_cases h : p v <;> simp [h, ih]

/-- **A bucket reports the aggregates of its fills.** -/
theorem snapshot_ofFills (t : ℤ) (l : List Fill) (wallets : Option (Dict String WalletState)) :
    ((ofFills t l).snapshot wallets).Aggregates l where
  volume := ofFills_volume t l
  takerBuy := ofFills_takerBuy t l
  takerSell := ofFills_takerSell t l
  activeWallets := by
    rw [← ofFills_wallets t l, List.toFinset_card_of_nodup (Dict.keys_nodup _),
      Dict.length_keys]
    rfl
  hhi := by
    simp only [snapshot, ofFills_gross, sum_values_ofFills, Batch.hhi, gt_iff_lt]
  largeFlow := by
    simp only [snapshot, ge_iff_le, sum_filter_eq_sum_ite (fun v => LARGE_NOTIONAL ≤ |v|),
      sum_values_ofFills, Batch.largeFlow, Finset.sum_filter]
  buySellImbalance := by
    simp only [snapshot, ofFills_takerBuy, ofFills_takerSell, Batch.imbalance, gt_iff_lt]

end Bucket

/-! ### The batches of a stream -/

/-- The fills that the window of `win` starting at `t` stands for. -/
def batch (fs : List Fill) (coin : String) (win : Window) (t : ℤ) : List Fill :=
  win.tumbling.counted (group Fill.coin coin fs) t

/-- The positions of those fills among the fills of the coin. -/
def batchIdx (fs : List Fill) (coin : String) (win : Window) (t : ℤ) : List ℕ :=
  win.tumbling.countedIdx (group Fill.coin coin fs) t

/-- The snapshots of one (coin, window) in a list that the aggregator has
    yielded. -/
def snapshotsOf (closed : List WindowSnapshot) (coin : String) (win : Window) : List Snapshot :=
  (closed.filter fun c => c.1 = coin ∧ c.2.1 = win).map fun c => c.2.2

theorem mem_snapshotsOf {closed : List WindowSnapshot} {coin : String} {win : Window}
    {s : Snapshot} : s ∈ snapshotsOf closed coin win ↔ (coin, win, s) ∈ closed := by
  simp [snapshotsOf]

theorem mem_of_mem_batch {fs : List Fill} {coin : String} {win : Window} {t : ℤ} {f : Fill}
    (h : f ∈ batch fs coin win t) : f ∈ fs ∧ f.coin = coin ∧ windowStart win f = t := by
  obtain ⟨hgroup, hstart⟩ := win.tumbling.mem_counted h
  obtain ⟨hmem, hcoin⟩ := (Grouping.mem_group _).mp hgroup
  exact ⟨hmem, hcoin, hstart⟩

/-- Every bucket the tumbling aggregation opens for the coin is the bucket of
    its batch. -/
theorem panes_ofFills {fs : List Fill} {coin : String} {win : Window} {bucket : Bucket}
    (h : bucket ∈ win.tumbling.panes (group Fill.coin coin fs)) :
    bucket = Bucket.ofFills bucket.bucketTs (batch fs coin win bucket.bucketTs) :=
  win.tumbling.panes_eq_pane h

theorem dvd_bucketTs {fs : List Fill} {coin : String} {win : Window} {bucket : Bucket}
    (h : bucket ∈ win.tumbling.panes (group Fill.coin coin fs)) : win.size ∣ bucket.bucketTs := by
  have hmem : bucket.bucketTs ∈
      (win.tumbling.panes (group Fill.coin coin fs)).map win.tumbling.stamp :=
    List.mem_map_of_mem h
  have hne := (win.tumbling.mem_stamps_iff _ _).mp hmem
  obtain ⟨f, hf⟩ := List.exists_mem_of_ne_nil _ hne
  rw [← (win.tumbling.mem_counted hf).2]
  exact win.size_dvd_floor f.sec

/-- Every snapshot of a bucket that the coin's fills open carries the
    aggregates of its batch. -/
theorem aggregates_of_mem_panes {fs : List Fill} {coin : String} {win : Window} {bucket : Bucket}
    (h : bucket ∈ win.tumbling.panes (group Fill.coin coin fs))
    (wallets : Option (Dict String WalletState)) :
    (bucket.snapshot wallets).Aggregates (batch fs coin win bucket.bucketTs) := by
  have haggr := Bucket.snapshot_ofFills bucket.bucketTs (batch fs coin win bucket.bucketTs) wallets
  rwa [← panes_ofFills h] at haggr

theorem batch_ne_nil_of_mem_panes {fs : List Fill} {coin : String} {win : Window}
    {bucket : Bucket} (h : bucket ∈ win.tumbling.panes (group Fill.coin coin fs)) :
    batch fs coin win bucket.bucketTs ≠ [] :=
  (win.tumbling.mem_stamps_iff _ _).mp (List.mem_map_of_mem h)

/-- A batch only grows. -/
theorem batch_extends {fs fs' : List Fill} (h : fs <+: fs') (coin : String) (win : Window) (t : ℤ) :
    batch fs coin win t <+: batch fs' coin win t := by
  obtain ⟨more, rfl⟩ := h
  rw [batch, batch, Grouping.group_append]
  exact win.tumbling.counted_extends _ _ t

namespace CoinWindowAggregator

variable (inputs : List (Fill × Option (Dict String WalletState))) (coin : String) (win : Window)

/-- What a run yields for one (coin, window), bucket by bucket. -/
theorem snapshotsOf_run :
    snapshotsOf (run inputs).2 coin win =
      ((closings inputs).filter fun c => c.1.1 = coin ∧ c.1.2.1 = win).map
        fun c => c.1.2.2.snapshot c.2 := by
  rw [run_emitted, snapshotsOf, List.filter_map, List.map_map]
  rfl

theorem snapshotsOf_run_bucketTs :
    (snapshotsOf (run inputs).2 coin win).map Snapshot.bucketTs =
      (win.tumbling.closed (group Fill.coin coin (inputs.map Prod.fst))).map Bucket.bucketTs := by
  rw [snapshotsOf_run, ← closings_of_window, List.map_map, List.map_map]
  rfl

theorem exists_closed_of_mem_snapshotsOf {s : Snapshot}
    (hs : s ∈ snapshotsOf (run inputs).2 coin win) :
    ∃ bucket ∈ win.tumbling.closed (group Fill.coin coin (inputs.map Prod.fst)),
      ∃ wallets, s = bucket.snapshot wallets := by
  rw [snapshotsOf_run] at hs
  obtain ⟨c, hc, rfl⟩ := List.mem_map.mp hs
  refine ⟨c.1.2.2, ?_, c.2, rfl⟩
  rw [← closings_of_window]
  exact List.mem_map_of_mem hc

/-- **Streaming windows equal a batch `GROUP BY`.**  For every run of a fresh
    aggregator, and every coin and window:

    * the starts of the closed buckets are strictly increasing multiples of the
      window size, all below the start of the open bucket;
    * every closed snapshot, and every snapshot of the open bucket, carries the
      aggregates of its batch, and every nonempty batch has its bucket;
    * if timestamps never decrease, every fill of the coin is counted in exactly
      one bucket, and the batches in order are the fills of the coin. -/
theorem streaming_eq_batch (inputs : List (Fill × Option (Dict String WalletState)))
    (coin : String) (win : Window) :
    let fs := inputs.map Prod.fst
    let closed := snapshotsOf (run inputs).2 coin win
    let opened := (run inputs).1.openBuckets.get? (coin, win)
    let stamps := closed.map Snapshot.bucketTs ++ (opened.map Bucket.bucketTs).toList
    (stamps.Pairwise (· < ·) ∧ ∀ t ∈ stamps, win.size ∣ t) ∧
    (∀ s ∈ closed, s.Aggregates (batch fs coin win s.bucketTs)) ∧
    (∀ bucket, opened = some bucket → ∀ wallets,
      (bucket.snapshot wallets).Aggregates (batch fs coin win bucket.bucketTs)) ∧
    (∀ t, t ∈ stamps ↔ batch fs coin win t ≠ []) ∧
    (Fill.TimeSorted fs →
      (∀ i < (group Fill.coin coin fs).length, ∃! t, t ∈ stamps ∧ i ∈ batchIdx fs coin win t) ∧
      (stamps.flatMap fun t => batch fs coin win t) = group Fill.coin coin fs) := by
  intro fs closed opened stamps
  have hopened : opened = win.tumbling.current (group Fill.coin coin fs) := run_get? inputs coin win
  have hstamps : stamps =
      (win.tumbling.panes (group Fill.coin coin fs)).map win.tumbling.stamp := by
    simp only [stamps, closed, snapshotsOf_run_bucketTs, hopened, Tumbling.panes, List.map_append]
    cases win.tumbling.current (group Fill.coin coin fs) <;> rfl
  refine ⟨⟨?_, ?_⟩, ?_, ?_, ?_, ?_⟩
  · rw [hstamps, List.pairwise_map]
    exact win.tumbling.panes_pairwise _
  · intro t ht
    rw [hstamps] at ht
    obtain ⟨bucket, hbucket, rfl⟩ := List.mem_map.mp ht
    exact dvd_bucketTs hbucket
  · intro s hs
    obtain ⟨bucket, hbucket, wallets, rfl⟩ := exists_closed_of_mem_snapshotsOf inputs coin win hs
    exact aggregates_of_mem_panes (List.mem_append_left _ hbucket) wallets
  · intro bucket hbucket wallets
    rw [hopened] at hbucket
    exact aggregates_of_mem_panes
      (List.mem_append_right _ (Option.mem_toList.mpr hbucket)) wallets
  · intro t
    rw [hstamps]
    exact win.tumbling.mem_stamps_iff _ t
  · intro hsorted
    have hwin : win.tumbling.Sorted (group Fill.coin coin fs) :=
      win.sorted_of_timeSorted (hsorted.sublist (Grouping.group_sublist _ _ _))
    constructor
    · intro i hi
      have hidx := win.tumbling.mem_countedIdx_of_sorted hwin (List.getElem?_eq_getElem hi)
      refine ⟨_, ⟨?_, hidx⟩, ?_⟩
      · rw [hstamps]
        exact win.tumbling.mem_stamps_of_mem_countedIdx hidx
      · rintro t ⟨_, ht⟩
        exact win.tumbling.countedIdx_start_unique ht hidx
    · rw [hstamps, List.flatMap_map]
      exact win.tumbling.flatMap_counted_of_sorted hwin

end CoinWindowAggregator

/-! ### The last snapshot of a bucket -/

namespace FeatureEngine

/-- The last snapshot of the bucket of (coin, window) that starts at `t`. -/
def finalSnapshot? (fs : List Fill) (coin : String) (win : Window) (t : ℤ) : Option Snapshot :=
  (snapshotsOf (finalSnapshots fs) coin win).find? fun s => s.bucketTs = t

theorem exists_bucket_of_mem_finalSnapshots {fs : List Fill} {coin : String} {win : Window}
    {s : Snapshot} (h : (coin, win, s) ∈ finalSnapshots fs) :
    ∃ bucket, (coin, win, bucket) ∈ buckets fs ∧ ∃ wallets, s = bucket.snapshot wallets := by
  obtain ⟨i, hi, hget⟩ := List.mem_iff_getElem.mp h
  have hrel := finalSnapshots_forall₂ fs
  have hi' : i < (buckets fs).length := hrel.length_eq ▸ hi
  obtain ⟨hcoin, hwin, wallets, hs⟩ := hrel.get hi hi'
  simp only [List.get_eq_getElem, hget] at hcoin hwin hs
  refine ⟨(buckets fs)[i].2.2, ?_, wallets, hs⟩
  rw [hcoin, hwin]
  exact List.getElem_mem hi'

theorem finalSnapshots_bucketTs (fs : List Fill) (coin : String) (win : Window) :
    (snapshotsOf (finalSnapshots fs) coin win).map Snapshot.bucketTs =
      (win.tumbling.panes (group Fill.coin coin fs)).map win.tumbling.stamp := by
  rw [← buckets_of_window, snapshotsOf, List.map_map, List.map_map]
  exact filter_finalSnapshots (fun coin' win' => decide (coin' = coin ∧ win' = win))
    (fun _ _ => rfl) fs

/-- **The last snapshot of a bucket** carries the aggregates of its batch, and
    there is one exactly when the batch is not empty. -/
theorem finalSnapshot?_spec (fs : List Fill) (coin : String) (win : Window) (t : ℤ) :
    match finalSnapshot? fs coin win t with
    | none => batch fs coin win t = []
    | some s => s.bucketTs = t ∧ s.Aggregates (batch fs coin win t) ∧ batch fs coin win t ≠ [] := by
  have hstamps := win.tumbling.mem_stamps_iff (group Fill.coin coin fs) t
  rw [← finalSnapshots_bucketTs] at hstamps
  unfold finalSnapshot?
  cases hfind : (snapshotsOf (finalSnapshots fs) coin win).find? fun s => s.bucketTs = t with
  | none =>
    simp only
    by_contra hne
    obtain ⟨s, hs, hts⟩ := List.mem_map.mp (hstamps.mpr hne)
    exact List.find?_eq_none.mp hfind s hs (decide_eq_true hts)
  | some s =>
    have hmem := List.mem_of_find?_eq_some hfind
    have hts : s.bucketTs = t := by
      simpa using List.find?_some hfind
    obtain ⟨bucket, hbucket, wallets, rfl⟩ :=
      exists_bucket_of_mem_finalSnapshots (mem_snapshotsOf.mp hmem)
    have haggr := aggregates_of_mem_panes (mem_buckets.mp hbucket) wallets
    have hts' : bucket.bucketTs = t := hts
    rw [hts'] at haggr
    exact ⟨hts, haggr, hstamps.mp (List.mem_map.mpr ⟨_, hmem, hts⟩)⟩

theorem isSome_finalSnapshot? (fs : List Fill) (coin : String) (win : Window) (t : ℤ) :
    (finalSnapshot? fs coin win t).isSome ↔ batch fs coin win t ≠ [] := by
  have hspec := finalSnapshot?_spec fs coin win t
  cases hfinal : finalSnapshot? fs coin win t with
  | none =>
    rw [hfinal] at hspec
    simpa using hspec
  | some s =>
    rw [hfinal] at hspec
    simpa using hspec.2.2

/-- No two last snapshots are of the same bucket. -/
theorem finalSnapshots_nodup (fs : List Fill) :
    ((finalSnapshots fs).map fun c => ((c.1, c.2.1), c.2.2.bucketTs)).Nodup := by
  apply Grouping.nodup_map_of_group
  rintro ⟨coin, win⟩
  have hstamps := win.tumbling.panes_stamps_nodup (group Fill.coin coin fs)
  rw [← finalSnapshots_bucketTs, snapshotsOf, List.map_map] at hstamps
  simpa only [group, Prod.mk.injEq, Function.comp_def] using hstamps

end FeatureEngine

end FeatureStore
