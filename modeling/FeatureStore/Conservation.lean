/-
  FeatureStore/Conservation.lean
  ==============================
  **Conservation across the three feature groups.**

  The wallet map, the (wallet, coin) map and the windows are updated
  independently, so that what they have in common is what they have in common
  with the fills: each is a grouping of one stream, and an additive quantity
  summed over all groups is the sum over the stream.  For the two maps this is
  `Dict.sum_feed_empty`.  For the windows it needs the timestamps not to
  decrease, and then holds of all the buckets together, the closed ones (which
  the engine no longer has) and the open ones (`sum_buckets_of_sorted`).
-/
import FeatureStore.WindowBatch

namespace FeatureStore

open Grouping (group)

/-- The net signed flow of all wallets of a bucket. -/
def Bucket.netFlow (self : Bucket) : ℚ := self.walletFlow.values.sum

theorem Bucket.ofFills_netFlow (t : ℤ) (l : List Fill) :
    (ofFills t l).netFlow = (l.map Fill.signedNotional).sum := by
  have hsum := sum_values_ofFills t l id
  rw [List.map_id] at hsum
  rw [netFlow, hsum]
  apply Grouping.sum_group
  intro f hf
  exact Batch.mem_wallets.mpr ⟨f, hf, rfl⟩

namespace FeatureEngine

variable (fs : List Fill)

/-! ### Sums over the keyed maps -/

/-- A quantity of `WalletState` summed over the wallets. -/
theorem sum_wallets {M : Type*} [AddCommMonoid M] {g : WalletState → M} {h : Fill → M}
    (hstart : g {} = 0) (hstep : ∀ w f, g (w.update f) = g w + h f) :
    ((after fs).wallets.values.map g).sum = (fs.map h).sum := by
  have hsum := Dict.sum_feed_empty Fill.addr {} WalletState.update hstart hstep
    (fun _ => ()) () fs
  simp only [decide_true, List.filter_true, group] at hsum
  rw [after_wallets, Dict.values, List.map_map, ← hsum]
  rfl

/-- A quantity of `WalletState` at one wallet. -/
theorem wallet_measure {M : Type*} [AddCommMonoid M] {g : WalletState → M} {h : Fill → M}
    (hstart : g {} = 0) (hstep : ∀ w f, g (w.update f) = g w + h f) {addr : String}
    {w : WalletState} (hw : (after fs).wallets.get? addr = some w) :
    g w = ((group Fill.addr addr fs).map h).sum := by
  rw [after_wallets] at hw
  rw [Dict.get?_feed_some Fill.addr {} WalletState.update hw, Grouping.measure_foldl hstep,
    hstart, zero_add]

/-- The entries of one wallet in the (wallet, coin) map. -/
def wcOf (addr : String) : List WalletCoinState :=
  ((after fs).wc.items.filter fun item => item.1.1 = addr).map Prod.snd

/-- A quantity of `WalletCoinState` summed over the coins of one wallet. -/
theorem sum_wcOf {M : Type*} [AddCommMonoid M] {g : WalletCoinState → M} {h : Fill → M}
    (hstart : g {} = 0) (hstep : ∀ s f, g (s.update f) = g s + h f) (addr : String) :
    ((wcOf fs addr).map g).sum = ((group Fill.addr addr fs).map h).sum := by
  have hsum := Dict.sum_feed_empty (fun f : Fill => (f.addr, f.coin)) {} WalletCoinState.update
    hstart hstep Prod.fst addr fs
  rw [wcOf, after_wc, List.map_map]
  exact hsum

theorem mem_wallets_keys (addr : String) :
    addr ∈ (after fs).wallets.keys ↔ ∃ f ∈ fs, f.addr = addr := by
  rw [after_wallets, Dict.mem_keys_feed_empty]

theorem mem_wc_keys (addr coin : String) :
    (addr, coin) ∈ (after fs).wc.keys ↔ ∃ f ∈ fs, f.addr = addr ∧ f.coin = coin := by
  rw [after_wc, Dict.mem_keys_feed_empty]
  simp only [Prod.mk.injEq]

/-! ### Sums over the buckets -/

/-- The wallets in the flow of a bucket are wallets of its fills. -/
theorem exists_fill_of_mem_walletFlow {coin : String} {win : Window} {bucket : Bucket}
    (hbucket : (coin, win, bucket) ∈ buckets fs) {addr : String}
    (haddr : addr ∈ bucket.walletFlow.keys) : ∃ f ∈ fs, f.addr = addr := by
  have hpane := panes_ofFills (mem_buckets.mp hbucket)
  rw [hpane, ← List.mem_toFinset, Bucket.ofFills_wallets, Batch.mem_wallets] at haddr
  obtain ⟨f, hf, rfl⟩ := haddr
  exact ⟨f, (mem_of_mem_batch hf).1, rfl⟩

/-- The buckets of one window, of every coin. -/
def bucketsOf (win : Window) : List Bucket :=
  ((buckets fs).filter fun c => c.2.1 = win).map fun c => c.2.2

/-- **Every fill is counted once in every window.**  In a stream sorted by time,
    a quantity that adds up over the fills of a bucket, summed over all buckets
    of one window, is the sum over the stream. -/
theorem sum_buckets_of_sorted (hsorted : Fill.TimeSorted fs) (win : Window) {g : Bucket → ℚ}
    {h : Fill → ℚ} (hg : ∀ t l, g (Bucket.ofFills t l) = (l.map h).sum) :
    ((bucketsOf fs win).map g).sum = (fs.map h).sum := by
  have hcoins : ∀ f ∈ fs, f.coin ∈ (fs.map Fill.coin).toFinset := fun f hf =>
    List.mem_toFinset.mpr (List.mem_map_of_mem hf)
  -- the buckets of one coin together hold the fills of the coin
  have hcoin : ∀ coin,
      ((group (fun c => c.1) coin ((buckets fs).filter fun c => c.2.1 = win)).map
        fun c => g c.2.2).sum = ((group Fill.coin coin fs).map h).sum := by
    intro coin
    have hwin := win.sorted_of_timeSorted (hsorted.sublist (Grouping.group_sublist Fill.coin coin fs))
    have hpanes := buckets_of_window fs coin win
    have hfilter : group (fun c => c.1) coin ((buckets fs).filter fun c => c.2.1 = win) =
        (buckets fs).filter fun c => c.1 = coin ∧ c.2.1 = win := by
      rw [group, List.filter_filter]
      simp only [Bool.decide_and]
    have hbatches := win.tumbling.flatMap_counted_of_sorted hwin
    conv_rhs => rw [← hbatches]
    rw [hfilter, ← Function.comp_def g, ← List.map_map, hpanes, List.map_flatMap,
      List.flatMap_def, List.sum_flatten, List.map_map]
    congr 1
    apply List.map_congr_left
    intro bucket hbucket
    conv_lhs => rw [panes_ofFills hbucket]
    exact hg _ _
  have hmem : ∀ c ∈ (buckets fs).filter (fun c => c.2.1 = win),
      c.1 ∈ (fs.map Fill.coin).toFinset := by
    rintro ⟨coin, win', bucket⟩ hc
    have hpane := mem_buckets.mp (List.mem_filter.mp hc).1
    obtain ⟨f, hf⟩ := List.exists_mem_of_ne_nil _ (batch_ne_nil_of_mem_panes hpane)
    obtain ⟨hfs, rfl, _⟩ := mem_of_mem_batch hf
    exact hcoins f hfs
  have hsplit := Grouping.sum_group (fun c : String × Window × Bucket => c.1)
    (fun c => g c.2.2) _ _ hmem
  rw [bucketsOf, List.map_map, Function.comp_def, ← hsplit,
    ← Grouping.sum_group Fill.coin h _ fs hcoins]
  exact Finset.sum_congr rfl fun coin _ => hcoin coin

/-- The volumes the engine reports are those of the buckets. -/
theorem finalSnapshots_volume (win : Window) :
    (((finalSnapshots fs).filter fun c => c.2.1 = win).map fun c => c.2.2.volume) =
      (bucketsOf fs win).map Bucket.volume := by
  rw [bucketsOf, List.map_map]
  exact filter_finalSnapshots (fun _ win' => decide (win' = win)) (fun _ _ => rfl) fs

/-- **Conservation.**  In every state the engine reaches:

    * the wallets are those with a (wallet, coin) entry, and every wallet in the
      flow of an open bucket is one of them;
    * a wallet's fill count and PnL are the sums over its coins, and the fill
      counts add up to the number of fills;
    * if timestamps never decrease then, for each window, the volumes of all
      closing and open snapshots add up to the wallets' gross volumes, and the
      net flows of all buckets to the wallets' signed volumes. -/
theorem conservation :
    (∀ addr, addr ∈ (after fs).wallets.keys ↔ ∃ coin, (addr, coin) ∈ (after fs).wc.keys) ∧
    (∀ coin win bucket, (after fs).coins.openBuckets.get? (coin, win) = some bucket →
      ∀ addr ∈ bucket.walletFlow.keys, addr ∈ (after fs).wallets.keys) ∧
    (∀ addr w, (after fs).wallets.get? addr = some w →
      w.totalFills = ((wcOf fs addr).map WalletCoinState.fillCount).sum ∧
      w.cumRealizedPnl = ((wcOf fs addr).map WalletCoinState.realizedPnl).sum) ∧
    ((after fs).wallets.values.map WalletState.totalFills).sum = fs.length ∧
    (Fill.TimeSorted fs → ∀ win : Window,
      (((emitted fs ++ (after fs).openSnapshots).filter fun c => c.2.1 = win).map
          fun c => c.2.2.volume).sum =
        ((after fs).wallets.values.map WalletState.grossVolume).sum ∧
      (((buckets fs).filter fun c => c.2.1 = win).map fun c => c.2.2.walletFlow.values.sum).sum =
        ((after fs).wallets.values.map WalletState.signedVolume).sum) := by
  refine ⟨?_, ?_, ?_, ?_, ?_⟩
  · intro addr
    simp only [mem_wallets_keys, mem_wc_keys]
    constructor
    · rintro ⟨f, hf, rfl⟩
      exact ⟨f.coin, f, hf, rfl, rfl⟩
    · rintro ⟨coin, f, hf, rfl, _⟩
      exact ⟨f, hf, rfl⟩
  · intro coin win bucket hget addr haddr
    rw [after_open_get?] at hget
    rw [mem_wallets_keys]
    exact exists_fill_of_mem_walletFlow fs
      (mem_buckets.mpr (List.mem_append_right _ (Option.mem_toList.mpr hget))) haddr
  · intro addr w hw
    constructor
    · rw [sum_wcOf fs (h := fun _ => 1) rfl (fun _ _ => rfl)]
      exact wallet_measure fs rfl (fun _ _ => rfl) hw
    · rw [sum_wcOf fs (h := Fill.closedPnl) rfl (fun _ _ => rfl)]
      exact wallet_measure fs rfl (fun _ _ => rfl) hw
  · rw [sum_wallets fs (h := fun _ => 1) rfl (fun _ _ => rfl)]
    simp
  · intro hsorted win
    constructor
    · rw [sum_wallets fs (h := Fill.notional) rfl (fun _ _ => rfl)]
      exact (congrArg List.sum (finalSnapshots_volume fs win)).trans
        (sum_buckets_of_sorted fs hsorted win Bucket.ofFills_volume)
    · rw [sum_wallets fs (h := Fill.signedNotional) rfl (fun _ _ => rfl)]
      have hsum := sum_buckets_of_sorted fs hsorted win Bucket.ofFills_netFlow
      rw [bucketsOf, List.map_map] at hsum
      exact hsum

end FeatureEngine

end FeatureStore
