/-
  FeatureStore/CoinSharding.lean
  ==============================
  **What sharding by coin would change.**

  Sharding by wallet keeps the state of a wallet in one place and adds up the windows
  (`WalletSharding.lean`).  Sharding by coin is the other way round.  In a stream of
  any order the positions and the buckets of a coin are in its own shard as they are in
  the single engine, and the counters of a wallet add up over the shards.  A snapshot
  differs in one column: `smart_flow` weights each flow by the whole of its wallet.
-/
import FeatureStore.WalletClass

namespace FeatureStore

open Grouping (group)

universe u

/-! ### Snapshots with other wallets -/

/-- A snapshot reads the wallets for `smart_flow` only. -/
theorem Bucket.snapshot_wallets (b : Bucket) (w w' : Option (Dict String WalletState)) :
    b.snapshot w' = { b.snapshot w with smartFlow := (b.snapshot w').smartFlow } := rfl

theorem Bucket.snapshot_congr {b : Bucket} {w w' : Dict String WalletState}
    (h : ∀ addr ∈ b.walletFlow.keys, walletWeight (w'.get? addr) = walletWeight (w.get? addr)) :
    b.snapshot (some w') = b.snapshot (some w) := by
  have hflow : (b.walletFlow.items.map fun item => item.2 * walletWeight (w'.get? item.1)) =
      b.walletFlow.items.map fun item => item.2 * walletWeight (w.get? item.1) := by
    refine List.map_congr_left fun item hitem => ?_
    rw [h item.1 (List.mem_map_of_mem hitem)]
  simp only [Bucket.snapshot, hflow]

namespace FeatureEngine

/-- The fills of the coins that are assigned to shard `i`. -/
def coinFills {ι : Type u} [DecidableEq ι] (shard : String → ι) (i : ι) (fs : List Fill) :
    List Fill :=
  fs.filter fun f => shard f.coin = i

section Shard

variable {ι : Type u} [DecidableEq ι] (shard : String → ι) (i : ι) (fs : List Fill)

theorem coinFills_eq_group : coinFills shard i fs = group (fun f => shard f.coin) i fs := rfl

theorem group_coinFills (coin : String) : group Fill.coin coin (coinFills shard i fs) =
    if shard coin = i then group Fill.coin coin fs else [] :=
  Grouping.group_group_of_factor Fill.coin (fun _ => rfl) coin i fs

theorem wc_coinFills (addr coin : String) : (after (coinFills shard i fs)).wc.get? (addr, coin) =
    if shard coin = i then (after fs).wc.get? (addr, coin) else none := by
  have hgroup : group (fun f : Fill => (f.addr, f.coin)) (addr, coin) (coinFills shard i fs) =
      if shard coin = i then group (fun f : Fill => (f.addr, f.coin)) (addr, coin) fs else [] :=
    Grouping.group_group_of_factor (q := fun key : String × String => shard key.2)
      (fun f : Fill => (f.addr, f.coin)) (fun _ => rfl) (addr, coin) i fs
  rw [after_wc_get?, after_wc_get?, hgroup]
  by_cases h : shard coin = i
  · simp only [if_pos h]
  · simp only [if_neg h, if_true]

theorem open_coinFills (coin : String) (win : Window) :
    (after (coinFills shard i fs)).coins.openBuckets.get? (coin, win) =
      if shard coin = i then (after fs).coins.openBuckets.get? (coin, win) else none := by
  rw [after_open_get?, after_open_get?, group_coinFills]
  split <;> rfl

end Shard

/-! ### The wallets -/

/-- A column of a wallet, zero where the wallet is missing. -/
def walletColumn {M : Type*} [Zero M] (column : WalletState → M) (e : FeatureEngine)
    (addr : String) : M :=
  ((e.wallets.get? addr).map column).getD 0

theorem walletColumn_after {M : Type*} [AddCommMonoid M] {column : WalletState → M}
    {share : Fill → M} (hcolumn : ∀ l, column (WalletState.ofFills l) = (l.map share).sum)
    (fs : List Fill) (addr : String) :
    walletColumn column (after fs) addr = ((group Fill.addr addr fs).map share).sum := by
  rw [walletColumn, after_wallets_get?]
  by_cases h : group Fill.addr addr fs = []
  · rw [if_pos h, h]
    rfl
  · rw [if_neg h]
    exact hcolumn _

/-- **A column that adds up over the fills adds up over the shards.** -/
theorem walletColumn_sum_shards {ι : Type u} [Fintype ι] [DecidableEq ι] (shard : String → ι)
    {M : Type*} [AddCommMonoid M] {column : WalletState → M} {share : Fill → M}
    (hcolumn : ∀ l, column (WalletState.ofFills l) = (l.map share).sum) (fs : List Fill)
    (addr : String) :
    walletColumn column (after fs) addr =
      ∑ i, walletColumn column (after (coinFills shard i fs)) addr := by
  simp only [walletColumn_after hcolumn, coinFills_eq_group,
    Grouping.group_group_comm Fill.addr fun f => shard f.coin]
  exact (Grouping.sum_group _ share Finset.univ _ fun f _ => Finset.mem_univ (shard f.coin)).symm

/-! ### The snapshots -/

/-- A snapshot of the single engine and one of the shard, of the same bucket. -/
structure SameBucket (fs : List Fill) (coin : String) (w w' : Dict String WalletState)
    (s s' : Snapshot) : Prop where
  columns : s' = { s with smartFlow := s'.smartFlow }
  smartFlow : (∀ f ∈ fs, f.coin = coin →
    walletWeight (w'.get? f.addr) = walletWeight (w.get? f.addr)) → s' = s

theorem sameBucket_of_current {fs : List Fill} {coin : String} {win : Window} {b : Bucket}
    (h : win.tumbling.current (group Fill.coin coin fs) = some b)
    (w w' : Dict String WalletState) :
    SameBucket fs coin w w' (b.snapshot (some w)) (b.snapshot (some w')) where
  columns := b.snapshot_wallets _ _
  smartFlow hweights := by
    refine Bucket.snapshot_congr fun addr haddr => ?_
    have hmem : b ∈ win.tumbling.panes (group Fill.coin coin fs) :=
      List.mem_append_right _ (Option.mem_toList.mpr h)
    rw [panes_ofFills hmem, ← List.mem_toFinset, Bucket.ofFills_wallets, Batch.mem_wallets] at haddr
    obtain ⟨f, hf, rfl⟩ := haddr
    exact hweights f (mem_of_mem_batch hf).1 (mem_of_mem_batch hf).2.1

section Shard

variable {ι : Type u} [DecidableEq ι] (shard : String → ι) (fs : List Fill)

/-- The buckets that the next fill closes are those of its shard. -/
theorem closing_coinFills (f : Fill) :
    (after (coinFills shard (shard f.coin) fs)).coins.closing f = (after fs).coins.closing f := by
  simp only [CoinWindowAggregator.closing, open_coinFills, if_true]

theorem apply_closed_eq (e : FeatureEngine) (f : Fill) :
    (e.apply f).2.closed =
      (e.coins.closing f).map (CoinWindowAggregator.render (some (e.apply f).1.wallets)) :=
  CoinWindowAggregator.update_closed e.coins f _

/-- The next fill closes the same buckets, in the same order. -/
theorem closed_coinFills (f : Fill) :
    List.Forall₂ (fun c c' : WindowSnapshot => c'.1 = c.1 ∧ c'.2.1 = c.2.1 ∧
        SameBucket fs f.coin (after (fs ++ [f])).wallets
          (after (coinFills shard (shard f.coin) fs ++ [f])).wallets c.2.2 c'.2.2)
      ((after fs).apply f).2.closed
      ((after (coinFills shard (shard f.coin) fs)).apply f).2.closed := by
  rw [apply_closed_eq, apply_closed_eq, closing_coinFills, ← after_snoc, ← after_snoc]
  refine List.forall₂_map_left_iff.mpr (List.forall₂_map_right_iff.mpr (List.forall₂_same.mpr ?_))
  rintro ⟨coin, win, b⟩ hb
  obtain ⟨rfl, hcloses⟩ := (CoinWindowAggregator.mem_closing _ f).mp hb
  rw [after_open_get?] at hcloses
  exact ⟨rfl, rfl, sameBucket_of_current (Option.filter_eq_some_iff.mp hcloses).1 _ _⟩

/-- A coin has the same open buckets in its shard. -/
theorem openSnapshot?_coinFills (coin : String) (win : Window) :
    Option.Rel (SameBucket fs coin (after fs).wallets
        (after (coinFills shard (shard coin) fs)).wallets)
      ((after fs).openSnapshot? coin win)
      ((after (coinFills shard (shard coin) fs)).openSnapshot? coin win) := by
  rw [openSnapshot?, openSnapshot?, open_coinFills, if_pos rfl]
  cases hget : (after fs).coins.openBuckets.get? (coin, win) with
  | none => exact .none
  | some b =>
    rw [after_open_get?] at hget
    exact .some (sameBucket_of_current hget _ _)

variable [Fintype ι]

/-- **Sharding by coin.**  For every assignment of coins to shards and every stream of
    fills, in any order of timestamps:

    * the position of a (wallet, coin) and the open buckets of a coin are in the coin's
      own shard, as they are in the single engine, and in no other shard;
    * the next fill closes the same buckets in its shard as in the single engine, and a
      coin has the same open snapshots; each agrees in every column but `smart_flow`,
      and in this one too if every wallet that has traded the coin weighs the same;
    * the counters of a wallet are the sums over the shards. -/
theorem coin_sharding :
    (∀ addr coin i, (after (coinFills shard i fs)).wc.get? (addr, coin) =
      if shard coin = i then (after fs).wc.get? (addr, coin) else none) ∧
    (∀ coin win i, (after (coinFills shard i fs)).coins.openBuckets.get? (coin, win) =
      if shard coin = i then (after fs).coins.openBuckets.get? (coin, win) else none) ∧
    (∀ f, List.Forall₂ (fun c c' : WindowSnapshot => c'.1 = c.1 ∧ c'.2.1 = c.2.1 ∧
        SameBucket fs f.coin (after (fs ++ [f])).wallets
          (after (coinFills shard (shard f.coin) fs ++ [f])).wallets c.2.2 c'.2.2)
      ((after fs).apply f).2.closed
      ((after (coinFills shard (shard f.coin) fs)).apply f).2.closed) ∧
    (∀ coin win, Option.Rel (SameBucket fs coin (after fs).wallets
        (after (coinFills shard (shard coin) fs)).wallets)
      ((after fs).openSnapshot? coin win)
      ((after (coinFills shard (shard coin) fs)).openSnapshot? coin win)) ∧
    ∀ addr,
      walletColumn WalletState.cumRealizedPnl (after fs) addr =
        ∑ i, walletColumn WalletState.cumRealizedPnl (after (coinFills shard i fs)) addr ∧
      walletColumn WalletState.totalFills (after fs) addr =
        ∑ i, walletColumn WalletState.totalFills (after (coinFills shard i fs)) addr ∧
      walletColumn WalletState.grossVolume (after fs) addr =
        ∑ i, walletColumn WalletState.grossVolume (after (coinFills shard i fs)) addr ∧
      walletColumn WalletState.signedVolume (after fs) addr =
        ∑ i, walletColumn WalletState.signedVolume (after (coinFills shard i fs)) addr ∧
      walletColumn WalletState.opens (after fs) addr =
        ∑ i, walletColumn WalletState.opens (after (coinFills shard i fs)) addr ∧
      walletColumn WalletState.closes (after fs) addr =
        ∑ i, walletColumn WalletState.closes (after (coinFills shard i fs)) addr := by
  have hcount : ∀ (p : Fill → Bool) (l : List Fill),
      l.countP p = (l.map fun f => if p f then 1 else 0).sum := by
    intro p l
    induction l with
    | nil => rfl
    | cons f l ih => rw [List.countP_cons, List.map_cons, List.sum_cons, ih, Nat.add_comm]
  have hfills : ∀ l : List Fill,
      (WalletState.ofFills l).totalFills = (l.map fun _ => 1).sum := by
    intro l
    rw [WalletState.ofFills_eq]
    simp
  refine ⟨fun addr coin i => wc_coinFills shard i fs addr coin,
    fun coin win i => open_coinFills shard i fs coin win, closed_coinFills shard fs,
    openSnapshot?_coinFills shard fs, fun addr => ⟨?_, ?_, ?_, ?_, ?_, ?_⟩⟩
  · exact walletColumn_sum_shards shard (fun l => by rw [WalletState.ofFills_eq]) fs addr
  · exact walletColumn_sum_shards shard hfills fs addr
  · exact walletColumn_sum_shards shard (fun l => by rw [WalletState.ofFills_eq]) fs addr
  · exact walletColumn_sum_shards shard (fun l => by rw [WalletState.ofFills_eq]) fs addr
  · exact walletColumn_sum_shards shard
      (fun l => by rw [WalletState.ofFills_eq]; exact hcount _ l) fs addr
  · exact walletColumn_sum_shards shard
      (fun l => by rw [WalletState.ofFills_eq]; exact hcount _ l) fs addr

end Shard

end FeatureEngine

end FeatureStore
