/-
  FeatureStore/WalletSharding.lean
  ================================
  **Sharding by wallet is exact.**

  One engine per shard, each on the fills of the wallets assigned to it, is
  compared with one engine on all fills.  The maps keyed by wallet separate: an
  entry is the fold of its own key's fills, and a shard has all of them or none
  (`wc_shardFills`, `wallets_shardFills`).  The windows add up: in a stream
  sorted by time the batch of a bucket is a plain `GROUP BY`, so that a shard's
  batch is the part of the whole batch that belongs to the shard's wallets
  (`batch_shardFills`), and the columns below are sums over the fills or over
  the wallets of the batch.
-/
import FeatureStore.WindowBatch

namespace FeatureStore

open Grouping (group)

universe u

/-! ### Batches in parts -/

namespace Batch

section Part

variable {ι : Type u} [DecidableEq ι] (shard : String → ι) (l : List Fill)

/-- The part of a batch that belongs to the wallets of one shard. -/
def part (i : ι) : List Fill := group (fun f => shard f.addr) i l

theorem filter_part (p : Fill → Bool) (i : ι) :
    (part shard l i).filter p = part shard (l.filter p) i := by
  simp only [part, group, List.filter_filter]
  exact List.filter_congr fun f _ => Bool.and_comm ..

theorem wallets_part (i : ι) : wallets (part shard l i) = (wallets l).filter (shard · = i) := by
  ext addr
  rw [Finset.mem_filter, mem_wallets, mem_wallets]
  constructor
  · rintro ⟨f, hf, rfl⟩
    obtain ⟨hmem, hshard⟩ := (Grouping.mem_group _).mp hf
    exact ⟨⟨f, hmem, rfl⟩, hshard⟩
  · rintro ⟨⟨f, hmem, rfl⟩, hshard⟩
    exact ⟨f, (Grouping.mem_group _).mpr ⟨hmem, hshard⟩, rfl⟩

/-- A wallet's flow is the same in its own part. -/
theorem flow_part {i : ι} {addr : String} (h : shard addr = i) :
    flow (part shard l i) addr = flow l addr := by
  rw [flow, part, Grouping.group_group_of_factor Fill.addr (fun _ => rfl), if_pos h, flow]

end Part

section Sum

variable {ι : Type u} [Fintype ι] [DecidableEq ι] (shard : String → ι) (l : List Fill)

theorem sum_part {M : Type*} [AddCommMonoid M] (h : Fill → M) :
    ∑ i, ((part shard l i).map h).sum = (l.map h).sum :=
  Grouping.sum_group _ h Finset.univ l fun f _ => Finset.mem_univ (shard f.addr)

theorem volume_part : volume l = ∑ i, volume (part shard l i) :=
  (sum_part shard l Fill.notional).symm

theorem takerBuy_part : takerBuy l = ∑ i, takerBuy (part shard l i) := by
  simp only [takerBuy, filter_part]
  exact (sum_part shard _ Fill.notional).symm

theorem takerSell_part : takerSell l = ∑ i, takerSell (part shard l i) := by
  simp only [takerSell, filter_part]
  exact (sum_part shard _ Fill.notional).symm

theorem activeWallets_part :
    (wallets l).card = ∑ i, (wallets (part shard l i)).card := by
  simp only [wallets_part]
  exact Finset.card_eq_sum_card_fiberwise fun addr _ => Finset.mem_univ (shard addr)

theorem largeFlow_part : largeFlow l = ∑ i, largeFlow (part shard l i) := by
  have hpart : ∀ i, largeFlow (part shard l i) =
      ∑ a ∈ (wallets l).filter (LARGE_NOTIONAL ≤ |flow l ·|) with shard a = i, flow l a := by
    intro i
    rw [largeFlow, wallets_part, Finset.filter_filter, Finset.filter_filter]
    refine Finset.sum_congr ?_ ?_
    · ext a
      simp only [Finset.mem_filter]
      constructor
      · rintro ⟨ha, hshard, hlarge⟩
        exact ⟨ha, flow_part shard l hshard ▸ hlarge, hshard⟩
      · rintro ⟨ha, hlarge, hshard⟩
        exact ⟨ha, hshard, (flow_part shard l hshard).symm ▸ hlarge⟩
    · intro a ha
      exact flow_part shard l (Finset.mem_filter.mp ha).2.2
  simp only [hpart]
  exact (Finset.sum_fiberwise _ shard _).symm

end Sum

end Batch

/-! ### One engine per shard -/

/-- The fills of the wallets that are assigned to shard `i`. -/
def shardFills {ι : Type u} [DecidableEq ι] (shard : String → ι) (i : ι) (fs : List Fill) :
    List Fill :=
  fs.filter fun f => shard f.addr = i

theorem shardFills_eq_group {ι : Type u} [DecidableEq ι] (shard : String → ι) (i : ι)
    (fs : List Fill) : shardFills shard i fs = group (fun f => shard f.addr) i fs := rfl

namespace FeatureEngine

/-- In a sorted stream the batch of a bucket is a `GROUP BY` of the window
    start. -/
theorem batch_of_sorted {fs : List Fill} (hsorted : Fill.TimeSorted fs) (coin : String)
    (win : Window) (t : ℤ) :
    batch fs coin win t = group (windowStart win) t (group Fill.coin coin fs) :=
  win.tumbling.counted_of_sorted
    (win.sorted_of_timeSorted (hsorted.sublist (Grouping.group_sublist _ _ _))) t

section Shard

variable {ι : Type u} [DecidableEq ι] (shard : String → ι) (i : ι) (fs : List Fill)

/-- A shard has exactly the (wallet, coin) entries of its wallets. -/
theorem wc_shardFills (addr coin : String) :
    (after (shardFills shard i fs)).wc.get? (addr, coin) =
      if shard addr = i then (after fs).wc.get? (addr, coin) else none := by
  have hgroup : group (fun f : Fill => (f.addr, f.coin)) (addr, coin) (shardFills shard i fs) =
      if shard addr = i then group (fun f => (f.addr, f.coin)) (addr, coin) fs else [] :=
    Grouping.group_group_of_factor (fun f : Fill => (f.addr, f.coin))
      (q := fun key => shard key.1) (fun _ => rfl) (addr, coin) i fs
  rw [after_wc_get?, after_wc_get?, hgroup]
  by_cases h : shard addr = i <;> simp [h]

/-- A shard has exactly the entries of its wallets. -/
theorem wallets_shardFills (addr : String) :
    (after (shardFills shard i fs)).wallets.get? addr =
      if shard addr = i then (after fs).wallets.get? addr else none := by
  have hgroup : group Fill.addr addr (shardFills shard i fs) =
      if shard addr = i then group Fill.addr addr fs else [] :=
    Grouping.group_group_of_factor Fill.addr (fun _ => rfl) addr i fs
  rw [after_wallets_get?, after_wallets_get?, hgroup]
  by_cases h : shard addr = i <;> simp [h]

/-- A shard's batch is its part of the whole batch. -/
theorem batch_shardFills {fs : List Fill} (hsorted : Fill.TimeSorted fs) (i : ι) (coin : String)
    (win : Window) (t : ℤ) :
    batch (shardFills shard i fs) coin win t = Batch.part shard (batch fs coin win t) i := by
  have hshard : Fill.TimeSorted (shardFills shard i fs) :=
    hsorted.sublist List.filter_sublist
  rw [batch_of_sorted hsorted, batch_of_sorted hshard, Batch.part, shardFills_eq_group,
    Grouping.group_group_comm _ (fun f : Fill => shard f.addr),
    Grouping.group_group_comm _ (fun f : Fill => shard f.addr)]

/-- The engine has a bucket exactly when some shard has it. -/
theorem isSome_finalSnapshot?_iff {fs : List Fill} (hsorted : Fill.TimeSorted fs) (coin : String)
    (win : Window) (t : ℤ) :
    (finalSnapshot? fs coin win t).isSome ↔
      ∃ i, (finalSnapshot? (shardFills shard i fs) coin win t).isSome := by
  simp only [isSome_finalSnapshot?, batch_shardFills shard hsorted]
  constructor
  · intro hne
    obtain ⟨f, hf⟩ := List.exists_mem_of_ne_nil _ hne
    exact ⟨shard f.addr, List.ne_nil_of_mem ((Grouping.mem_group _).mpr ⟨hf, rfl⟩)⟩
  · rintro ⟨i, hne⟩ hnil
    exact hne (by rw [hnil]; rfl)

end Shard

variable {ι : Type u} [Fintype ι] [DecidableEq ι] (shard : String → ι) {fs : List Fill}

/-- A column of the last snapshot of a bucket, 0 if there is no such bucket. -/
def finalColumn {M : Type*} [Zero M] (column : Snapshot → M) (fs : List Fill) (coin : String)
    (win : Window) (t : ℤ) : M :=
  ((finalSnapshot? fs coin win t).map column).getD 0

theorem finalColumn_eq {M : Type*} [Zero M] {column : Snapshot → M} {agg : List Fill → M}
    (hcolumn : ∀ s l, s.Aggregates l → column s = agg l) (hnil : agg [] = 0) (fs : List Fill)
    (coin : String) (win : Window) (t : ℤ) :
    finalColumn column fs coin win t = agg (batch fs coin win t) := by
  have hspec := finalSnapshot?_spec fs coin win t
  rw [finalColumn]
  cases hfinal : finalSnapshot? fs coin win t with
  | none =>
    rw [hfinal] at hspec
    simp only at hspec
    rw [hspec, hnil]
    rfl
  | some s =>
    rw [hfinal] at hspec
    exact hcolumn s _ hspec.2.1

/-- A column that is additive over the parts of a batch adds up over the shards. -/
theorem finalColumn_sum_shards {M : Type*} [AddCommMonoid M] {column : Snapshot → M}
    {agg : List Fill → M} (hcolumn : ∀ s l, s.Aggregates l → column s = agg l) (hnil : agg [] = 0)
    (hpart : ∀ l, agg l = ∑ i, agg (Batch.part shard l i)) (hsorted : Fill.TimeSorted fs)
    (coin : String) (win : Window) (t : ℤ) :
    finalColumn column fs coin win t =
      ∑ i, finalColumn column (shardFills shard i fs) coin win t := by
  rw [finalColumn_eq hcolumn hnil, hpart]
  refine Finset.sum_congr rfl ?_
  intro i _
  rw [finalColumn_eq hcolumn hnil, batch_shardFills shard hsorted]

/-- **Sharding by wallet is exact.**  For every assignment of wallets to shards
    and every stream sorted by time:

    * an entry of the keyed maps is in its own wallet's shard, as it is in the
      single engine, and in no other shard; it depends on that wallet's fills
      alone;
    * the single engine has a bucket exactly when some shard has it, and the
      columns of its last snapshot are the sums over the shards. -/
theorem sharding_exact (hsorted : Fill.TimeSorted fs) :
    (∀ addr coin i, (after (shardFills shard i fs)).wc.get? (addr, coin) =
      if shard addr = i then (after fs).wc.get? (addr, coin) else none) ∧
    (∀ addr i, (after (shardFills shard i fs)).wallets.get? addr =
      if shard addr = i then (after fs).wallets.get? addr else none) ∧
    (∀ addr, (∀ coin, (after fs).wc.get? (addr, coin) =
        (after (fs.filter fun f => f.addr = addr)).wc.get? (addr, coin)) ∧
      (after fs).wallets.get? addr =
        (after (fs.filter fun f => f.addr = addr)).wallets.get? addr) ∧
    ∀ coin win t,
      ((finalSnapshot? fs coin win t).isSome ↔
        ∃ i, (finalSnapshot? (shardFills shard i fs) coin win t).isSome) ∧
      ∀ s, finalSnapshot? fs coin win t = some s →
        s.volume = ∑ i, finalColumn Snapshot.volume (shardFills shard i fs) coin win t ∧
        s.takerBuy = ∑ i, finalColumn Snapshot.takerBuy (shardFills shard i fs) coin win t ∧
        s.takerSell = ∑ i, finalColumn Snapshot.takerSell (shardFills shard i fs) coin win t ∧
        s.activeWallets =
          ∑ i, finalColumn Snapshot.activeWallets (shardFills shard i fs) coin win t ∧
        s.largeFlow = ∑ i, finalColumn Snapshot.largeFlow (shardFills shard i fs) coin win t := by
  refine ⟨fun addr coin i => wc_shardFills shard i fs addr coin,
    fun addr i => wallets_shardFills shard i fs addr, ?_, ?_⟩
  · intro addr
    constructor
    · intro coin
      have hown := wc_shardFills id addr fs addr coin
      rw [if_pos (show id addr = addr from rfl)] at hown
      exact hown.symm
    · have hown := wallets_shardFills id addr fs addr
      rw [if_pos (show id addr = addr from rfl)] at hown
      exact hown.symm
  · intro coin win t
    refine ⟨isSome_finalSnapshot?_iff shard hsorted coin win t, ?_⟩
    intro s hs
    have hcolumn : ∀ {M : Type} [Zero M] (column : Snapshot → M),
        column s = finalColumn column fs coin win t := by
      intro M _ column
      rw [finalColumn, hs]
      rfl
    refine ⟨?_, ?_, ?_, ?_, ?_⟩
    · rw [hcolumn Snapshot.volume]
      exact finalColumn_sum_shards shard (fun _ _ h => h.volume) rfl
        (Batch.volume_part shard) hsorted coin win t
    · rw [hcolumn Snapshot.takerBuy]
      exact finalColumn_sum_shards shard (fun _ _ h => h.takerBuy) rfl
        (Batch.takerBuy_part shard) hsorted coin win t
    · rw [hcolumn Snapshot.takerSell]
      exact finalColumn_sum_shards shard (fun _ _ h => h.takerSell) rfl
        (Batch.takerSell_part shard) hsorted coin win t
    · rw [hcolumn Snapshot.activeWallets]
      exact finalColumn_sum_shards shard (fun _ _ h => h.activeWallets) rfl
        (Batch.activeWallets_part shard) hsorted coin win t
    · rw [hcolumn Snapshot.largeFlow]
      exact finalColumn_sum_shards shard (fun _ _ h => h.largeFlow) rfl
        (Batch.largeFlow_part shard) hsorted coin win t

theorem sharding_exact_two_wallets :
    (after (shardFills (· == "w") true [⟨"v", "BTC", 100, 2, .B, 4000, 0, true⟩,
        ⟨"w", "BTC", 101, 1, .A, 5000, 0, false⟩])).wallets.get? "w" =
      (after [⟨"v", "BTC", 100, 2, .B, 4000, 0, true⟩,
        ⟨"w", "BTC", 101, 1, .A, 5000, 0, false⟩]).wallets.get? "w" :=
  (sharding_exact (· == "w") (by decide)).2.1 "w" true

end FeatureEngine

end FeatureStore
