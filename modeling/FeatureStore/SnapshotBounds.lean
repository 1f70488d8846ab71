/-
  FeatureStore/SnapshotBounds.lean
  ================================
  **What a snapshot can say.**

  With prices and sizes that are not negative, the columns of a snapshot stay
  inside fixed bounds.  Each wallet's net flow is at most what it has traded, so
  that the gross flow is at most the volume (`Batch.gross_le_volume`).  Over the
  flows, `hhi` is the index of `Concentration`, and `large_flow` and
  `smart_flow` are net amounts with weights of at most one.
-/
import FeatureStore.Concentration
import FeatureStore.Dashboard
import FeatureStore.WindowNesting

namespace FeatureStore

open Grouping (group)

/-- The fill is one of an exchange: neither price nor size is negative. -/
def Fill.Nonneg (f : Fill) : Prop := 0 ≤ f.px ∧ 0 ≤ f.sz

instance (f : Fill) : Decidable f.Nonneg := inferInstanceAs (Decidable (_ ∧ _))

theorem Fill.Nonneg.notional {f : Fill} (h : f.Nonneg) : 0 ≤ f.notional := mul_nonneg h.1 h.2

theorem Fill.abs_signedNotional {f : Fill} (h : 0 ≤ f.notional) :
    |f.signedNotional| = f.notional := by
  unfold signedNotional
  split
  · exact abs_of_nonneg h
  · rw [abs_neg, abs_of_nonneg h]

/-! ### The weight of a wallet -/

theorem abs_walletWeight_le (ws : Option WalletState) : |walletWeight ws| ≤ 1 := by
  cases ws with
  | none => norm_num [walletWeight]
  | some ws =>
    simp only [walletWeight, abs_mul]
    refine mul_le_one₀ ?_ (abs_nonneg _) ?_
    · cases ws.archetype <;> norm_num
    · split <;> norm_num

/-- A market maker carries no weight. -/
theorem walletWeight_of_marketMaker {ws : Option WalletState}
    (h : ws.map WalletState.archetype = some .marketMaker) : walletWeight ws = 0 := by
  obtain ⟨w, rfl, hw⟩ := Option.map_eq_some_iff.mp h
  simp [walletWeight, hw]

/-! ### Batches of nonnegative fills -/

namespace Batch

variable {l : List Fill}

theorem gross_eq (l : List Fill) : gross l = Concentration.gross (wallets l) (flow l) := rfl

theorem hhi_of_pos (h : 0 < gross l) : hhi l = Concentration.index (wallets l) (flow l) := if_pos h

theorem hhi_of_zero (h : gross l = 0) : hhi l = 0 := if_neg (by rw [h]; exact lt_irrefl 0)

/-- `large_flow` weighs a wallet by one or not at all. -/
theorem largeFlow_eq (l : List Fill) :
    largeFlow l = ∑ a ∈ wallets l, flow l a * if LARGE_NOTIONAL ≤ |flow l a| then 1 else 0 := by
  simp only [largeFlow, Finset.sum_filter, mul_ite, mul_one, mul_zero]

theorem takerBuy_nonneg (hpos : ∀ f ∈ l, 0 ≤ f.notional) : 0 ≤ takerBuy l :=
  volume_nonneg fun f hf => hpos f (List.mem_of_mem_filter hf)

theorem takerSell_nonneg (hpos : ∀ f ∈ l, 0 ≤ f.notional) : 0 ≤ takerSell l :=
  volume_nonneg fun f hf => hpos f (List.mem_of_mem_filter hf)

/-- Taker volume is part of the volume. -/
theorem taker_le_volume (hpos : ∀ f ∈ l, 0 ≤ f.notional) :
    takerBuy l + takerSell l ≤ volume l := by
  induction l with
  | nil => exact le_of_eq (zero_add 0)
  | cons f l ih =>
    have hf : 0 ≤ f.notional := hpos f List.mem_cons_self
    have hl := ih fun g hg => hpos g (List.mem_cons_of_mem _ hg)
    simp only [takerBuy, takerSell, volume] at hl ⊢
    cases hcrossed : f.crossed <;> cases hbuy : f.isBuy <;>
      simp only [List.filter_cons, hcrossed, hbuy, List.map_cons, List.sum_cons, Bool.and_true,
        Bool.and_false, Bool.not_true, Bool.not_false, Bool.false_eq_true, if_true, if_false] <;>
      linarith

theorem abs_imbalance_le (hpos : ∀ f ∈ l, 0 ≤ f.notional) : |imbalance l| ≤ 1 := by
  have hbuy := takerBuy_nonneg hpos
  have hsell := takerSell_nonneg hpos
  unfold imbalance
  split
  · rename_i htaker
    rw [abs_div, abs_of_pos htaker, div_le_one htaker, abs_le]
    constructor <;> linarith
  · norm_num

/-- A wallet nets no more than it has traded. -/
theorem abs_flow_le (hpos : ∀ f ∈ l, 0 ≤ f.notional) (addr : String) :
    |flow l addr| ≤ ((group Fill.addr addr l).map Fill.notional).sum := by
  apply Concentration.abs_sum_map_le
  intro f hf
  exact le_of_eq (Fill.abs_signedNotional (hpos f ((Grouping.mem_group _).mp hf).1))

theorem gross_le_volume (hpos : ∀ f ∈ l, 0 ≤ f.notional) : gross l ≤ volume l := by
  unfold volume
  rw [← Grouping.sum_group Fill.addr Fill.notional (wallets l) l fun f hf =>
    mem_wallets.mpr ⟨f, hf, rfl⟩]
  exact Finset.sum_le_sum fun addr _ => abs_flow_le hpos addr

theorem hhi_nonneg (l : List Fill) : 0 ≤ hhi l := by
  unfold hhi
  split
  · exact Concentration.index_nonneg
  · exact le_refl 0

theorem hhi_le_one (l : List Fill) : hhi l ≤ 1 := by
  unfold hhi
  split
  · rename_i hgross
    exact Concentration.index_le_one hgross
  · exact zero_le_one

theorem hhi_eq_zero_iff (l : List Fill) : hhi l = 0 ↔ gross l = 0 := by
  constructor
  · intro hzero
    by_contra hne
    have hgross : 0 < gross l := lt_of_le_of_ne Concentration.gross_nonneg (Ne.symm hne)
    rw [hhi_of_pos hgross] at hzero
    exact absurd hzero (ne_of_gt (Concentration.index_pos hgross))
  · exact hhi_of_zero

/-- The index is one exactly when one wallet has a net flow. -/
theorem hhi_eq_one_iff (l : List Fill) : hhi l = 1 ↔ ∃! addr, addr ∈ wallets l ∧ flow l addr ≠ 0 := by
  rcases lt_or_eq_of_le (Concentration.gross_nonneg : 0 ≤ gross l) with hgross | hgross
  · rw [hhi_of_pos hgross]
    exact Concentration.index_eq_one_iff hgross
  · rw [hhi_of_zero hgross.symm]
    constructor
    · intro h
      exact absurd h zero_ne_one
    · rintro ⟨addr, hne, _⟩
      exact absurd hgross (ne_of_lt (Concentration.gross_pos_iff.mpr ⟨addr, hne⟩))

theorem abs_largeFlow_le (l : List Fill) : |largeFlow l| ≤ gross l := by
  rw [largeFlow_eq, gross_eq]
  apply Concentration.abs_sum_mul_le
  intro addr _
  split <;> norm_num

end Batch

/-! ### Buckets of nonnegative fills -/

namespace Bucket

variable (t : ℤ) (l : List Fill)

/-- The wallets with a net flow, as the bucket and as the batch have them. -/
theorem exists_walletFlow_iff (addr : String) :
    (∃ v, (ofFills t l).walletFlow.get? addr = some v ∧ v ≠ 0) ↔
      addr ∈ Batch.wallets l ∧ Batch.flow l addr ≠ 0 := by
  rw [← ofFills_wallets t l, List.mem_toFinset, Dict.mem_keys_iff, ← ofFills_flow t l addr]
  constructor
  · rintro ⟨v, hv, hne⟩
    refine ⟨⟨v, hv⟩, ?_⟩
    rwa [hv]
  · rintro ⟨⟨v, hv⟩, hne⟩
    refine ⟨v, hv, ?_⟩
    rwa [hv] at hne

theorem snapshot_smartFlow (wallets : Dict String WalletState) :
    ((ofFills t l).snapshot (some wallets)).smartFlow =
      ∑ addr ∈ Batch.wallets l, Batch.flow l addr * walletWeight (wallets.get? addr) := by
  have hsum := (ofFills t l).walletFlow.sum_items
    (fun addr v => v * walletWeight (wallets.get? addr)) 0
  rw [ofFills_wallets] at hsum
  simp only [snapshot, hsum, ofFills_flow]

theorem abs_smartFlow_le (wallets : Option (Dict String WalletState)) :
    |((ofFills t l).snapshot wallets).smartFlow| ≤ Batch.gross l := by
  cases wallets with
  | none =>
    have hzero : ((ofFills t l).snapshot none).smartFlow = 0 := rfl
    rw [hzero, abs_zero]
    exact Concentration.gross_nonneg
  | some wallets =>
    rw [snapshot_smartFlow]
    exact Concentration.abs_sum_mul_le fun addr _ => abs_walletWeight_le _

/-- Leaving out the market makers changes nothing. -/
theorem smartFlow_filter (bucket : Bucket) (wallets : Dict String WalletState) :
    (bucket.snapshot (some wallets)).smartFlow =
      ((bucket.walletFlow.items.filter fun item =>
          (wallets.get? item.1).map WalletState.archetype ≠ some .marketMaker).map
        fun item => item.2 * walletWeight (wallets.get? item.1)).sum := by
  simp only [snapshot]
  induction bucket.walletFlow.items with
  | nil => rfl
  | cons item items ih =>
    by_cases hmaker : (wallets.get? item.1).map WalletState.archetype = some .marketMaker
    · rw [List.map_cons, List.sum_cons, ih, walletWeight_of_marketMaker hmaker, mul_zero, zero_add,
        List.filter_cons_of_neg (by simpa using hmaker)]
    · rw [List.map_cons, List.sum_cons, ih, List.filter_cons_of_pos (by simpa using hmaker),
        List.map_cons, List.sum_cons]

end Bucket

/-- A ratio inside the bar is not clamped. -/
theorem smartNorm_of_abs_le {s : Snapshot} (h : |s.smartFlow| ≤ s.volume) :
    smartNorm (some s) = s.smartFlow / (if s.volume ≠ 0 then s.volume else 1e-9) ∧
    (0 < s.volume → |s.smartFlow / s.volume| ≤ 1) := by
  have hratio : 0 < s.volume → |s.smartFlow / s.volume| ≤ 1 := by
    intro hvol
    rw [abs_div, abs_of_pos hvol, div_le_one hvol]
    exact h
  refine ⟨?_, hratio⟩
  simp only [smartNorm, Option.map_some, Option.getD_some]
  rcases lt_or_eq_of_le ((abs_nonneg _).trans h) with hvol | hvol
  · obtain ⟨hlow, hhigh⟩ := abs_le.mp (hratio hvol)
    rw [if_pos (ne_of_gt hvol), min_eq_right hhigh, max_eq_right hlow]
  · -- without volume there is no flow
    have hflow : s.smartFlow = 0 := abs_nonpos_iff.mp (h.trans (le_of_eq hvol.symm))
    rw [hflow, zero_div, min_eq_right zero_le_one, max_eq_right (by norm_num)]

namespace Bucket

/-- **Snapshot bounds.**  For a bucket that has been given any fills with
    nonnegative prices and sizes, and any wallet map:

    * taker volume is at most the volume, and the imbalance lies in `[-1, 1]`;
    * the gross flow is at most the volume, `hhi` is zero without a gross flow,
      lies between one over the active wallets and one with it, and is one
      exactly when a single wallet has a net flow;
    * large and smart flow are at most the gross flow, market makers add nothing
      to the latter, and the dashboard's bar never clamps it. -/
theorem snapshot_bounds (t : ℤ) (l : List Fill) (hl : ∀ f ∈ l, f.Nonneg)
    (wallets : Option (Dict String WalletState)) :
    let b := l.foldl Bucket.add { bucketTs := t }
    let s := b.snapshot wallets
    (0 ≤ s.takerBuy + s.takerSell ∧ s.takerBuy + s.takerSell ≤ s.volume) ∧
    (-1 ≤ s.buySellImbalance ∧ s.buySellImbalance ≤ 1) ∧
    b.gross ≤ s.volume ∧
    (0 < b.gross → 1 / (s.activeWallets : ℚ) ≤ s.hhi ∧ s.hhi ≤ 1) ∧
    (s.hhi = 1 ↔ ∃! addr, ∃ v, b.walletFlow.get? addr = some v ∧ v ≠ 0) ∧
    (s.hhi = 0 ↔ b.gross = 0) ∧
    |s.largeFlow| ≤ b.gross ∧
    |s.smartFlow| ≤ b.gross ∧
    (∀ ws, wallets = some ws → s.smartFlow =
      ((b.walletFlow.items.filter fun item =>
          (ws.get? item.1).map WalletState.archetype ≠ some .marketMaker).map
        fun item => item.2 * walletWeight (ws.get? item.1)).sum) ∧
    (0 < s.volume → -1 ≤ s.smartFlow / s.volume ∧ s.smartFlow / s.volume ≤ 1) ∧
    smartNorm (some s) = s.smartFlow / (if s.volume ≠ 0 then s.volume else 1e-9) := by
  intro b s
  have hpos : ∀ f ∈ l, 0 ≤ f.notional := fun f hf => (hl f hf).notional
  have hagg : s.Aggregates l := snapshot_ofFills t l wallets
  have hgross : b.gross = Batch.gross l := ofFills_gross t l
  have hsmart : |s.smartFlow| ≤ Batch.gross l := abs_smartFlow_le t l wallets
  have hle : Batch.gross l ≤ s.volume := hagg.volume ▸ Batch.gross_le_volume hpos
  obtain ⟨hnorm, hratio⟩ := smartNorm_of_abs_le (hsmart.trans hle)
  refine ⟨?_, ?_, ?_, ?_, ?_, ?_, ?_, ?_, ?_, ?_, hnorm⟩
  · rw [hagg.takerBuy, hagg.takerSell, hagg.volume]
    exact ⟨add_nonneg (Batch.takerBuy_nonneg hpos) (Batch.takerSell_nonneg hpos),
      Batch.taker_le_volume hpos⟩
  · rw [hagg.buySellImbalance]
    exact abs_le.mp (Batch.abs_imbalance_le hpos)
  · rw [hgross]
    exact hle
  · intro hgpos
    rw [hgross] at hgpos
    rw [hagg.hhi, hagg.activeWallets]
    refine ⟨?_, Batch.hhi_le_one l⟩
    rw [Batch.hhi_of_pos hgpos]
    exact Concentration.one_div_card_le_index hgpos
  · rw [hagg.hhi, Batch.hhi_eq_one_iff]
    exact existsUnique_congr fun addr => (exists_walletFlow_iff t l addr).symm
  · rw [hagg.hhi, hgross]
    exact Batch.hhi_eq_zero_iff l
  · rw [hagg.largeFlow, hgross]
    exact Batch.abs_largeFlow_le l
  · rw [hgross]
    exact hsmart
  · rintro ws rfl
    exact smartFlow_filter b ws
  · intro hvol
    exact abs_le.mp (hratio hvol)

/-- Two wallets, one of which buys and sells the same amount. -/
theorem snapshot_bounds_two_wallets :
    smartNorm (some ((List.foldl Bucket.add { bucketTs := 0 }
        [⟨"v", "BTC", 100, 2, .B, 4000, 0, true⟩, ⟨"w", "BTC", 100, 1, .A, 5000, 0, false⟩,
          ⟨"w", "BTC", 100, 1, .B, 6000, 0, true⟩]).snapshot none)) = 0 / 400 := by
  have h := (snapshot_bounds 0
    [⟨"v", "BTC", 100, 2, .B, 4000, 0, true⟩, ⟨"w", "BTC", 100, 1, .A, 5000, 0, false⟩,
      ⟨"w", "BTC", 100, 1, .B, 6000, 0, true⟩] (by decide +kernel) none).2.2.2.2.2.2.2.2.2.2
  rw [h]
  decide +kernel

end Bucket

end FeatureStore
