/-
  FeatureStore/MirrorSymmetry.lean
  ================================
  **Swapping buys and sells mirrors the whole engine.**

  `mirror` is defined on every level of the state: it negates positions, signed
  volumes and flows, exchanges the taker columns, and keeps everything else.
  Every operation of the source commutes with it (`update_mirror`,
  `snapshot_mirror`, `apply_mirror`), so a run on mirrored fills is the mirror
  of the run (`mirror_symmetry`).
-/
import FeatureStore.EngineRun
import Mathlib.Tactic.Linarith

namespace FeatureStore

/-! ### The mirror -/

def Side.mirror : Side → Side
  | .B => .A
  | .A => .B

/-- The same fill on the other side. -/
def Fill.mirror (f : Fill) : Fill := { f with side := f.side.mirror }

def WalletCoinState.mirror (s : WalletCoinState) : WalletCoinState :=
  { s with netPos := -s.netPos }

def WalletState.mirror (s : WalletState) : WalletState :=
  { s with signedVolume := -s.signedVolume }

def Bucket.mirror (b : Bucket) : Bucket :=
  { b with
    takerBuy := b.takerSell
    takerSell := b.takerBuy
    walletFlow := b.walletFlow.mapVal fun v => -v }

def Snapshot.mirror (s : Snapshot) : Snapshot :=
  { s with
    takerBuy := s.takerSell
    takerSell := s.takerBuy
    buySellImbalance := -s.buySellImbalance
    largeFlow := -s.largeFlow
    smartFlow := -s.smartFlow }

/-- The mirror of a yielded snapshot, for the same coin and window. -/
def mirrorSnapshot (c : WindowSnapshot) : WindowSnapshot := (c.1, c.2.1, c.2.2.mirror)

def CoinWindowAggregator.mirror (agg : CoinWindowAggregator) : CoinWindowAggregator :=
  ⟨agg.openBuckets.mapVal Bucket.mirror⟩

def FeatureEngine.mirror (e : FeatureEngine) : FeatureEngine where
  wc := e.wc.mapVal WalletCoinState.mirror
  wallets := e.wallets.mapVal WalletState.mirror
  coins := e.coins.mirror

/-! ### Fills -/

namespace Fill

variable (f : Fill)

@[simp] theorem mirror_addr : f.mirror.addr = f.addr := rfl
@[simp] theorem mirror_coin : f.mirror.coin = f.coin := rfl
@[simp] theorem mirror_px : f.mirror.px = f.px := rfl
@[simp] theorem mirror_tsMs : f.mirror.tsMs = f.tsMs := rfl
@[simp] theorem mirror_closedPnl : f.mirror.closedPnl = f.closedPnl := rfl
@[simp] theorem mirror_crossed : f.mirror.crossed = f.crossed := rfl
@[simp] theorem mirror_notional : f.mirror.notional = f.notional := rfl

@[simp] theorem mirror_isBuy : f.mirror.isBuy = !f.isBuy := by
  obtain ⟨_, _, _, _, side, _, _, _⟩ := f
  cases side <;> rfl

@[simp] theorem mirror_signedSz : f.mirror.signedSz = -f.signedSz := by
  obtain ⟨_, _, _, sz, side, _, _, _⟩ := f
  cases side <;> simp [signedSz, mirror, Side.mirror]

@[simp] theorem mirror_signedNotional : f.mirror.signedNotional = -f.signedNotional := by
  simp only [signedNotional, mirror_isBuy, mirror_notional]
  cases f.isBuy <;> simp

end Fill

/-! ### Wallet and position states -/

theorem WalletCoinState.update_mirror (s : WalletCoinState) (f : Fill) :
    s.mirror.update f.mirror = (s.update f).mirror := by
  have hnew : -s.netPos + -f.signedSz = -(s.netPos + f.signedSz) := (neg_add _ _).symm
  have hcond : (-s.netPos = 0 ∨ (-s.netPos ≥ 0 ∧ -f.signedSz > 0) ∨
      (-s.netPos ≤ 0 ∧ -f.signedSz < 0)) ↔
      (s.netPos = 0 ∨ (s.netPos ≥ 0 ∧ f.signedSz > 0) ∨ (s.netPos ≤ 0 ∧ f.signedSz < 0)) := by
    simp only [neg_eq_zero, ge_iff_le, gt_iff_lt, Left.nonneg_neg_iff, Left.neg_pos_iff,
      Left.neg_nonpos_iff, Left.neg_neg_iff, or_comm]
  have havg : (s.mirror.update f.mirror).avgEntry = (s.update f).avgEntry := by
    simp only [update, mirror, Fill.mirror_signedSz, Fill.mirror_px, hnew, abs_neg]
    by_cases h : s.netPos = 0 ∨ (s.netPos ≥ 0 ∧ f.signedSz > 0) ∨
        (s.netPos ≤ 0 ∧ f.signedSz < 0)
    · rw [if_pos h, if_pos (hcond.mpr h)]
    · rw [if_neg h, if_neg (fun hc => h (hcond.mp hc))]
      -- away from zero, both legs are on the other side
      have hp : s.netPos ≠ 0 := fun hp => h (Or.inl hp)
      by_cases hz : s.netPos + f.signedSz = 0
      · simp [hz]
      · have hside : ∀ x : ℚ, x ≠ 0 → decide (-x > 0) = !decide (x > 0) := by
          intro x hx
          rcases lt_or_gt_of_ne hx with h | h
          · simp [h, not_lt_of_gt h]
          · simp [h, not_lt_of_gt h]
        have hflip : (-(s.netPos + f.signedSz) ≠ 0 ∧
            decide (-(s.netPos + f.signedSz) > 0) ≠ decide (-s.netPos > 0)) ↔
            (s.netPos + f.signedSz ≠ 0 ∧
              decide (s.netPos + f.signedSz > 0) ≠ decide (s.netPos > 0)) := by
          rw [hside _ hp, hside _ hz, neg_ne_zero]
          simp
        exact if_congr hflip rfl rfl
  have hpos : (s.mirror.update f.mirror).netPos = -(s.netPos + f.signedSz) := by
    simp only [update, mirror, Fill.mirror_signedSz, hnew]
  calc s.mirror.update f.mirror
      = { s.update f with
          netPos := (s.mirror.update f.mirror).netPos
          avgEntry := (s.mirror.update f.mirror).avgEntry } := rfl
    _ = (s.update f).mirror := by
        rw [havg, hpos]
        rfl

namespace WalletState

variable (w : WalletState)

theorem update_mirror (f : Fill) : w.mirror.update f.mirror = (w.update f).mirror := by
  simp only [update, mirror, Fill.mirror_signedNotional, Fill.mirror_notional,
    Fill.mirror_closedPnl, Fill.mirror_crossed, Fill.mirror_tsMs, neg_add]
  rfl

@[simp] theorem mirror_churn : w.mirror.churn = w.churn := rfl

@[simp] theorem mirror_archetype : w.mirror.archetype = w.archetype := by
  simp only [archetype, mirror, abs_neg]
  rfl

end WalletState

@[simp] theorem walletWeight_mirror (ws : Option WalletState) :
    walletWeight (ws.map WalletState.mirror) = walletWeight ws := by
  cases ws with
  | none => rfl
  | some w => simp only [walletWeight, Option.map_some, WalletState.mirror_archetype]; rfl

/-! ### Buckets -/

namespace Bucket

variable (b : Bucket)

@[simp] theorem mirror_bucketTs : b.mirror.bucketTs = b.bucketTs := rfl

theorem add_mirror (f : Fill) : b.mirror.add f.mirror = (b.add f).mirror := by
  have hflow : (b.mirror.walletFlow.set f.addr
      ((b.mirror.walletFlow.get? f.addr).getD 0 + -f.signedNotional)) =
      (b.walletFlow.set f.addr
        ((b.walletFlow.get? f.addr).getD 0 + f.signedNotional)).mapVal fun v => -v := by
    rw [Dict.mapVal_set, mirror, Dict.get?_mapVal]
    cases b.walletFlow.get? f.addr with
    | none => simp only [Option.map_none, Option.getD_none, zero_add]
    | some v => simp only [Option.map_some, Option.getD_some, neg_add]
  simp only [add, Fill.mirror_signedNotional, Fill.mirror_addr, hflow]
  cases hc : f.crossed <;> cases hb : f.isBuy <;> simp [mirror, hc, hb]

theorem mirror_values : b.mirror.walletFlow.values = b.walletFlow.values.map fun v => -v := by
  simp [Dict.values, mirror, Dict.mapVal, Function.comp_def]

theorem mirror_gross : b.mirror.gross = b.gross := by
  simp only [gross, mirror_values, List.map_map, Function.comp_def, abs_neg]

theorem sum_map_neg (l : List ℚ) : (l.map fun v => -v).sum = -l.sum := by
  induction l with
  | nil => rfl
  | cons v l ih => rw [List.map_cons, List.sum_cons, List.sum_cons, ih, neg_add]

theorem snapshot_mirror (wallets : Dict String WalletState) :
    b.mirror.snapshot (some (wallets.mapVal WalletState.mirror)) =
      (b.snapshot (some wallets)).mirror := by
  have himb : (if b.takerSell + b.takerBuy > 0 then
      (b.takerSell - b.takerBuy) / (b.takerSell + b.takerBuy) else 0) =
      -(if b.takerBuy + b.takerSell > 0 then
        (b.takerBuy - b.takerSell) / (b.takerBuy + b.takerSell) else 0) := by
    rw [add_comm b.takerSell]
    by_cases h : b.takerBuy + b.takerSell > 0
    · rw [if_pos h, if_pos h, ← neg_div, neg_sub]
    · rw [if_neg h, if_neg h, neg_zero]
  have hhhi : (b.mirror.walletFlow.values.map fun v => (|v| / b.gross) ^ 2) =
      b.walletFlow.values.map fun v => (|v| / b.gross) ^ 2 := by
    simp only [mirror_values, List.map_map, Function.comp_def, abs_neg]
  have hlarge : (b.mirror.walletFlow.values.filter fun v => |v| ≥ LARGE_NOTIONAL).sum =
      -(b.walletFlow.values.filter fun v => |v| ≥ LARGE_NOTIONAL).sum := by
    rw [mirror_values, List.filter_map, ← sum_map_neg]
    simp only [Function.comp_def, abs_neg]
  have hsmart : (b.mirror.walletFlow.items.map fun item =>
      item.2 * walletWeight ((wallets.mapVal WalletState.mirror).get? item.1)).sum =
      -(b.walletFlow.items.map fun item => item.2 * walletWeight (wallets.get? item.1)).sum := by
    rw [← sum_map_neg]
    simp only [mirror, Dict.mapVal, List.map_map, Function.comp_def]
    congr 2
    funext item
    have hget := Dict.get?_mapVal WalletState.mirror wallets item.1
    simp only [Dict.mapVal] at hget
    rw [hget, walletWeight_mirror, neg_mul]
  simp only [snapshot, mirror_gross, hhhi, hlarge, hsmart]
  rw [Snapshot.mirror, Snapshot.mk.injEq]
  exact ⟨rfl, rfl, rfl, rfl, himb, Dict.size_mapVal _ _, rfl, rfl, rfl⟩

end Bucket

/-! ### The aggregator and the engine -/

namespace CoinWindowAggregator

theorem updateWindow_mirror (f : Fill) (wallets : Dict String WalletState) (sec : ℤ)
    (agg : CoinWindowAggregator) (closed : List WindowSnapshot) (entry : Window × ℤ) :
    updateWindow f.mirror (some (wallets.mapVal WalletState.mirror)) sec
        (agg.mirror, closed.map mirrorSnapshot) entry =
      ((updateWindow f (some wallets) sec (agg, closed) entry).1.mirror,
        (updateWindow f (some wallets) sec (agg, closed) entry).2.map mirrorSnapshot) := by
  obtain ⟨win, size⟩ := entry
  have hget : agg.mirror.openBuckets.get? (f.coin, win) =
      (agg.openBuckets.get? (f.coin, win)).map Bucket.mirror :=
    Dict.get?_mapVal _ _ _
  have hset : ∀ b : Bucket, agg.mirror.openBuckets.set (f.coin, win) (b.mirror.add f.mirror) =
      (agg.openBuckets.set (f.coin, win) (b.add f)).mapVal Bucket.mirror := by
    intro b
    rw [Bucket.add_mirror, Dict.mapVal_set]
    rfl
  have hfresh : Bucket.mirror { bucketTs := sec / size * size } =
      { bucketTs := sec / size * size } := rfl
  have hnew := hset { bucketTs := sec / size * size }
  rw [hfresh] at hnew
  simp only [updateWindow, Fill.mirror_coin, hget]
  cases hcur : agg.openBuckets.get? (f.coin, win) with
  | none =>
    simp only [Option.map_none, hnew]
    rfl
  | some cur =>
    simp only [Option.map_some, Bucket.mirror_bucketTs, hnew, hset, Bucket.snapshot_mirror]
    by_cases hne : cur.bucketTs ≠ sec / size * size
    · rw [if_pos hne, if_pos hne]
      by_cases hlt : sec / size * size > cur.bucketTs
      · rw [if_pos hlt, if_pos hlt, List.map_append]
        rfl
      · rw [if_neg hlt, if_neg hlt]
    · rw [if_neg hne, if_neg hne]
      rfl

theorem update_mirror (f : Fill) (wallets : Dict String WalletState)
    (agg : CoinWindowAggregator) :
    agg.mirror.update f.mirror (some (wallets.mapVal WalletState.mirror)) =
      ((agg.update f (some wallets)).1.mirror,
        (agg.update f (some wallets)).2.map mirrorSnapshot) := by
  have hfold : ∀ (entries : List (Window × ℤ)) (agg : CoinWindowAggregator)
      (closed : List WindowSnapshot),
      entries.foldl (updateWindow f.mirror (some (wallets.mapVal WalletState.mirror)) f.sec)
          (agg.mirror, closed.map mirrorSnapshot) =
        ((entries.foldl (updateWindow f (some wallets) f.sec) (agg, closed)).1.mirror,
          (entries.foldl (updateWindow f (some wallets) f.sec) (agg, closed)).2.map
            mirrorSnapshot) := by
    intro entries
    induction entries with
    | nil => intro agg closed; rfl
    | cons entry entries ih =>
      intro agg closed
      rw [List.foldl_cons, updateWindow_mirror, ih]
      rfl
  rw [update_eq, update_eq]
  exact hfold WINDOWS agg []

theorem openSnapshots_mirror (wallets : Dict String WalletState) (agg : CoinWindowAggregator) :
    agg.mirror.openSnapshots (some (wallets.mapVal WalletState.mirror)) =
      (agg.openSnapshots (some wallets)).map mirrorSnapshot := by
  simp only [openSnapshots, mirror, Dict.mapVal, List.map_map]
  apply List.map_congr_left
  intro item _
  have h := Bucket.snapshot_mirror item.2 wallets
  simp only [Dict.mapVal] at h
  simp only [Function.comp_def, h, mirrorSnapshot]

end CoinWindowAggregator

namespace FeatureEngine

theorem apply_mirror (e : FeatureEngine) (f : Fill) :
    (e.mirror.apply f.mirror).1 = (e.apply f).1.mirror ∧
    (e.mirror.apply f.mirror).2.closed = (e.apply f).2.closed.map mirrorSnapshot := by
  have hwc : ((e.wc.mapVal WalletCoinState.mirror).get? (f.addr, f.coin)).getD {} =
      ((e.wc.get? (f.addr, f.coin)).getD {}).mirror := by
    rw [Dict.get?_mapVal]
    cases e.wc.get? (f.addr, f.coin) <;> rfl
  have hw : ((e.wallets.mapVal WalletState.mirror).get? f.addr).getD {} =
      ((e.wallets.get? f.addr).getD {}).mirror := by
    rw [Dict.get?_mapVal]
    cases e.wallets.get? f.addr <;> rfl
  have hset : (e.wallets.mapVal WalletState.mirror).set f.addr
      ((((e.wallets.get? f.addr).getD {}).update f).mirror) =
      (e.wallets.set f.addr (((e.wallets.get? f.addr).getD {}).update f)).mapVal
        WalletState.mirror :=
    (Dict.mapVal_set _ _ _ _).symm
  constructor
  · simp only [apply, mirror, Fill.mirror_addr, Fill.mirror_coin, hwc, hw,
      WalletCoinState.update_mirror, WalletState.update_mirror, hset,
      CoinWindowAggregator.update_mirror, ← Dict.mapVal_set]
  · simp only [apply, mirror, Fill.mirror_addr, hw, WalletState.update_mirror, hset,
      CoinWindowAggregator.update_mirror]

theorem after_mirror (fs : List Fill) : after (fs.map Fill.mirror) = (after fs).mirror := by
  induction fs using List.reverseRecOn with
  | nil => rfl
  | append_singleton fs f ih =>
    rw [List.map_append, List.map_singleton, after_snoc, after_snoc, ih, (apply_mirror _ f).1]

/-- **Buy/sell mirror symmetry.**  After every sequence of fills, the engine run
    on the mirrored fills holds the mirrored entries under the same keys, with
    equal churn and archetype for every wallet; its open snapshots are the
    mirrored ones; and the next fill closes the same buckets, mirrored. -/
theorem mirror_symmetry (fs : List Fill) :
    let e := after fs
    let e' := after (fs.map Fill.mirror)
    e'.wc = e.wc.mapVal WalletCoinState.mirror ∧
    e'.wallets = e.wallets.mapVal WalletState.mirror ∧
    (∀ addr, (e'.wallets.get? addr).map WalletState.churn =
        (e.wallets.get? addr).map WalletState.churn ∧
      (e'.wallets.get? addr).map WalletState.archetype =
        (e.wallets.get? addr).map WalletState.archetype) ∧
    e'.openSnapshots = e.openSnapshots.map mirrorSnapshot ∧
    ∀ f, (e'.apply f.mirror).2.closed = (e.apply f).2.closed.map mirrorSnapshot := by
  intro e e'
  have he : e' = e.mirror := after_mirror fs
  refine ⟨by rw [he]; rfl, by rw [he]; rfl, ?_, ?_, ?_⟩
  · intro addr
    have hget : e'.wallets.get? addr = (e.wallets.get? addr).map WalletState.mirror := by
      rw [he]
      exact Dict.get?_mapVal _ _ _
    rw [hget]
    cases e.wallets.get? addr with
    | none => exact ⟨rfl, rfl⟩
    | some w =>
      exact ⟨congrArg some (WalletState.mirror_churn w),
        congrArg some (WalletState.mirror_archetype w)⟩
  · rw [he]
    exact CoinWindowAggregator.openSnapshots_mirror _ _
  · intro f
    rw [he]
    exact (apply_mirror e f).2

end FeatureEngine

end FeatureStore
