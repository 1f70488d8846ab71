/-
  FeatureStore/Units.lean
  =======================
  **Units and the origin of time.**

  A contract may be quoted in lots of a thousand, a price in cents, and a day may be
  replayed as if it were another.  `Units` changes the unit of prices and of sizes
  and moves the clock by whole hours, which is a multiple of every window.  Every
  operation of the engine commutes with the change (`update_convert`,
  `add_convert`, `apply_convert`), so that a run on converted fills is the converted
  run (`change_of_units`).

  One column is not converted: `large_flow` compares with a fixed number of dollars.
  It is unchanged where the notional of a fill is.
-/
import FeatureStore.EngineRun
import FeatureStore.Scorer
import Mathlib.Algebra.BigOperators.Ring.List
import Mathlib.Tactic.FieldSimp

namespace FeatureStore

/-- A price in the new unit is `price` times the price, and so on. -/
structure Units where
  price : ℚ
  size : ℚ
  hours : ℤ
  price_pos : 0 < price
  size_pos : 0 < size

namespace Units

variable (u : Units)

def notional : ℚ := u.price * u.size

theorem notional_pos : 0 < u.notional := mul_pos u.price_pos u.size_pos

/-! ### The converted state -/

def fill (f : Fill) : Fill :=
  { f with
    px := u.price * f.px
    sz := u.size * f.sz
    tsMs := f.tsMs + 3600000 * u.hours
    closedPnl := u.notional * f.closedPnl }

def position (s : WalletCoinState) : WalletCoinState :=
  { s with
    netPos := u.size * s.netPos
    avgEntry := u.price * s.avgEntry
    realizedPnl := u.notional * s.realizedPnl
    lastTs := s.lastTs + 3600000 * u.hours }

def wallet (w : WalletState) : WalletState :=
  { w with
    cumRealizedPnl := u.notional * w.cumRealizedPnl
    grossVolume := u.notional * w.grossVolume
    signedVolume := u.notional * w.signedVolume
    lastTs := w.lastTs + 3600000 * u.hours }

def bucket (b : Bucket) : Bucket where
  bucketTs := b.bucketTs + 3600 * u.hours
  volume := u.notional * b.volume
  takerBuy := u.notional * b.takerBuy
  takerSell := u.notional * b.takerSell
  walletFlow := b.walletFlow.mapVal fun v => u.notional * v

def coins (agg : CoinWindowAggregator) : CoinWindowAggregator :=
  ⟨agg.openBuckets.mapVal u.bucket⟩

def engine (e : FeatureEngine) : FeatureEngine where
  wc := e.wc.mapVal u.position
  wallets := e.wallets.mapVal u.wallet
  coins := u.coins e.coins

/-- `s'` is the snapshot `s` in the new units. -/
structure Converts (s s' : Snapshot) : Prop where
  bucketTs : s'.bucketTs = s.bucketTs + 3600 * u.hours
  volume : s'.volume = u.notional * s.volume
  takerBuy : s'.takerBuy = u.notional * s.takerBuy
  takerSell : s'.takerSell = u.notional * s.takerSell
  buySellImbalance : s'.buySellImbalance = s.buySellImbalance
  activeWallets : s'.activeWallets = s.activeWallets
  hhi : s'.hhi = s.hhi
  smartFlow : s'.smartFlow = u.notional * s.smartFlow
  largeFlow : u.notional = 1 → s'.largeFlow = s.largeFlow

/-- The same, for the same coin and window. -/
def ConvertsWindow (c c' : WindowSnapshot) : Prop :=
  c'.1 = c.1 ∧ c'.2.1 = c.2.1 ∧ u.Converts c.2.2 c'.2.2

/-! ### Fills -/

variable (f : Fill)

@[simp] theorem fill_addr : (u.fill f).addr = f.addr := rfl
@[simp] theorem fill_coin : (u.fill f).coin = f.coin := rfl
@[simp] theorem fill_px : (u.fill f).px = u.price * f.px := rfl
@[simp] theorem fill_crossed : (u.fill f).crossed = f.crossed := rfl
@[simp] theorem fill_isBuy : (u.fill f).isBuy = f.isBuy := rfl
@[simp] theorem fill_closedPnl : (u.fill f).closedPnl = u.notional * f.closedPnl := rfl
@[simp] theorem fill_tsMs : (u.fill f).tsMs = f.tsMs + 3600000 * u.hours := rfl

@[simp] theorem fill_notional : (u.fill f).notional = u.notional * f.notional := by
  simp only [Fill.notional, fill, notional]
  ring

@[simp] theorem fill_signedSz : (u.fill f).signedSz = u.size * f.signedSz := by
  obtain ⟨_, _, _, sz, side, _, _, _⟩ := f
  cases side <;> simp [Fill.signedSz, fill]

@[simp] theorem fill_signedNotional :
    (u.fill f).signedNotional = u.notional * f.signedNotional := by
  simp only [Fill.signedNotional, fill_isBuy, fill_notional]
  cases f.isBuy <;> simp

/-! ### Wallet and position states -/

theorem mul_neg_iff_of_pos {c x : ℚ} (hc : 0 < c) : c * x < 0 ↔ x < 0 := by
  rw [← not_le, mul_nonneg_iff_of_pos_left hc, not_le]

theorem mul_nonpos_iff_of_pos {c x : ℚ} (hc : 0 < c) : c * x ≤ 0 ↔ x ≤ 0 := by
  rw [← not_lt, mul_pos_iff_of_pos_left hc, not_lt]

theorem update_convert (s : WalletCoinState) :
    (u.position s).update (u.fill f) = u.position (s.update f) := by
  have hsize := u.size_pos
  have hzero : ∀ x : ℚ, u.size * x = 0 ↔ x = 0 := fun x => by simp [u.size_pos.ne']
  have hnew : u.size * s.netPos + u.size * f.signedSz = u.size * (s.netPos + f.signedSz) :=
    (mul_add _ _ _).symm
  have habs : ∀ x : ℚ, |u.size * x| = u.size * |x| := fun x => by
    rw [abs_mul, abs_of_pos hsize]
  have havg : ((u.position s).update (u.fill f)).avgEntry = u.price * (s.update f).avgEntry := by
    simp only [WalletCoinState.update, position, fill_signedSz, fill_px, hnew, habs, hzero, ne_eq,
      ge_iff_le, gt_iff_lt, mul_pos_iff_of_pos_left hsize, mul_neg_iff_of_pos hsize,
      mul_nonneg_iff_of_pos_left hsize, mul_nonpos_iff_of_pos hsize]
    split_ifs with hsame hdenom hflip
    · have hsize' : u.size ≠ 0 := hsize.ne'
      have hdenom' : |s.netPos + f.signedSz| ≠ 0 := hdenom.ne'
      field_simp
    · rfl
    · rfl
    · rfl
  calc (u.position s).update (u.fill f)
      = { netPos := u.size * s.netPos + u.size * f.signedSz
          avgEntry := ((u.position s).update (u.fill f)).avgEntry
          realizedPnl := u.notional * s.realizedPnl + u.notional * f.closedPnl
          fillCount := s.fillCount + 1
          lastTs := f.tsMs + 3600000 * u.hours } := by
        simp only [WalletCoinState.update, position, fill_signedSz, fill_closedPnl, fill_tsMs]
    _ = u.position (s.update f) := by
        rw [havg, hnew, ← mul_add]
        rfl

/-- `last_ts` is not read. -/
theorem update_fresh_position :
    ({} : WalletCoinState).update (u.fill f) = u.position (({} : WalletCoinState).update f) := by
  have hfresh : ({} : WalletCoinState).update (u.fill f) =
      (u.position {}).update (u.fill f) := by
    simp [WalletCoinState.update, position]
  rw [hfresh, update_convert]

theorem update_wallet_convert (w : WalletState) :
    (u.wallet w).update (u.fill f) = u.wallet (w.update f) := by
  simp only [WalletState.update, wallet, fill_signedNotional, fill_notional, fill_closedPnl,
    fill_crossed, fill_tsMs, mul_add]
  rfl

theorem update_fresh_wallet :
    ({} : WalletState).update (u.fill f) = u.wallet (({} : WalletState).update f) := by
  have hfresh : ({} : WalletState).update (u.fill f) = (u.wallet {}).update (u.fill f) := by
    simp [WalletState.update, wallet]
  rw [hfresh, update_wallet_convert]

@[simp] theorem wallet_churn (w : WalletState) : (u.wallet w).churn = w.churn := rfl

@[simp] theorem wallet_archetype (w : WalletState) : (u.wallet w).archetype = w.archetype := by
  have hpos := u.notional_pos
  have hratio : |u.notional * w.signedVolume| / (u.notional * w.grossVolume) =
      |w.signedVolume| / w.grossVolume := by
    rw [abs_mul, abs_of_pos hpos, mul_div_mul_left _ _ hpos.ne']
  simp only [WalletState.archetype, wallet, hratio, mul_nonpos_iff_of_pos hpos]
  rfl

@[simp] theorem walletWeight_wallet (ws : Option WalletState) :
    walletWeight (ws.map u.wallet) = walletWeight ws := by
  cases ws with
  | none => rfl
  | some w =>
    have hpnl : (u.wallet w).cumRealizedPnl > 0 ↔ w.cumRealizedPnl > 0 :=
      mul_pos_iff_of_pos_left u.notional_pos
    simp only [walletWeight, Option.map_some, wallet_archetype, hpnl]

/-! ### Buckets -/

@[simp] theorem bucket_bucketTs (b : Bucket) :
    (u.bucket b).bucketTs = b.bucketTs + 3600 * u.hours := rfl

theorem add_convert (b : Bucket) : (u.bucket b).add (u.fill f) = u.bucket (b.add f) := by
  have hflow : (u.bucket b).walletFlow.set f.addr
      (((u.bucket b).walletFlow.get? f.addr).getD 0 + u.notional * f.signedNotional) =
      (b.walletFlow.set f.addr
        ((b.walletFlow.get? f.addr).getD 0 + f.signedNotional)).mapVal
          fun v => u.notional * v := by
    rw [Dict.mapVal_set, bucket, Dict.get?_mapVal]
    cases b.walletFlow.get? f.addr with
    | none => simp only [Option.map_none, Option.getD_none, zero_add]
    | some v => simp only [Option.map_some, Option.getD_some, mul_add]
  simp only [Bucket.add, fill_signedNotional, fill_addr, hflow]
  cases hc : f.crossed <;> cases hb : f.isBuy <;> simp [bucket, hc, hb, mul_add]

theorem bucket_values (b : Bucket) :
    (u.bucket b).walletFlow.values = b.walletFlow.values.map fun v => u.notional * v := by
  simp [Dict.values, bucket, Dict.mapVal, Function.comp_def]

theorem bucket_gross (b : Bucket) : (u.bucket b).gross = u.notional * b.gross := by
  simp only [Bucket.gross, bucket_values, List.map_map, Function.comp_def, abs_mul,
    abs_of_pos u.notional_pos]
  exact List.sum_map_mul_left _ _ _

theorem snapshot_convert (b : Bucket) (wallets : Dict String WalletState) :
    u.Converts (b.snapshot (some wallets))
      ((u.bucket b).snapshot (some (wallets.mapVal u.wallet))) := by
  have hpos := u.notional_pos
  have hne : u.notional ≠ 0 := hpos.ne'
  exact
    { bucketTs := rfl
      volume := rfl
      takerBuy := rfl
      takerSell := rfl
      buySellImbalance := by
        simp only [Bucket.snapshot, bucket, ← mul_add, ← mul_sub, gt_iff_lt,
          mul_pos_iff_of_pos_left hpos, mul_div_mul_left _ _ hne]
      activeWallets := Dict.size_mapVal _ _
      hhi := by
        simp only [Bucket.snapshot, bucket_values, bucket_gross, List.map_map, Function.comp_def,
          abs_mul, abs_of_pos hpos, gt_iff_lt, mul_pos_iff_of_pos_left hpos,
          mul_div_mul_left _ _ hne]
      smartFlow := by
        have hget : ∀ addr, (wallets.mapVal u.wallet).get? addr =
            (wallets.get? addr).map u.wallet := Dict.get?_mapVal _ _
        simp only [Bucket.snapshot, hget, walletWeight_wallet]
        simp only [bucket, Dict.mapVal, List.map_map, Function.comp_def, mul_assoc]
        exact List.sum_map_mul_left _ _ _
      largeFlow := fun hone => by
        simp only [Bucket.snapshot, bucket_values, hone, one_mul, List.map_id'] }

/-! ### The aggregator and the engine -/

theorem floor_convert {size : ℤ} (hsize : 0 < size) (hdvd : size ∣ 3600) :
    ((f.tsMs + 3600000 * u.hours) / 1000) / size * size =
      f.tsMs / 1000 / size * size + 3600 * u.hours := by
  obtain ⟨k, hk⟩ := hdvd
  have hsec : (f.tsMs + 3600000 * u.hours) / 1000 = f.tsMs / 1000 + size * (k * u.hours) := by
    rw [← mul_assoc, ← hk]
    omega
  rw [hsec, Int.add_mul_ediv_left _ _ hsize.ne', add_mul, hk]
  ring

theorem updateWindow_convert (wallets : Dict String WalletState) (agg : CoinWindowAggregator)
    {closed closed' : List WindowSnapshot} (hclosed : List.Forall₂ u.ConvertsWindow closed closed')
    {entry : Window × ℤ} (hentry : entry ∈ WINDOWS) :
    ∃ closed'', CoinWindowAggregator.updateWindow (u.fill f) (some (wallets.mapVal u.wallet))
        (u.fill f).sec (u.coins agg, closed') entry =
      (u.coins (CoinWindowAggregator.updateWindow f (some wallets) f.sec (agg, closed) entry).1,
        closed'') ∧
      List.Forall₂ u.ConvertsWindow
        (CoinWindowAggregator.updateWindow f (some wallets) f.sec (agg, closed) entry).2
        closed'' := by
  obtain ⟨win, size⟩ := entry
  have hsize : 0 < size ∧ size ∣ 3600 := by
    simp only [WINDOWS, List.mem_cons, Prod.mk.injEq, List.not_mem_nil, or_false] at hentry
    rcases hentry with ⟨_, rfl⟩ | ⟨_, rfl⟩ | ⟨_, rfl⟩ <;> decide
  have hget : (u.coins agg).openBuckets.get? (f.coin, win) =
      (agg.openBuckets.get? (f.coin, win)).map u.bucket := Dict.get?_mapVal _ _ _
  have hset : ∀ b : Bucket, (u.coins agg).openBuckets.set (f.coin, win)
      ((u.bucket b).add (u.fill f)) =
      (agg.openBuckets.set (f.coin, win) (b.add f)).mapVal u.bucket := by
    intro b
    rw [add_convert, Dict.mapVal_set]
    rfl
  have hfloor : (u.fill f).sec / size * size = f.sec / size * size + 3600 * u.hours :=
    u.floor_convert f hsize.1 hsize.2
  have hfresh : u.bucket { bucketTs := f.sec / size * size } =
      { bucketTs := (u.fill f).sec / size * size } := by
    rw [hfloor]
    simp [bucket]
    rfl
  have hnew := hset { bucketTs := f.sec / size * size }
  rw [hfresh] at hnew
  simp only [CoinWindowAggregator.updateWindow, fill_coin, hget]
  cases hcur : agg.openBuckets.get? (f.coin, win) with
  | none =>
    simp only [Option.map_none, hnew]
    exact ⟨closed', rfl, hclosed⟩
  | some cur =>
    have hts : ∀ t : ℤ, t + 3600 * u.hours ≠ f.sec / size * size + 3600 * u.hours ↔
        t ≠ f.sec / size * size := fun t => by simp
    have hlt : ∀ t : ℤ, f.sec / size * size + 3600 * u.hours > t + 3600 * u.hours ↔
        f.sec / size * size > t := fun t => by simp
    simp only [Option.map_some, bucket_bucketTs, hnew, hset]
    rw [hfloor]
    simp only [hts, hlt]
    by_cases hne : cur.bucketTs ≠ f.sec / size * size
    · rw [if_pos hne, if_pos hne]
      by_cases hroll : f.sec / size * size > cur.bucketTs
      · rw [if_pos hroll, if_pos hroll]
        refine ⟨_, rfl, List.rel_append hclosed (.cons ?_ .nil)⟩
        exact ⟨rfl, rfl, u.snapshot_convert cur wallets⟩
      · rw [if_neg hroll, if_neg hroll]
        exact ⟨closed', rfl, hclosed⟩
    · rw [if_neg hne, if_neg hne]
      exact ⟨closed', rfl, hclosed⟩

theorem coins_update_convert (wallets : Dict String WalletState) (agg : CoinWindowAggregator) :
    ((u.coins agg).update (u.fill f) (some (wallets.mapVal u.wallet))).1 =
        u.coins (agg.update f (some wallets)).1 ∧
      List.Forall₂ u.ConvertsWindow (agg.update f (some wallets)).2
        ((u.coins agg).update (u.fill f) (some (wallets.mapVal u.wallet))).2 := by
  have hfold : ∀ (entries : List (Window × ℤ)), (∀ entry ∈ entries, entry ∈ WINDOWS) →
      ∀ (agg : CoinWindowAggregator) (closed closed' : List WindowSnapshot),
      List.Forall₂ u.ConvertsWindow closed closed' →
      ∃ closed'', entries.foldl (CoinWindowAggregator.updateWindow (u.fill f)
          (some (wallets.mapVal u.wallet)) (u.fill f).sec) (u.coins agg, closed') =
        (u.coins (entries.foldl
          (CoinWindowAggregator.updateWindow f (some wallets) f.sec) (agg, closed)).1, closed'') ∧
        List.Forall₂ u.ConvertsWindow (entries.foldl
          (CoinWindowAggregator.updateWindow f (some wallets) f.sec) (agg, closed)).2 closed'' := by
    intro entries
    induction entries with
    | nil =>
      intro _ agg closed closed' hclosed
      exact ⟨closed', rfl, hclosed⟩
    | cons entry entries ih =>
      intro hmem agg closed closed' hclosed
      obtain ⟨closed'', hstep, hrel⟩ :=
        u.updateWindow_convert f wallets agg hclosed (hmem entry List.mem_cons_self)
      rw [List.foldl_cons, List.foldl_cons, hstep]
      exact ih (fun e he => hmem e (List.mem_cons_of_mem _ he)) _ _ _ hrel
  obtain ⟨closed'', hupdate, hrel⟩ := hfold WINDOWS (fun _ h => h) agg [] [] .nil
  rw [CoinWindowAggregator.update_eq, CoinWindowAggregator.update_eq, hupdate]
  exact ⟨rfl, hrel⟩

theorem apply_convert (e : FeatureEngine) :
    ((u.engine e).apply (u.fill f)).1 = u.engine (e.apply f).1 ∧
      List.Forall₂ u.ConvertsWindow (e.apply f).2.closed
        ((u.engine e).apply (u.fill f)).2.closed := by
  have hwc : ((((e.wc.mapVal u.position).get? (f.addr, f.coin)).getD {}).update (u.fill f)) =
      u.position (((e.wc.get? (f.addr, f.coin)).getD {}).update f) := by
    rw [Dict.get?_mapVal]
    cases e.wc.get? (f.addr, f.coin) with
    | none => exact u.update_fresh_position f
    | some s => exact u.update_convert f s
  have hw : ((((e.wallets.mapVal u.wallet).get? f.addr).getD {}).update (u.fill f)) =
      u.wallet (((e.wallets.get? f.addr).getD {}).update f) := by
    rw [Dict.get?_mapVal]
    cases e.wallets.get? f.addr with
    | none => exact u.update_fresh_wallet f
    | some w => exact u.update_wallet_convert f w
  obtain ⟨hagg, hclosed⟩ := u.coins_update_convert f
    (e.wallets.set f.addr (((e.wallets.get? f.addr).getD {}).update f)) e.coins
  rw [Dict.mapVal_set] at hclosed
  constructor
  · simp only [FeatureEngine.apply, engine, fill_addr, fill_coin, hwc, hw, ← Dict.mapVal_set, hagg]
  · simp only [FeatureEngine.apply, engine, fill_addr, hw]
    exact hclosed

theorem after_convert (fs : List Fill) :
    FeatureEngine.after (fs.map u.fill) = u.engine (FeatureEngine.after fs) := by
  induction fs using List.reverseRecOn with
  | nil => rfl
  | append_singleton fs f ih =>
    rw [List.map_append, List.map_singleton, FeatureEngine.after_snoc, FeatureEngine.after_snoc,
      ih, (u.apply_convert f _).1]

theorem openSnapshots_convert (e : FeatureEngine) :
    List.Forall₂ u.ConvertsWindow e.openSnapshots (u.engine e).openSnapshots := by
  have hitems : (u.engine e).coins.openBuckets.items =
      e.coins.openBuckets.items.map fun item => (item.1, u.bucket item.2) := rfl
  simp only [FeatureEngine.openSnapshots, CoinWindowAggregator.openSnapshots, hitems, List.map_map]
  refine List.forall₂_map_left_iff.mpr (List.forall₂_map_right_iff.mpr (List.forall₂_same.mpr ?_))
  intro item _
  exact ⟨rfl, rfl, u.snapshot_convert item.2 e.wallets⟩

/-! ### The score -/

/-- The snapshot of another time. -/
def later (s : Snapshot) : Snapshot := { s with bucketTs := s.bucketTs + 3600 * u.hours }

theorem Converts.eq_later {s s' : Snapshot} (h : u.Converts s s') (hone : u.notional = 1) :
    s' = u.later s := by
  obtain ⟨hts, hvolume, hbuy, hsell, himb, hactive, hhhi, hsmart, hlarge⟩ := h
  rw [hone, one_mul] at hvolume hbuy hsell hsmart
  obtain ⟨_, _, _, _, _, _, _, _, _⟩ := s'
  simp only at hts hvolume hbuy hsell himb hactive hhhi hsmart hlarge
  rw [hts, hvolume, hbuy, hsell, himb, hactive, hhhi, hsmart, hlarge hone, later]

theorem openSnapshot?_convert (hone : u.notional = 1) (e : FeatureEngine) (coin : String)
    (win : Window) :
    (u.engine e).openSnapshot? coin win = (e.openSnapshot? coin win).map u.later := by
  have hget : (u.engine e).coins.openBuckets.get? (coin, win) =
      (e.coins.openBuckets.get? (coin, win)).map u.bucket := Dict.get?_mapVal _ _ _
  rw [FeatureEngine.openSnapshot?, FeatureEngine.openSnapshot?, hget, Option.map_map,
    Option.map_map]
  congr 1
  funext b
  exact Converts.eq_later u (u.snapshot_convert b e.wallets) hone

/-- The scorer does not read the time of a row. -/
theorem unusualAccumulation_later (exp : ℚ → Option ℚ) (w1m w5m w1h : Option Snapshot) :
    unusualAccumulation exp (w1m.map u.later) (w5m.map u.later) (w1h.map u.later) =
      unusualAccumulation exp w1m w5m w1h := by
  have hrate : ∀ (row : Option Snapshot) (seconds : ℚ),
      rate (row.map u.later) seconds = rate row seconds := by
    intro row seconds
    cases row <;> rfl
  have hcomponents : components exp (w1m.map u.later) (w1h.map u.later) =
      components exp w1m w1h := by
    simp only [components, volRatio, shortRate, baseRate, hrate, Option.map_map]
    rfl
  have hscore : rawScore exp (w1m.map u.later) (w1h.map u.later) = rawScore exp w1m w1h := by
    rw [rawScore, hcomponents, rawScore]
  simp only [unusualAccumulation, hscore, hcomponents]

/-- **Change of units.**  After every sequence of fills, the engine run on the fills in
    other units holds the converted entries under the same keys, with equal churn and
    archetype for every wallet; its open snapshots are the converted ones, and the next
    fill closes the same buckets, converted.  Where notionals keep their unit, as in a
    contract for a thousand coins or in a replay at another hour, every coin keeps its
    score and label. -/
theorem change_of_units (fs : List Fill) :
    let e := FeatureEngine.after fs
    let e' := FeatureEngine.after (fs.map u.fill)
    e'.wc = e.wc.mapVal u.position ∧
    e'.wallets = e.wallets.mapVal u.wallet ∧
    (∀ addr, (e'.wallets.get? addr).map WalletState.churn =
        (e.wallets.get? addr).map WalletState.churn ∧
      (e'.wallets.get? addr).map WalletState.archetype =
        (e.wallets.get? addr).map WalletState.archetype) ∧
    List.Forall₂ u.ConvertsWindow e.openSnapshots e'.openSnapshots ∧
    (∀ f, List.Forall₂ u.ConvertsWindow (e.apply f).2.closed (e'.apply (u.fill f)).2.closed) ∧
    (u.notional = 1 → ∀ exp coin,
      unusualAccumulation exp (e'.openSnapshot? coin .m1) (e'.openSnapshot? coin .m5)
          (e'.openSnapshot? coin .h1) =
        unusualAccumulation exp (e.openSnapshot? coin .m1) (e.openSnapshot? coin .m5)
          (e.openSnapshot? coin .h1)) := by
  intro e e'
  have he : e' = u.engine e := u.after_convert fs
  rw [he]
  refine ⟨rfl, rfl, ?_, u.openSnapshots_convert e, fun f => (u.apply_convert f e).2, ?_⟩
  · intro addr
    have hget : (u.engine e).wallets.get? addr = (e.wallets.get? addr).map u.wallet :=
      Dict.get?_mapVal _ _ _
    rw [hget, Option.map_map, Option.map_map]
    refine ⟨rfl, ?_⟩
    congr 1
    funext w
    exact u.wallet_archetype w
  · intro hone exp coin
    simp only [u.openSnapshot?_convert hone, unusualAccumulation_later]

/-- Contracts of a thousand coins, a day later. -/
def contracts : Units where
  price := 1000
  size := 1 / 1000
  hours := 24
  price_pos := by norm_num
  size_pos := by norm_num

theorem change_of_units_contracts :
    let fs := twoFills.map Prod.fst
    let e' := FeatureEngine.after (fs.map contracts.fill)
    e'.wc.get? ("w", "BTC") = some ⟨3 / 1000, 100000, 0, 2, 86405500⟩ ∧
    ∀ exp, unusualAccumulation exp (e'.openSnapshot? "BTC" .m1) (e'.openSnapshot? "BTC" .m5)
        (e'.openSnapshot? "BTC" .h1) =
      unusualAccumulation exp ((FeatureEngine.after fs).openSnapshot? "BTC" .m1)
        ((FeatureEngine.after fs).openSnapshot? "BTC" .m5)
        ((FeatureEngine.after fs).openSnapshot? "BTC" .h1) := by
  intro fs e'
  obtain ⟨hwc, _, _, _, _, hscore⟩ := change_of_units contracts fs
  refine ⟨?_, fun exp => hscore (by norm_num [notional, contracts]) exp "BTC"⟩
  rw [hwc, Dict.get?_mapVal]
  decide +kernel

end Units

end FeatureStore
