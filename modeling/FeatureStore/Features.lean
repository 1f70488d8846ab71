/-
  FeatureStore/Features.lean
  ==========================
  **Incremental feature computation** (`src/feature_store/features.py`).

  The three feature groups of the source, each a state with an `update`, and the
  engine that ties them together:

    * `WalletCoinState`      -- per (wallet, coin)
    * `WalletState`          -- per wallet
    * `CoinWindowAggregator` -- per coin, tumbling 1m/5m/1h buckets

  The source mutates its objects; here an update returns the new state.  Python
  dictionaries are `Dict`s, which iterate in insertion order as they do.
-/
import FeatureStore.Dict
import FeatureStore.Replay

namespace FeatureStore

/-! ### Windows -/

/-- The window names `'1m'`, `'5m'`, `'1h'`. -/
inductive Window where
  | m1
  | m5
  | h1
deriving DecidableEq, Repr

/-- Every window with its size in seconds. -/
def WINDOWS : List (Window × ℤ) := [(.m1, 60), (.m5, 300), (.h1, 3600)]

/-- A "large wallet" move in a bucket, USD notional. -/
def LARGE_NOTIONAL : ℚ := 100000

/-! ### 1) per (wallet, coin) -/

structure WalletCoinState where
  netPos : ℚ := 0
  avgEntry : ℚ := 0
  realizedPnl : ℚ := 0
  fillCount : ℕ := 0
  lastTs : ℤ := 0
deriving DecidableEq, Repr

def WalletCoinState.update (self : WalletCoinState) (f : Fill) : WalletCoinState :=
  let delta := f.signedSz
  let newPos := self.netPos + delta
  let sameDir := (self.netPos ≥ 0 ∧ delta > 0) ∨ (self.netPos ≤ 0 ∧ delta < 0)
  let avgEntry :=
    if self.netPos = 0 ∨ sameDir then
      let denom := |newPos|
      if denom > 0 then (|self.netPos| * self.avgEntry + |delta| * f.px) / denom
      else self.avgEntry
    else if newPos ≠ 0 ∧ decide (newPos > 0) ≠ decide (self.netPos > 0) then
      f.px -- flipped through zero: the new leg opens at this fill's price
    else self.avgEntry
  { netPos := newPos
    avgEntry := avgEntry
    realizedPnl := self.realizedPnl + f.closedPnl
    fillCount := self.fillCount + 1
    lastTs := f.tsMs }

/-! ### 3) per wallet -/

/-- The values of `archetype`. -/
inductive Archetype where
  | marketMaker
  | directional
  | mixed
deriving DecidableEq, Repr

structure WalletState where
  cumRealizedPnl : ℚ := 0
  totalFills : ℕ := 0
  grossVolume : ℚ := 0
  signedVolume : ℚ := 0
  opens : ℕ := 0
  closes : ℕ := 0
  lastTs : ℤ := 0
deriving DecidableEq, Repr

namespace WalletState

def update (self : WalletState) (f : Fill) : WalletState where
  cumRealizedPnl := self.cumRealizedPnl + f.closedPnl
  totalFills := self.totalFills + 1
  grossVolume := self.grossVolume + f.notional
  signedVolume := self.signedVolume + f.signedNotional
  opens := if f.crossed then self.opens + 1 else self.opens
  closes := if f.crossed then self.closes else self.closes + 1
  lastTs := f.tsMs

def churn (self : WalletState) : ℚ :=
  let tot := self.opens + self.closes
  if tot ≠ 0 then self.closes / tot else 0

def archetype (self : WalletState) : Archetype :=
  if self.grossVolume ≤ 0 then .mixed
  else
    let netGross := |self.signedVolume| / self.grossVolume
    let fills := self.opens + self.closes
    -- `self.opens + self.closes or 1`
    let makerShare : ℚ := self.closes / (if fills ≠ 0 then fills else 1 : ℕ)
    if netGross < 0.15 ∧ makerShare > 0.6 then .marketMaker
    else if netGross > 0.4 then .directional
    else .mixed

end WalletState

/-- Smart-money weight of a wallet that may be unknown. -/
def walletWeight (ws : Option WalletState) : ℚ :=
  match ws with
  | none => 0
  | some ws =>
      let archW : ℚ :=
        match ws.archetype with
        | .directional => 1
        | .mixed => 0.5
        | .marketMaker => 0
      let pnlW : ℚ := if ws.cumRealizedPnl > 0 then 1 else 0.25
      archW * pnlW

/-! ### 2) per-coin rolling windows (tumbling buckets) -/

/-- What `Bucket.snapshot` returns. -/
structure Snapshot where
  bucketTs : ℤ
  volume : ℚ
  takerBuy : ℚ
  takerSell : ℚ
  buySellImbalance : ℚ
  activeWallets : ℕ
  hhi : ℚ
  largeFlow : ℚ
  smartFlow : ℚ
deriving DecidableEq, Repr

structure Bucket where
  bucketTs : ℤ
  volume : ℚ := 0
  takerBuy : ℚ := 0
  takerSell : ℚ := 0
  walletFlow : Dict String ℚ := Dict.empty -- addr -> signed notional

namespace Bucket

def add (self : Bucket) (f : Fill) : Bucket :=
  let n := f.notional
  { self with
    volume := self.volume + n
    takerBuy := if f.crossed && f.isBuy then self.takerBuy + n else self.takerBuy
    takerSell := if f.crossed && !f.isBuy then self.takerSell + n else self.takerSell
    walletFlow :=
      self.walletFlow.set f.addr ((self.walletFlow.get? f.addr).getD 0 + f.signedNotional) }

/-- The gross flow of the bucket, `sum(abs(v) for v in flows.values())`. -/
def gross (self : Bucket) : ℚ := (self.walletFlow.values.map fun v => |v|).sum

def snapshot (self : Bucket) (wallets : Option (Dict String WalletState)) : Snapshot :=
  let tb := self.takerBuy
  let ts := self.takerSell
  let flows := self.walletFlow
  let gross := self.gross
  { bucketTs := self.bucketTs
    volume := self.volume
    takerBuy := tb
    takerSell := ts
    buySellImbalance := if tb + ts > 0 then (tb - ts) / (tb + ts) else 0
    activeWallets := flows.size
    hhi := if gross > 0 then (flows.values.map fun v => (|v| / gross) ^ 2).sum else 0
    largeFlow := (flows.values.filter fun v => |v| ≥ LARGE_NOTIONAL).sum
    smartFlow :=
      match wallets with
      | none => 0
      | some wallets =>
          (flows.items.map fun item => item.2 * walletWeight (wallets.get? item.1)).sum }

end Bucket

/-- `(coin, window, snapshot)`, as the aggregator yields it. -/
abbrev WindowSnapshot := String × Window × Snapshot

structure CoinWindowAggregator where
  openBuckets : Dict (String × Window) Bucket := Dict.empty -- `self.open`

namespace CoinWindowAggregator

/-- The body of the loop over `WINDOWS` in `update`; the accumulator is the
    aggregator together with the list `closed`. -/
def updateWindow (f : Fill) (wallets : Option (Dict String WalletState)) (sec : ℤ)
    (acc : CoinWindowAggregator × List WindowSnapshot) (entry : Window × ℤ) :
    CoinWindowAggregator × List WindowSnapshot :=
  let (self, closed) := acc
  let (win, size) := entry
  let bTs := sec / size * size
  let key := (f.coin, win)
  match self.openBuckets.get? key with
  | none => (⟨self.openBuckets.set key (Bucket.add { bucketTs := bTs } f)⟩, closed)
  | some cur =>
      if cur.bucketTs ≠ bTs then
        if bTs > cur.bucketTs then -- rolled forward: close the old bucket
          (⟨self.openBuckets.set key (Bucket.add { bucketTs := bTs } f)⟩,
            closed ++ [(f.coin, win, cur.snapshot wallets)])
        else (self, closed) -- late event for a past bucket
      else (⟨self.openBuckets.set key (cur.add f)⟩, closed)

def update (self : CoinWindowAggregator) (f : Fill)
    (wallets : Option (Dict String WalletState)) :
    CoinWindowAggregator × List WindowSnapshot :=
  let sec := f.tsMs / 1000
  WINDOWS.foldl (updateWindow f wallets sec) (self, [])

def openSnapshots (self : CoinWindowAggregator) (wallets : Option (Dict String WalletState)) :
    List WindowSnapshot :=
  self.openBuckets.items.map fun item => (item.1.1, item.1.2, item.2.snapshot wallets)

end CoinWindowAggregator

/-! ### The engine -/

structure FeatureEngine where
  wc : Dict (String × String) WalletCoinState := Dict.empty
  wallets : Dict String WalletState := Dict.empty
  coins : CoinWindowAggregator := {}

/-- What `FeatureEngine.apply` returns besides the engine it has changed. -/
structure Applied where
  wc : WalletCoinState
  w : WalletState
  closed : List WindowSnapshot

namespace FeatureEngine

def apply (self : FeatureEngine) (f : Fill) : FeatureEngine × Applied :=
  let wc := ((self.wc.get? (f.addr, f.coin)).getD {}).update f
  let w := ((self.wallets.get? f.addr).getD {}).update f
  let wallets := self.wallets.set f.addr w
  let (coins, closed) := self.coins.update f (some wallets)
  ({ wc := self.wc.set (f.addr, f.coin) wc, wallets, coins }, { wc, w, closed })

/-- Open window snapshots, weighted by the current wallet state. -/
def openSnapshots (self : FeatureEngine) : List WindowSnapshot :=
  self.coins.openSnapshots (some self.wallets)

end FeatureEngine

end FeatureStore
