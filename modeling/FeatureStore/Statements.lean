/-
  FeatureStore/Statements.lean
  ============================
  **Rows and prepared upserts** (`src/feature_store/statements.py`, with the
  primary keys of `src/cql/schema.cql`).

  Every statement of the write path is an `INSERT` of a whole row, so a bound
  statement is the row it writes.  `Row.key` is the primary key under which the
  store keeps it.  Doubles are exact rationals.
-/
import FeatureStore.Features

namespace FeatureStore

/-- `_ts`: a `timestamp` column counts milliseconds, so that the datetime made
    from `ms` is stored as `ms` again. -/
def ts (ms : ℤ) : ℤ := ms

/-! ### Rows -/

/-- A row of `wallet_coin_features`. -/
structure WalletCoinRow where
  addr : String
  coin : String
  netPos : ℚ
  avgEntry : ℚ
  realizedPnl : ℚ
  fillCount : ℕ
  lastTs : ℤ
deriving DecidableEq, Repr

/-- A row of `coin_window_features`. -/
structure CoinWindowRow where
  coin : String
  window : Window
  bucketTs : ℤ
  volume : ℚ
  takerBuy : ℚ
  takerSell : ℚ
  buySellImbalance : ℚ
  activeWallets : ℕ
  hhi : ℚ
  largeFlow : ℚ
  smartFlow : ℚ
deriving DecidableEq, Repr

/-- A row of `wallet_features`. -/
structure WalletRow where
  addr : String
  cumRealizedPnl : ℚ
  totalFills : ℕ
  grossVolume : ℚ
  netVolume : ℚ
  churn : ℚ
  archetype : Archetype
  lastTs : ℤ
deriving DecidableEq, Repr

/-- A row of `fills_by_coin_bucket`. -/
structure FillBucketRow where
  coin : String
  timeBucket : ℤ
  ts : ℤ
  addr : String
  px : ℚ
  sz : ℚ
  side : Side
  crossed : Bool
  closedPnl : ℚ
deriving DecidableEq, Repr

/-- A row of `fills_by_coin_hot`. -/
structure FillHotRow where
  coin : String
  ts : ℤ
  addr : String
  px : ℚ
  sz : ℚ
  side : Side
  crossed : Bool
  closedPnl : ℚ
deriving DecidableEq, Repr

/-- A row of one of the tables. -/
inductive Row where
  | walletCoin (r : WalletCoinRow)
  | coinWindow (r : CoinWindowRow)
  | wallet (r : WalletRow)
  | fillBucket (r : FillBucketRow)
  | fillHot (r : FillHotRow)
deriving DecidableEq, Repr

/-- The table and the primary key of a row. -/
inductive RowKey where
  | walletCoin (addr coin : String)
  | coinWindow (coin : String) (window : Window) (bucketTs : ℤ)
  | wallet (addr : String)
  | fillBucket (coin : String) (timeBucket ts : ℤ) (addr : String)
  | fillHot (coin : String) (ts : ℤ) (addr : String)
deriving DecidableEq, Repr

/-- The key belongs to one of the two raw-fill tables. -/
def RowKey.IsRaw : RowKey → Prop
  | .fillBucket .. => True
  | .fillHot .. => True
  | _ => False

def Row.key : Row → RowKey
  | walletCoin r => .walletCoin r.addr r.coin
  | coinWindow r => .coinWindow r.coin r.window r.bucketTs
  | wallet r => .wallet r.addr
  | fillBucket r => .fillBucket r.coin r.timeBucket r.ts r.addr
  | fillHot r => .fillHot r.coin r.ts r.addr

/-! ### The rows that the ingest loops bind -/

/-- `ps["wallet_coin"]` for the entry that the fill has updated. -/
def walletCoinRow (addr coin : String) (wc : WalletCoinState) : Row :=
  .walletCoin
    { addr, coin
      netPos := wc.netPos
      avgEntry := wc.avgEntry
      realizedPnl := wc.realizedPnl
      fillCount := wc.fillCount
      lastTs := ts wc.lastTs }

/-- `ps["coin_window"]` for a snapshot. -/
def coinWindowRow (c : WindowSnapshot) : Row :=
  let (coin, win, snap) := c
  .coinWindow
    { coin
      window := win
      bucketTs := ts (snap.bucketTs * 1000)
      volume := snap.volume
      takerBuy := snap.takerBuy
      takerSell := snap.takerSell
      buySellImbalance := snap.buySellImbalance
      activeWallets := snap.activeWallets
      hhi := snap.hhi
      largeFlow := snap.largeFlow
      smartFlow := snap.smartFlow }

/-- `ps["wallet"]` for an entry of the wallet map. -/
def walletRow (addr : String) (w : WalletState) : Row :=
  .wallet
    { addr
      cumRealizedPnl := w.cumRealizedPnl
      totalFills := w.totalFills
      grossVolume := w.grossVolume
      netVolume := |w.signedVolume|
      churn := w.churn
      archetype := w.archetype
      lastTs := ts w.lastTs }

@[simp] theorem walletCoinRow_key (addr coin : String) (wc : WalletCoinState) :
    (walletCoinRow addr coin wc).key = .walletCoin addr coin := rfl

@[simp] theorem coinWindowRow_key (c : WindowSnapshot) :
    (coinWindowRow c).key = .coinWindow c.1 c.2.1 (ts (c.2.2.bucketTs * 1000)) := rfl

@[simp] theorem walletRow_key (addr : String) (w : WalletState) :
    (walletRow addr w).key = .wallet addr := rfl

end FeatureStore
