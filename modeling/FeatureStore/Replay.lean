/-
  FeatureStore/Replay.lean
  ========================
  **Fills** (`src/feature_store/replay.py`).

  Prices, sizes and PnL are exact rationals where the source has floats, and
  `ts_ms` is an unbounded integer, as it is there.
-/
import Mathlib.Data.Rat.Defs
import Mathlib.Algebra.Order.Ring.Rat

namespace FeatureStore

/-- `side`: `'B'` buy, `'A'` sell. -/
inductive Side where
  | B
  | A
deriving DecidableEq, Repr

/-- One decoded fill. -/
structure Fill where
  addr : String
  coin : String
  px : ℚ
  sz : ℚ
  side : Side
  tsMs : ℤ
  closedPnl : ℚ
  crossed : Bool -- `true`: this address was the taker
deriving DecidableEq, Repr

namespace Fill

def isBuy (f : Fill) : Bool := f.side = .B

def signedSz (f : Fill) : ℚ := if f.side = .B then f.sz else -f.sz

def notional (f : Fill) : ℚ := f.px * f.sz

/-- The notional with the sign of the side, as `Bucket.add` and
    `WalletState.update` write it inline. -/
def signedNotional (f : Fill) : ℚ := if f.isBuy then f.notional else -f.notional

/-- The second of the fill, `ts_ms // 1000`. -/
def sec (f : Fill) : ℤ := f.tsMs / 1000

/-- A stream in the order of timestamps. -/
def TimeSorted (fs : List Fill) : Prop := fs.Pairwise fun f g => f.tsMs ≤ g.tsMs

instance (fs : List Fill) : Decidable (TimeSorted fs) :=
  inferInstanceAs (Decidable (fs.Pairwise fun f g => f.tsMs ≤ g.tsMs))

theorem sec_le_sec {f g : Fill} (h : f.tsMs ≤ g.tsMs) : f.sec ≤ g.sec :=
  Int.ediv_le_ediv (by decide) h

end Fill

/-- Two buys of one wallet within a minute, each with the reading of the clock after it. -/
def twoFills : List (Fill × ℚ) :=
  [(⟨"w", "BTC", 100, 2, .B, 5000, 0, true⟩, 2), (⟨"w", "BTC", 100, 1, .B, 5500, 0, true⟩, 5 / 2)]

end FeatureStore
