/-
  FeatureStore/Dashboard.lean
  ===========================
  **The dashboard's ingest process** (`_ingest_proc` of
  `src/feature_store/dashboard.py`).

  The process replays the same fills through an engine of its own.  It writes
  the (wallet, coin) and window tables and never the wallet table, flushes open
  windows every 0.25 s, and reads its clock before the fill is applied.  The
  pacing of the loop issues no rows and is not part of this file; of the shared
  panel of statistics it has the list of busy coins, which the reader scores.
-/
import FeatureStore.Consumer

namespace FeatureStore

/-- The local variables of `_ingest_proc` that decide what is issued. -/
structure Ingest where
  engine : FeatureEngine := {}
  lastFlush : ℚ
  n : ℕ := 0
  issued : List Row := []

namespace Ingest

/-- `flush_open`. -/
def flushOpen (engine : FeatureEngine) : List Row := openWindowRows engine

/-- The body of the loop, for a fill and the clock reading `now`. -/
def step (self : Ingest) (input : Fill × ℚ) : Ingest :=
  let (f, now) := input
  let (engine, applied) := self.engine.apply f
  let issued := self.issued
    ++ [walletCoinRow f.addr f.coin applied.wc]
    ++ applied.closed.map coinWindowRow
  let n := self.n + 1
  if now - self.lastFlush ≥ 0.25 then
    { engine, n
      lastFlush := now
      issued := issued ++ flushOpen engine }
  else
    { engine, n
      lastFlush := self.lastFlush
      issued }

def loop (now0 : ℚ) (inputs : List (Fill × ℚ)) : Ingest :=
  inputs.foldl step { lastFlush := now0 }

/-- Everything the process issues: the loop, then the final flush. -/
def run (now0 : ℚ) (inputs : List (Fill × ℚ)) : List Row :=
  (loop now0 inputs).issued ++ flushOpen (loop now0 inputs).engine

theorem loop_snoc (now0 : ℚ) (inputs : List (Fill × ℚ)) (input : Fill × ℚ) :
    loop now0 (inputs ++ [input]) = step (loop now0 inputs) input := by
  simp [loop]

end Ingest

/-- The list `hot`: the fourteen busiest 1m buckets, by volume and then by coin. -/
def Ingest.hot (engine : FeatureEngine) : List (ℚ × String) :=
  let busy := engine.coins.openBuckets.items.filterMap fun item =>
    if item.1.2 = .m1 then some (item.2.volume, item.1.1) else none
  (busy.mergeSort fun a b => decide (b.1 < a.1 ∨ a.1 = b.1 ∧ b.2 ≤ a.2)).take 14

/-! ### The reader -/

/-- `smart_norm` of `_reader_thread`: the 5m smart flow per 5m volume, for a bar
    from -1 to 1. -/
def smartNorm (b5 : Option Snapshot) : ℚ :=
  let smart := (b5.map Snapshot.smartFlow).getD 0
  let volume := (b5.map Snapshot.volume).getD 0
  let vol5 := if volume ≠ 0 then volume else 1e-9
  max (-1) (min 1 (smart / vol5))

end FeatureStore
