/-
  FeatureStore/Consumer.lean
  ==========================
  **The streaming consumer** (`run` of `src/feature_store/consumer.py`).

  The loop is a step function on the consumer's local variables.  `pipe.execute`
  hands a row to the pipeline; here it appends the row to `issued`.  The
  readings of `time.monotonic()` are inputs: one before the loop and one with
  each fill.  Progress reports and the final summary print counters and timings
  of the pipeline and issue nothing, so they are left out.
-/
import FeatureStore.Statements

namespace FeatureStore

/-- Partition rotation for `fills_by_coin_bucket`. -/
def COIN_BUCKET_SECONDS : ℤ := 10

/-- The values of `--raw-sink`. -/
inductive RawSink where
  | off
  | bucket
  | hot
deriving DecidableEq, Repr

/-- The arguments that the loop reads. -/
structure Args where
  rawSink : RawSink := .off
  flushSecs : ℚ := 2

/-- The optional raw-fill sinks. -/
def rawRows (rawSink : RawSink) (f : Fill) : List Row :=
  match rawSink with
  | .off => []
  | .bucket =>
      let tb := f.tsMs / 1000 / COIN_BUCKET_SECONDS * COIN_BUCKET_SECONDS
      [.fillBucket
        { coin := f.coin
          timeBucket := ts (tb * 1000)
          ts := ts f.tsMs
          addr := f.addr
          px := f.px
          sz := f.sz
          side := f.side
          crossed := f.crossed
          closedPnl := f.closedPnl }]
  | .hot =>
      [.fillHot
        { coin := f.coin
          ts := ts f.tsMs
          addr := f.addr
          px := f.px
          sz := f.sz
          side := f.side
          crossed := f.crossed
          closedPnl := f.closedPnl }]

/-- Open windows first, for freshness. -/
def openWindowRows (engine : FeatureEngine) : List Row := engine.openSnapshots.map coinWindowRow

/-- Full flush of all known wallets. -/
def walletRows (engine : FeatureEngine) : List Row :=
  engine.wallets.items.map fun item => walletRow item.1 item.2

def flushWalletsAndOpenWindows (engine : FeatureEngine) : List Row :=
  openWindowRows engine ++ walletRows engine

/-- The local variables of `run`, with the rows issued so far. -/
structure Consumer where
  engine : FeatureEngine := {}
  lastFlush : ℚ
  processed : ℕ := 0
  sampleKeys : List (String × String) := []
  issued : List Row := []

namespace Consumer

/-- The body of the loop, for a fill and the clock reading `now`. -/
def step (args : Args) (self : Consumer) (input : Fill × ℚ) : Consumer :=
  let (f, now) := input
  let (engine, applied) := self.engine.apply f
  let issued := self.issued
    ++ [walletCoinRow f.addr f.coin applied.wc] -- 1) write-through per fill
    ++ applied.closed.map coinWindowRow -- 2) closed window buckets
    ++ rawRows args.rawSink f -- 3) raw-fill sinks
  let processed := self.processed + 1
  let sampleKeys :=
    if self.sampleKeys.length < 50000 ∧ processed % 97 = 0 then
      self.sampleKeys ++ [(f.addr, f.coin)]
    else self.sampleKeys
  if now - self.lastFlush ≥ args.flushSecs then
    { engine, processed, sampleKeys
      lastFlush := now
      issued := issued ++ flushWalletsAndOpenWindows engine }
  else
    { engine, processed, sampleKeys
      lastFlush := self.lastFlush
      issued }

/-- The loop over the replayed fills. -/
def loop (args : Args) (start : ℚ) (inputs : List (Fill × ℚ)) : Consumer :=
  inputs.foldl (step args) { lastFlush := start }

/-- Everything `run` issues: the loop, then the final flush. -/
def run (args : Args) (start : ℚ) (inputs : List (Fill × ℚ)) : List Row :=
  (loop args start inputs).issued ++ flushWalletsAndOpenWindows (loop args start inputs).engine

theorem loop_snoc (args : Args) (start : ℚ) (inputs : List (Fill × ℚ)) (input : Fill × ℚ) :
    loop args start (inputs ++ [input]) = step args (loop args start inputs) input := by
  simp [loop]

end Consumer

end FeatureStore
