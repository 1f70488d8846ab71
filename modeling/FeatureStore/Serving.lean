/-
  FeatureStore/Serving.lean
  =========================
  **The inference endpoints** (`src/feature_store/api.py`).

  A request point-reads the tables and answers with a score, a tag or a row, or
  with a 404.  `score_coin` reads three times, and writes may arrive between its
  reads, so that each read sees tables of its own.  The readings of
  `time.perf_counter()` are inputs.
-/
import FeatureStore.EndToEnd
import FeatureStore.FreshReads
import FeatureStore.ScoreRange
import FeatureStore.WalletClass

namespace FeatureStore

open Clustered (Table)
open FeatureEngine (after)
open Grouping (group)
open LastWriter (Store rowAt applyAll stampFrom emptyStore)

/-! ### The tables and the point reads -/

structure Tables where
  store : Store RowKey Row
  coinWindow : Table (String × Window) ℤ Row

/-- The tables after the writes have arrived at empty ones. -/
def Tables.after (ws : List (Write Row)) : Tables where
  store := applyAll Row.key emptyStore ws
  coinWindow := coinWindowTable ws

namespace Tables

/-- `READ_WALLET_COIN` -/
def readWalletCoin (t : Tables) (addr coin : String) : Option WalletCoinRow :=
  match rowAt t.store (.walletCoin addr coin) with
  | some (.walletCoin r) => some r
  | _ => none

/-- `READ_WALLET` -/
def readWallet (t : Tables) (addr : String) : Option WalletRow :=
  match rowAt t.store (.wallet addr) with
  | some (.wallet r) => some r
  | _ => none

/-- `READ_COIN_WINDOW_LATEST` -/
def readCoinWindow (t : Tables) (coin : String) (win : Window) : Option CoinWindowRow :=
  match readCoinWindowLatest t.coinWindow coin win with
  | some (.coinWindow r) => some r
  | _ => none

end Tables

/-- The columns of a window row under which the scorer looks them up. -/
def CoinWindowRow.snapshot (r : CoinWindowRow) : Snapshot where
  bucketTs := r.bucketTs / 1000
  volume := r.volume
  takerBuy := r.takerBuy
  takerSell := r.takerSell
  buySellImbalance := r.buySellImbalance
  activeWallets := r.activeWallets
  hhi := r.hhi
  largeFlow := r.largeFlow
  smartFlow := r.smartFlow

/-- What `wallet_archetype` returns. -/
inductive WalletTag where
  | unknown
  | known (archetype : Archetype) (churn cumRealizedPnl : ℚ) (totalFills : ℕ)
deriving DecidableEq, Repr

def walletArchetype (walletRow : Option WalletRow) : WalletTag :=
  match walletRow with
  | none => .unknown
  | some row =>
      .known row.archetype (Rounding.roundTo 4 row.churn) row.cumRealizedPnl row.totalFills

/-! ### The endpoints -/

structure HTTPException where
  statusCode : ℕ
  detail : String
deriving DecidableEq, Repr

/-- `db_read_ms` of an answer whose reads ran from `t0` to `t1`. -/
def dbReadMs (t0 t1 : ℚ) : ℚ := Rounding.roundTo 3 ((t1 - t0) * 1000)

/-- The answer of `score_coin`. -/
structure CoinScore where
  coin : String
  dbReadMs : ℚ
  freshBucketTs : Option ℤ
  scored : Scored
  windows : Window → Option CoinWindowRow

/-- The answer of `archetype`. -/
structure WalletAnswer where
  addr : String
  dbReadMs : ℚ
  tag : WalletTag
deriving DecidableEq, Repr

/-- The answer of `wallet_coin`. -/
structure WalletCoinAnswer where
  dbReadMs : ℚ
  row : WalletCoinRow
deriving DecidableEq, Repr

namespace Api

/-- `tables win` is what the read of `win` sees. -/
def scoreCoin (exp : ℚ → Option ℚ) (tables : Window → Tables) (coin : String) (t0 t1 : ℚ) :
    CoinScore :=
  let rows win := (tables win).readCoinWindow coin win
  { coin
    dbReadMs := dbReadMs t0 t1
    freshBucketTs := (rows .m1).map CoinWindowRow.bucketTs
    scored := unusualAccumulation exp ((rows .m1).map CoinWindowRow.snapshot)
      ((rows .m5).map CoinWindowRow.snapshot) ((rows .h1).map CoinWindowRow.snapshot)
    windows := rows }

def archetype (tables : Tables) (addr : String) (t0 t1 : ℚ) : Except HTTPException WalletAnswer :=
  match tables.readWallet addr with
  | none => .error ⟨404, "wallet not found"⟩
  | some row => .ok { addr, dbReadMs := dbReadMs t0 t1, tag := walletArchetype (some row) }

def walletCoin (tables : Tables) (addr coin : String) (t0 t1 : ℚ) :
    Except HTTPException WalletCoinAnswer :=
  match tables.readWalletCoin addr coin with
  | none => .error ⟨404, "no features for (wallet, coin)"⟩
  | some row => .ok { dbReadMs := dbReadMs t0 t1, row }

end Api

/-! ### What the reads return -/

namespace Tables

/-- The first row of a partition is what the store has at its place. -/
theorem rowAt_of_read {ws : List (Write Row)} {coin : String} {win : Window} {r : CoinWindowRow}
    (h : (after ws).readCoinWindow coin win = some r) :
    r.coin = coin ∧ r.window = win ∧
      rowAt (applyAll Row.key emptyStore ws) (.coinWindow coin win r.bucketTs) =
        some (.coinWindow r) ∧
      readCoinWindowLatest (coinWindowTable ws) coin win = some (.coinWindow r) := by
  have hread : readCoinWindowLatest (coinWindowTable ws) coin win = some (.coinWindow r) := by
    simp only [readCoinWindow, after] at h
    split at h
    · rename_i r' hr'
      rw [hr', Option.some.inj h]
    · cases h
  obtain ⟨t, w, hget, hrow, _⟩ := Clustered.Partition.first?_eq_some_iff.mp hread
  rw [coinWindowTable, Clustered.get?_applyAll coinWindowPlace_eq_some_iff] at hget
  have hkey := (LastWriter.applyAll_emptyStore Row.key hget).2
  rw [hrow] at hkey
  obtain ⟨hcoin, hwin, ht⟩ := RowKey.coinWindow.inj hkey
  subst ht
  exact ⟨hcoin, hwin, by rw [rowAt, hget, Option.map_some, hrow], hread⟩

theorem readCoinWindow_of_latest {ws : List (Write Row)} {coin : String} {win : Window}
    {row : Option CoinWindowRow}
    (h : readCoinWindowLatest (coinWindowTable ws) coin win = row.map Row.coinWindow) :
    (after ws).readCoinWindow coin win = row := by
  simp only [readCoinWindow, after, h]
  cases row <;> rfl

theorem readWalletCoin_eq_some_iff {t : Tables} {addr coin : String} {r : WalletCoinRow} :
    t.readWalletCoin addr coin = some r ↔
      rowAt t.store (.walletCoin addr coin) = some (.walletCoin r) := by
  unfold readWalletCoin
  split <;> simp_all

theorem readWallet_eq_some_iff {t : Tables} {addr : String} {r : WalletRow} :
    t.readWallet addr = some r ↔ rowAt t.store (.wallet addr) = some (.wallet r) := by
  unfold readWallet
  split <;> simp_all

end Tables

/-- The row of a snapshot, as `coin_window_features` has it. -/
def windowRowOf (coin : String) (win : Window) (s : Snapshot) : CoinWindowRow where
  coin
  window := win
  bucketTs := ts (s.bucketTs * 1000)
  volume := s.volume
  takerBuy := s.takerBuy
  takerSell := s.takerSell
  buySellImbalance := s.buySellImbalance
  activeWallets := s.activeWallets
  hhi := s.hhi
  largeFlow := s.largeFlow
  smartFlow := s.smartFlow

/-- **A row read back gives the snapshot** that it was written from. -/
theorem snapshot_windowRowOf (coin : String) (win : Window) (s : Snapshot) :
    (windowRowOf coin win s).snapshot = s := by
  have hdiv : ts (s.bucketTs * 1000) / 1000 = s.bucketTs := by
    unfold ts
    omega
  simp only [windowRowOf, CoinWindowRow.snapshot, hdiv]

theorem SnapshotAt.scorable {p : List Fill} (hp : ∀ f ∈ p, f.Nonneg) {coin : String} {win : Window}
    {s : Snapshot} (h : SnapshotAt p (coin, win, s)) : s.Scorable := by
  have hengine : FromEngine win (some s) := by
    intro s' hs'
    rw [← Option.some.inj hs']
    exact ⟨p, coin, hp, h⟩
  exact hengine.scorable

/-! ### Requests after the drain -/

namespace Api

section Settled

variable {raws : List Row} {fs : List Fill} {ws : List (Write Row)}
  (hsettled : ∀ key, rowAt (applyAll Row.key emptyStore ws) key = settled raws fs key)

include hsettled

theorem readCoinWindow_of_settled (coin : String) (win : Window) :
    (Tables.after ws).readCoinWindow coin win =
      ((after fs).openSnapshot? coin win).map (windowRowOf coin win) := by
  apply Tables.readCoinWindow_of_latest
  rw [read_of_settled raws fun t => hsettled (.coinWindow coin win t), Option.map_map]
  rfl

theorem readWallet_of_settled (addr : String) :
    (Tables.after ws).readWallet addr =
      ((after fs).wallets.get? addr).map fun w =>
        { addr
          cumRealizedPnl := w.cumRealizedPnl
          totalFills := w.totalFills
          grossVolume := w.grossVolume
          netVolume := |w.signedVolume|
          churn := w.churn
          archetype := w.archetype
          lastTs := ts w.lastTs } := by
  simp only [Tables.readWallet, Tables.after, hsettled, settled]
  cases (after fs).wallets.get? addr <;> rfl

theorem readWalletCoin_of_settled (addr coin : String) :
    (Tables.after ws).readWalletCoin addr coin =
      ((after fs).wc.get? (addr, coin)).map fun wc =>
        { addr, coin
          netPos := wc.netPos
          avgEntry := wc.avgEntry
          realizedPnl := wc.realizedPnl
          fillCount := wc.fillCount
          lastTs := ts wc.lastTs } := by
  simp only [Tables.readWalletCoin, Tables.after, hsettled, settled]
  cases (after fs).wc.get? (addr, coin) <;> rfl

end Settled

/-- **What requests are answered after the drain.**  When the final `drain` of a
    run over empty tables has returned and no request has failed, the answers
    say what the fills come to, in whatever order writes arrived and callbacks
    ran:

    * `score_coin` scores the engine's three open snapshots, and its fresh bucket
      is the open minute;
    * `archetype` knows the wallets that have fills and no others, and tags them
      by their own fills;
    * `wallet_coin` knows the pairs that have fills and no others, and returns
      the state that these lead to. -/
theorem answers_after_drain (args : Args) (start : ℚ) (inputs : List (Fill × ℚ))
    (maxInflight base : ℕ) (events : List Delivery.Event) (d : Delivery)
    (hrun : Delivery.run maxInflight 256 base (Consumer.run args start inputs) events = some d)
    (hfinished : d.Finished) (hfailed : d.sys.failed = 0) (exp : ℚ → Option ℚ) (t0 t1 : ℚ) :
    let fs := inputs.map Prod.fst
    let tables := Tables.after d.arrived
    (∀ coin, scoreCoin exp (fun _ => tables) coin t0 t1 =
      { coin
        dbReadMs := dbReadMs t0 t1
        freshBucketTs := ((after fs).openSnapshot? coin .m1).map fun s => ts (s.bucketTs * 1000)
        scored := unusualAccumulation exp ((after fs).openSnapshot? coin .m1)
          ((after fs).openSnapshot? coin .m5) ((after fs).openSnapshot? coin .h1)
        windows := fun win => ((after fs).openSnapshot? coin win).map (windowRowOf coin win) }) ∧
    (∀ addr, archetype tables addr t0 t1 =
      if group Fill.addr addr fs = [] then .error ⟨404, "wallet not found"⟩
      else
        let w := WalletState.ofFills (group Fill.addr addr fs)
        .ok { addr
              dbReadMs := dbReadMs t0 t1
              tag := .known w.archetype (Rounding.roundTo 4 w.churn) w.cumRealizedPnl
                w.totalFills }) ∧
    (∀ addr coin, walletCoin tables addr coin t0 t1 =
      if group Fill.pair (addr, coin) fs = [] then
        .error ⟨404, "no features for (wallet, coin)"⟩
      else
        let wc := (group Fill.pair (addr, coin) fs).foldl WalletCoinState.update {}
        .ok { dbReadMs := dbReadMs t0 t1
              row :=
                { addr, coin
                  netPos := wc.netPos
                  avgEntry := wc.avgEntry
                  realizedPnl := wc.realizedPnl
                  fillCount := wc.fillCount
                  lastTs := ts wc.lastTs } }) := by
  intro fs tables
  have h := Delivering.run hrun
  have hrowAt : ∀ key, rowAt (applyAll Row.key emptyStore d.arrived) key =
      settled (Consumer.raws args fs) fs key := by
    intro key
    have hnone : ∀ (k : RowKey) (w : Write Row), emptyStore k = some w → w.stamp < base := by
      simp [emptyStore]
    have hstore := h.rowAt_of_finished hfinished hnone (Delivery.not_lastFailed hfailed key)
    rw [Consumer.lastFor_run] at hstore
    exact hstore.trans Option.or_none
  refine ⟨?_, ?_, ?_⟩
  · intro coin
    have hsnapshot : ∀ win, (((after fs).openSnapshot? coin win).map (windowRowOf coin win)).map
        CoinWindowRow.snapshot = (after fs).openSnapshot? coin win := by
      intro win
      cases (after fs).openSnapshot? coin win with
      | none => rfl
      | some s => rw [Option.map_some, Option.map_some, snapshot_windowRowOf]
    simp only [scoreCoin, tables, readCoinWindow_of_settled hrowAt, hsnapshot,
      Option.map_map]
    rfl
  · intro addr
    rw [archetype, readWallet_of_settled hrowAt, FeatureEngine.after_wallets_get?]
    by_cases hnil : group Fill.addr addr fs = []
    · rw [if_pos hnil, if_pos hnil]
      rfl
    · rw [if_neg hnil, if_neg hnil]
      rfl
  · intro addr coin
    have hget := FeatureEngine.after_wc_get? fs addr coin
    change _ = if group Fill.pair (addr, coin) fs = [] then none
      else some ((group Fill.pair (addr, coin) fs).foldl WalletCoinState.update {}) at hget
    rw [walletCoin, readWalletCoin_of_settled hrowAt, hget]
    by_cases hnil : group Fill.pair (addr, coin) fs = []
    · rw [if_pos hnil, if_pos hnil]
      rfl
    · rw [if_neg hnil, if_neg hnil]
      rfl

/-- One fill, with one request after another. -/
theorem answers_after_drain_one_fill :
    ∃ d, Delivery.run 1 256 0 (Consumer.run {} 0 [(⟨"w", "BTC", 100, 2, .B, 65000, 0, true⟩, 1)])
        (Delivery.oneByOne 1 5) = some d ∧
      archetype (Tables.after d.arrived) "w" 0 0 =
        .ok { addr := "w", dbReadMs := 0, tag := .known .directional 0 0 1 } ∧
      archetype (Tables.after d.arrived) "v" 0 0 = .error ⟨404, "wallet not found"⟩ := by
  have hdone : ((Delivery.run 1 256 0
      (Consumer.run {} 0 [(⟨"w", "BTC", 100, 2, .B, 65000, 0, true⟩, 1)])
      (Delivery.oneByOne 1 5)).any fun d =>
        d.drained && d.sys.producer = .idle && d.sys.failed = 0) = true := by
    decide +kernel
  obtain ⟨d, hrun, hd⟩ := Option.any_eq_true .. |>.mp hdone
  simp only [Bool.and_eq_true, decide_eq_true_eq] at hd
  obtain ⟨⟨hdrained, hidle⟩, hfailed⟩ := hd
  have hanswers := (answers_after_drain {} 0 [(⟨"w", "BTC", 100, 2, .B, 65000, 0, true⟩, 1)] 1 0
    (Delivery.oneByOne 1 5) d hrun ⟨hdrained, hidle⟩ hfailed coarseExp 0 0).2.1
  exact ⟨d, hrun, (hanswers "w").trans (by decide +kernel),
    (hanswers "v").trans (by decide +kernel)⟩

/-! ### Requests at any time -/

section AnyTime

variable {fs : List Fill} {raws log : List Row} {ws : List (Write Row)} {i j : ℕ}

/-- What is stored under a key is a row that describes the engine, and later
    describes it no earlier. -/
theorem exists_later (hlog : Issues fs raws log) (hws : ∀ w ∈ ws, w ∈ stampFrom 0 log)
    (hij : i ≤ j) {key : RowKey} {row : Row}
    (hrow : rowAt (applyAll Row.key emptyStore (ws.take i)) key = some row) :
    row.key = key ∧ ∃ row', rowAt (applyAll Row.key emptyStore (ws.take j)) key = some row' ∧
      row'.key = key ∧ Earlier fs row row' := by
  obtain ⟨more, hmore⟩ : ws.take i <+: ws.take j := List.take_prefix_take_left hij
  rw [← hmore]
  refine hlog.exists_earlier ?_ hrow
  intro w hw
  rw [hmore] at hw
  exact hws w (List.mem_of_mem_take hw)

/-- A window row that is read is one of the engine's snapshots. -/
theorem exists_snapshotAt (hlog : Issues fs raws log) (hws : ∀ w ∈ ws, w ∈ stampFrom 0 log)
    {coin : String} {win : Window} {r : CoinWindowRow}
    (hread : (Tables.after (ws.take i)).readCoinWindow coin win = some r) :
    ∃ p s, p <+: fs ∧ SnapshotAt p (coin, win, s) ∧
      r = windowRowOf coin win s := by
  obtain ⟨_, _, hrow, _⟩ := Tables.rowAt_of_read hread
  obtain ⟨hkey, _, _, _, p, p', hp, hp', hdesc, _⟩ := exists_later hlog hws (le_refl i) hrow
  obtain ⟨s, hs, heq, _⟩ := exists_snapshot hdesc hkey
  exact ⟨p, s, hp.trans hp', hs, Row.coinWindow.inj heq⟩

/-- A later read of a window does not go back: to an earlier bucket, or to less
    volume of the same bucket. -/
theorem readCoinWindow_mono (hlog : Issues fs raws log) (hws : ∀ w ∈ ws, w ∈ stampFrom 0 log)
    (hpos : ∀ f ∈ fs, 0 ≤ f.notional) (hij : i ≤ j) {coin : String} {win : Window}
    {r : CoinWindowRow} (hread : (Tables.after (ws.take i)).readCoinWindow coin win = some r) :
    ∃ r', (Tables.after (ws.take j)).readCoinWindow coin win = some r' ∧
      (r.bucketTs < r'.bucketTs ∨ r.bucketTs = r'.bucketTs ∧ r.volume ≤ r'.volume) := by
  obtain ⟨_, _, hrow, hlatest⟩ := Tables.rowAt_of_read hread
  obtain ⟨row', t, t', hlatest', hkey, hkey', hle⟩ := read_take_mono ws hij hlatest
  obtain ⟨r', rfl⟩ : ∃ r', row' = .coinWindow r' := by
    cases row' with
    | coinWindow r' => exact ⟨r', rfl⟩
    | walletCoin r' => cases hkey'
    | wallet r' => cases hkey'
    | fillBucket r' => cases hkey'
    | fillHot r' => cases hkey'
  have hread' : (Tables.after (ws.take j)).readCoinWindow coin win = some r' :=
    Tables.readCoinWindow_of_latest hlatest'
  refine ⟨r', hread', ?_⟩
  obtain ⟨_, _, ht⟩ := RowKey.coinWindow.inj hkey
  obtain ⟨_, _, ht'⟩ := RowKey.coinWindow.inj hkey'
  rw [← ht, ← ht'] at hle
  rcases lt_or_eq_of_le hle with hlt | heq
  · exact Or.inl hlt
  · refine Or.inr ⟨heq, ?_⟩
    -- the same bucket: the cell has moved on to a longer prefix
    obtain ⟨_, _, hrow', _⟩ := Tables.rowAt_of_read hread'
    obtain ⟨hkey₁, row'', hrow'', hkey₂, p, p', hp, hp', hdesc, hdesc'⟩ :=
      exists_later hlog hws hij hrow
    rw [heq, hrow', Option.some.injEq] at hrow''
    subst hrow''
    obtain ⟨s, hs, hr, hts⟩ := exists_snapshot hdesc hkey₁
    obtain ⟨s', hs', hr', hts'⟩ := exists_snapshot hdesc' hkey₂
    have hsame : s.bucketTs = s'.bucketTs := ts_bucketTs_inj (hts.symm.trans hts')
    rw [Row.coinWindow.inj hr, Row.coinWindow.inj hr']
    exact volume_mono hp (fun f hf => hpos f (hp'.subset hf)) hs.aggregates.1 hs'.aggregates.1
      hsame

/-- A pair that was found is found again, with no fewer fills. -/
theorem walletCoin_mono (hlog : Issues fs raws log) (hws : ∀ w ∈ ws, w ∈ stampFrom 0 log)
    (hij : i ≤ j) {addr coin : String} {t0 t1 t0' t1' : ℚ} {answer : WalletCoinAnswer}
    (hanswer : walletCoin (Tables.after (ws.take i)) addr coin t0 t1 = .ok answer) :
    ∃ answer', walletCoin (Tables.after (ws.take j)) addr coin t0' t1' = .ok answer' ∧
      answer.row.fillCount ≤ answer'.row.fillCount := by
  unfold walletCoin at hanswer
  cases hread : (Tables.after (ws.take i)).readWalletCoin addr coin with
  | none =>
    rw [hread] at hanswer
    cases hanswer
  | some r =>
    rw [hread] at hanswer
    obtain ⟨hkey, row', hrow', hkey', p, p', hp, hp', hdesc, hdesc'⟩ :=
      exists_later hlog hws hij (Tables.readWalletCoin_eq_some_iff.mp hread)
    obtain ⟨wc, hwc, hr⟩ := exists_walletCoin hdesc hkey
    obtain ⟨wc', hwc', rfl⟩ := exists_walletCoin hdesc' hkey'
    have hread' :=
      (Tables.readWalletCoin_eq_some_iff (t := Tables.after (ws.take j))).mpr hrow'
    refine ⟨_, by rw [walletCoin, hread'], ?_⟩
    rw [← Except.ok.inj hanswer, Row.walletCoin.inj hr]
    exact fillCount_mono hp hwc hwc'

theorem totalFills_mono {p p' : List Fill} (hp : p <+: p') {addr : String} {w w' : WalletState}
    (h : (after p).wallets.get? addr = some w) (h' : (after p').wallets.get? addr = some w') :
    w.totalFills ≤ w'.totalFills := by
  rw [FeatureEngine.after_wallets_get?, Option.ite_none_left_eq_some] at h h'
  have hfills := congrArg WalletState.totalFills (WalletState.ofFills_eq (group Fill.addr addr p))
  have hfills' := congrArg WalletState.totalFills (WalletState.ofFills_eq (group Fill.addr addr p'))
  rw [WalletState.ofFills, Option.some.inj h.2] at hfills
  rw [WalletState.ofFills, Option.some.inj h'.2] at hfills'
  rw [hfills, hfills']
  exact (hp.sublist.filter fun f => f.addr = addr).length_le

/-- So is a wallet. -/
theorem readWallet_mono (hlog : Issues fs raws log) (hws : ∀ w ∈ ws, w ∈ stampFrom 0 log)
    (hij : i ≤ j) {addr : String} {t0 t1 : ℚ} {row : WalletRow}
    (hread : (Tables.after (ws.take i)).readWallet addr = some row) :
    ∃ row' answer', (Tables.after (ws.take j)).readWallet addr = some row' ∧
      archetype (Tables.after (ws.take j)) addr t0 t1 = .ok answer' ∧
      row.totalFills ≤ row'.totalFills := by
  obtain ⟨hkey, row', hrow', hkey', p, p', hp, hp', hdesc, hdesc'⟩ :=
    exists_later hlog hws hij (Tables.readWallet_eq_some_iff.mp hread)
  obtain ⟨w, hw, hr⟩ := hdesc
  cases row' with
  | wallet r' =>
    obtain ⟨w', hw', hr'⟩ := hdesc'
    have hread' := (Tables.readWallet_eq_some_iff (t := Tables.after (ws.take j))).mpr hrow'
    refine ⟨r', _, hread', by rw [archetype, hread'], ?_⟩
    obtain rfl : r'.addr = addr := RowKey.wallet.inj hkey'
    obtain haddr : row.addr = r'.addr := RowKey.wallet.inj hkey
    rw [haddr] at hw
    rw [Row.wallet.inj hr, Row.wallet.inj hr']
    exact totalFills_mono hp hw hw'
  | walletCoin r' => cases hkey'
  | coinWindow r' => cases hkey'
  | fillBucket r' => cases hkey'
  | fillHot r' => cases hkey'

/-- **What requests are answered at any time.**  For fills whose prices and sizes are
    not negative, and a logistic `exp`: while the writes of a run arrive at empty
    tables, in any order and with any of them missing, and whichever moments the
    reads of a request see:

    * every window of a `score_coin` answer is missing or a snapshot that the
      engine had of that (coin, window); the score and its components lie in
      `[0, 1]`;
    * of two requests, one after the other, the second does not go back in any
      window: to an earlier bucket, or to less volume of the same bucket;
    * a pair that was found is found again, with no fewer fills, and so is a
      wallet. -/
theorem answers_any_time (args : Args) (start : ℚ) (inputs : List (Fill × ℚ))
    (hfills : ∀ f ∈ inputs.map Prod.fst, f.Nonneg) (ws : List (Write Row))
    (hws : ∀ w ∈ ws, w ∈ stampFrom 0 (Consumer.run args start inputs))
    (exp : ℚ → Option ℚ) (hexp : Logistic exp) (t0 t1 t0' t1' : ℚ) :
    (∀ (i : Window → ℕ) coin,
      let answer := scoreCoin exp (fun win => Tables.after (ws.take (i win))) coin t0 t1
      (∀ win r, answer.windows win = some r → ∃ p s, p <+: inputs.map Prod.fst ∧
        SnapshotAt p (coin, win, s) ∧ r = windowRowOf coin win s) ∧
      answer.scored.score ∈ Set.Icc 0 1 ∧ answer.scored.components.InUnit) ∧
    (∀ i j : Window → ℕ, (∀ win, i win ≤ j win) → ∀ coin win r,
      (scoreCoin exp (fun win => Tables.after (ws.take (i win))) coin t0 t1).windows win = some r →
      ∃ r', (scoreCoin exp (fun win => Tables.after (ws.take (j win))) coin t0' t1').windows win =
          some r' ∧
        (r.bucketTs < r'.bucketTs ∨ r.bucketTs = r'.bucketTs ∧ r.volume ≤ r'.volume)) ∧
    (∀ i j, i ≤ j → ∀ addr coin answer,
      walletCoin (Tables.after (ws.take i)) addr coin t0 t1 = .ok answer →
      ∃ answer', walletCoin (Tables.after (ws.take j)) addr coin t0' t1' = .ok answer' ∧
        answer.row.fillCount ≤ answer'.row.fillCount) ∧
    (∀ i j, i ≤ j → ∀ addr row, (Tables.after (ws.take i)).readWallet addr = some row →
      ∃ row' answer', (Tables.after (ws.take j)).readWallet addr = some row' ∧
        archetype (Tables.after (ws.take j)) addr t0' t1' = .ok answer' ∧
        row.totalFills ≤ row'.totalFills) := by
  have hlog := Consumer.run_issues args start inputs
  have hpos : ∀ f ∈ inputs.map Prod.fst, 0 ≤ f.notional := fun f hf => (hfills f hf).notional
  refine ⟨?_, ?_, ?_, ?_⟩
  · intro i coin answer
    have hwindows : ∀ win r, answer.windows win = some r → ∃ p s, p <+: inputs.map Prod.fst ∧
        SnapshotAt p (coin, win, s) ∧ r = windowRowOf coin win s :=
      fun win r hr => exists_snapshotAt hlog hws hr
    have hscorable : ∀ s, (answer.windows .m1).map CoinWindowRow.snapshot = some s →
        s.Scorable := by
      intro s hs
      obtain ⟨r, hr, rfl⟩ := Option.map_eq_some_iff.mp hs
      obtain ⟨p, s', hp, hsnap, rfl⟩ := hwindows .m1 r hr
      rw [snapshot_windowRowOf]
      exact hsnap.scorable fun f hf => hfills f (hp.subset hf)
    have hunit : (components exp ((answer.windows .m1).map CoinWindowRow.snapshot)
        ((answer.windows .h1).map CoinWindowRow.snapshot)).InUnit :=
      components_inUnit hexp hscorable
    exact ⟨hwindows, Rounding.roundTo_mem_Icc (rawScore_mem hunit), hunit.round⟩
  · intro i j hij coin win r hr
    exact readCoinWindow_mono hlog hws hpos (hij win) hr
  · intro i j hij addr coin answer hanswer
    exact walletCoin_mono hlog hws hij hanswer
  · intro i j hij addr row hread
    exact readWallet_mono hlog hws hij hread

/-- The writes of two fills.  Those of the first flush are not all there, and the others
    come in the reverse of their order. -/
def tornWrites : List (Write Row) := torn 3 5 (stampFrom 0 (Consumer.run {} 0 twoFills))

/-- Two requests, before the writes of the second fill and when some of them are there. -/
theorem answers_any_time_two_moments :
    (∃ answer', walletCoin (Tables.after (tornWrites.take 3)) "w" "BTC" 0 0 =
        .ok ⟨0, ⟨"w", "BTC", 2, 100, 0, 1, 5000⟩⟩ ∧
      walletCoin (Tables.after (tornWrites.take 8)) "w" "BTC" 1 1 = .ok answer' ∧
      1 ≤ answer'.row.fillCount) ∧
    ∃ r r',
      (scoreCoin coarseExp (fun _ => Tables.after (tornWrites.take 3)) "BTC" 0 0).windows .m1 =
        some r ∧ r.volume = 200 ∧
      (scoreCoin coarseExp (fun _ => Tables.after (tornWrites.take 7)) "BTC" 1 1).windows .m1 =
        some r' ∧
      (r.bucketTs < r'.bucketTs ∨ r.bucketTs = r'.bucketTs ∧ r.volume ≤ r'.volume) := by
  obtain ⟨_, hwindows, hpairs, _⟩ := answers_any_time {} 0 twoFills (by decide +kernel) tornWrites
    (fun _ => mem_of_mem_torn) coarseExp logistic_coarseExp 0 0 1 1
  have hpair : walletCoin (Tables.after (tornWrites.take 3)) "w" "BTC" 0 0 =
      .ok ⟨0, ⟨"w", "BTC", 2, 100, 0, 1, 5000⟩⟩ := by
    decide +kernel
  have hm1 : ((scoreCoin coarseExp (fun _ => Tables.after (tornWrites.take 3)) "BTC" 0 0).windows
      .m1).any (fun r => r.volume = 200) = true := by
    decide +kernel
  obtain ⟨answer', hpair', hfills⟩ := hpairs 3 8 (by decide) "w" "BTC" _ hpair
  obtain ⟨r, hr, hvolume⟩ := Option.any_eq_true .. |>.mp hm1
  obtain ⟨r', hr', hlater⟩ := hwindows (fun _ => 3) (fun _ => 7) (fun _ => by decide) "BTC" .m1 r hr
  exact ⟨⟨answer', hpair, hpair', hfills⟩, r, r', hr, of_decide_eq_true hvolume, hr', hlater⟩

end AnyTime

end Api

end FeatureStore
