/-
  FeatureStore/TableAgreement.lean
  ================================
  **What a run leaves in the tables.**

  The writes of a run reach the store in any order and overwrite whatever it
  held.  What each key ends with is `settled`, which mentions the fills and the
  raw sink and nothing else: not the clock, not the flush interval, not the
  order of arrival, not the rows before the run.  That runs with other flush
  schedules, repeated runs and the dashboard's ingest agree is then one
  argument.
-/
import FeatureStore.IssuedRows

namespace FeatureStore

open FeatureEngine (after emitted finalSnapshots)
open LastWriter (Drained Store rowAt applyAll stampFrom emptyStore lastFor lastFor_eq_none_iff)

/-- A key is written exactly when it has a last row. -/
theorem mem_keys_iff_lastFor {rows : List Row} {key : RowKey} :
    key ∈ rows.map Row.key ↔ (lastFor Row.key rows key).isSome := by
  rw [← not_iff_not, Option.not_isSome_iff_eq_none, lastFor_eq_none_iff, List.mem_map]
  simp only [not_exists, not_and, ne_eq]

/-- `settled` depends on the raw sink for the raw-fill tables only. -/
theorem settled_congr {raws raws' : List Row} {fs : List Fill} {key : RowKey}
    (h : key.IsRaw → raws = raws') : settled raws fs key = settled raws' fs key := by
  cases key with
  | walletCoin addr coin => rfl
  | coinWindow coin win t => rfl
  | wallet addr => rfl
  | fillBucket coin timeBucket t addr => rw [h trivial]
  | fillHot coin t addr => rw [h trivial]

theorem settled_coinWindow_of_mem (raws : List Row) {fs : List Fill} {c : WindowSnapshot}
    (hc : c ∈ finalSnapshots fs) :
    settled raws fs (coinWindowRow c).key = some (coinWindowRow c) :=
  LastWriter.lastFor_of_nodup Row.key (finalSnapshots_key_nodup fs) (List.mem_map_of_mem hc)

namespace Consumer

variable {args args' : Args} {start start' : ℚ} {inputs inputs' : List (Fill × ℚ)} {base base' : ℕ}
  {before before' final final' : Store RowKey Row}

/-- The raw rows of a run. -/
def raws (args : Args) (fs : List Fill) : List Row := fs.flatMap (rawRows args.rawSink)

theorem rowAt_drained (h : Drained Row.key base (run args start inputs) before final)
    (key : RowKey) :
    rowAt final key =
      (settled (raws args (inputs.map Prod.fst)) (inputs.map Prod.fst) key).or
        (rowAt before key) := by
  rw [h.rowAt_eq, lastFor_run]
  rfl

theorem rowAt_of_settled (h : Drained Row.key base (run args start inputs) before final)
    {key : RowKey} {row : Row}
    (hrow : settled (raws args (inputs.map Prod.fst)) (inputs.map Prod.fst) key = some row) :
    rowAt final key = some row := by
  rw [rowAt_drained h, hrow, Option.some_or]

theorem mem_keys_run {key : RowKey} :
    key ∈ (run args start inputs).map Row.key ↔
      (settled (raws args (inputs.map Prod.fst)) (inputs.map Prod.fst) key).isSome := by
  rw [mem_keys_iff_lastFor, lastFor_run]
  rfl

/-- Runs over the same fills settle on the same rows. -/
theorem settled_eq_of_fills (hfills : inputs'.map Prod.fst = inputs.map Prod.fst) {key : RowKey}
    (hsink : key.IsRaw → args'.rawSink = args.rawSink) :
    settled (raws args' (inputs'.map Prod.fst)) (inputs'.map Prod.fst) key =
      settled (raws args (inputs.map Prod.fst)) (inputs.map Prod.fst) key := by
  rw [hfills]
  apply settled_congr
  intro hraw
  rw [raws, raws, hsink hraw]

theorem or_of_isSome {o : Option Row} (h : o.isSome) (d d' : Option Row) : o.or d = o.or d' := by
  cases o with
  | none => cases h
  | some row => rfl

/-- **Table agreement.**  When every write of a run has arrived, in any order,
    over any older rows:

    * the three feature tables hold exactly what the engine has for the keys the
      run wrote, for a window the closing snapshot of a closed bucket and the
      final snapshot of an open one, and no other key has changed;
    * another run over the same fills, with other clock readings and another
      flush interval, over any other rows, writes the same keys and leaves the
      same rows (in the raw-fill tables if it has the same sink);
    * such a run after this one changes nothing;
    * the dashboard's ingest of the same fills writes the same keys of
      `wallet_coin_features` and `coin_window_features` and leaves the same
      rows there. -/
theorem table_agreement (args : Args) (start : ℚ) (inputs : List (Fill × ℚ)) (base : ℕ)
    (before final : Store RowKey Row)
    (h : Drained Row.key base (run args start inputs) before final) :
    let fs := inputs.map Prod.fst
    let keys := (run args start inputs).map Row.key
    (∀ addr coin, (.walletCoin addr coin ∈ keys ↔ (addr, coin) ∈ (after fs).wc.keys) ∧
      ∀ wc, (after fs).wc.get? (addr, coin) = some wc →
        rowAt final (.walletCoin addr coin) = some (walletCoinRow addr coin wc)) ∧
    (∀ addr, (.wallet addr ∈ keys ↔ addr ∈ (after fs).wallets.keys) ∧
      ∀ w, (after fs).wallets.get? addr = some w →
        rowAt final (.wallet addr) = some (walletRow addr w)) ∧
    (∀ coin win t, .coinWindow coin win t ∈ keys ↔
      ∃ c ∈ emitted fs ++ (after fs).openSnapshots,
        (coinWindowRow c).key = .coinWindow coin win t) ∧
    (∀ c ∈ emitted fs ++ (after fs).openSnapshots,
      rowAt final (coinWindowRow c).key = some (coinWindowRow c)) ∧
    (∀ key, key ∉ keys → rowAt final key = rowAt before key) ∧
    (∀ args' start' inputs', inputs'.map Prod.fst = fs → ∀ base' before' final',
      Drained Row.key base' (run args' start' inputs') before' final' →
      ∀ key, (key.IsRaw → args'.rawSink = args.rawSink) →
        (key ∈ (run args' start' inputs').map Row.key ↔ key ∈ keys) ∧
        (key ∈ keys → rowAt final' key = rowAt final key)) ∧
    (∀ args' start' inputs', inputs'.map Prod.fst = fs → ∀ ws,
      ws.Perm (stampFrom (base + (run args start inputs).length) (run args' start' inputs')) →
      ∀ key, (key.IsRaw → args'.rawSink = args.rawSink) →
        rowAt (applyAll Row.key final ws) key = rowAt final key) ∧
    (∀ now0 inputs', inputs'.map Prod.fst = fs → ∀ base' before' final',
      Drained Row.key base' (Ingest.run now0 inputs') before' final' →
      ∀ key, ¬key.IsRaw → (∀ addr, key ≠ .wallet addr) →
        (key ∈ (Ingest.run now0 inputs').map Row.key ↔ key ∈ keys) ∧
        (key ∈ keys → rowAt final' key = rowAt final key)) := by
  intro fs keys
  refine ⟨?_, ?_, ?_, ?_, ?_, ?_, ?_, ?_⟩
  · intro addr coin
    constructor
    · rw [mem_keys_run, settled, Option.isSome_map, Dict.mem_keys_iff, Option.isSome_iff_exists]
    · intro wc hwc
      exact rowAt_of_settled h (congrArg (Option.map _) hwc)
  · intro addr
    constructor
    · rw [mem_keys_run, settled, Option.isSome_map, Dict.mem_keys_iff, Option.isSome_iff_exists]
    · intro w hw
      exact rowAt_of_settled h (congrArg (Option.map _) hw)
  · intro coin win t
    rw [mem_keys_run, settled, ← mem_keys_iff_lastFor, List.map_map, List.mem_map]
    rfl
  · exact fun c hc => rowAt_of_settled h (settled_coinWindow_of_mem _ hc)
  · intro key hkey
    rw [mem_keys_run, Option.not_isSome_iff_eq_none] at hkey
    rw [rowAt_drained h, hkey, Option.none_or]
  · intro args' start' inputs' hfills base' before' final' h' key hsink
    have hsettled := @settled_eq_of_fills args args' inputs inputs' hfills key hsink
    constructor
    · rw [mem_keys_run, mem_keys_run, hsettled]
    · intro hkey
      rw [rowAt_drained h', rowAt_drained h, hsettled]
      exact or_of_isSome (mem_keys_run.mp hkey) _ _
  · intro args' start' inputs' hfills ws hws key hsink
    rw [rowAt_drained (h.again Row.key hws),
      @settled_eq_of_fills args args' inputs inputs' hfills key hsink, rowAt_drained h]
    cases settled (raws args (inputs.map Prod.fst)) (inputs.map Prod.fst) key with
    | none => rfl
    | some row => rfl
  · intro now0 inputs' hfills base' before' final' h' key hraw hwallet
    have hsettled : settled [] (inputs'.map Prod.fst) key =
        settled (raws args (inputs.map Prod.fst)) (inputs.map Prod.fst) key := by
      rw [hfills]
      exact settled_congr fun hkey => absurd hkey hraw
    constructor
    · rw [mem_keys_iff_lastFor, Ingest.lastFor_run now0 inputs' hwallet, hsettled, mem_keys_run]
    · intro hkey
      rw [h'.rowAt_eq, Ingest.lastFor_run now0 inputs' hwallet, hsettled, rowAt_drained h]
      exact or_of_isSome (mem_keys_run.mp hkey) _ _

/-- The rows that an earlier run has left for BTC. -/
def olderRows : Store RowKey Row
  | .walletCoin addr "BTC" => some ⟨0, walletCoinRow addr "BTC" ⟨7, 90, 0, 1, 0⟩⟩
  | _ => none

theorem stamp_of_olderRows {k : RowKey} {w : Write Row} (h : olderRows k = some w) :
    w.stamp < 1 := by
  unfold olderRows at h
  split at h <;> cases h
  exact Nat.zero_lt_one

/-- A flush between two fills, and the writes of both in the reverse of their order. -/
theorem table_agreement_two_fills :
    let final := applyAll Row.key olderRows (stampFrom 1 (run {} 0 twoFills)).reverse
    rowAt final (.walletCoin "w" "BTC") = some (walletCoinRow "w" "BTC" ⟨3, 100, 0, 2, 5500⟩) ∧
    rowAt final (.wallet "w") = some (walletRow "w" ⟨0, 2, 300, 300, 2, 0, 5500⟩) ∧
    rowAt final (.walletCoin "v" "BTC") = some (walletCoinRow "v" "BTC" ⟨7, 90, 0, 1, 0⟩) := by
  obtain ⟨hpairs, hwallets, _, _, hothers, _⟩ := table_agreement {} 0 twoFills 1 olderRows _
    ⟨fun _ _ => stamp_of_olderRows, _, List.reverse_perm _, rfl⟩
  exact ⟨(hpairs "w" "BTC").2 _ (by decide +kernel), (hwallets "w").2 _ (by decide +kernel),
    hothers _ (by decide +kernel)⟩

end Consumer

end FeatureStore
