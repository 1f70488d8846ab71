/-
  FeatureStore/PrefixConsistency.lean
  ===================================
  **The store under failures and reordering.**

  Writes may fail, arrive late, in any order, or again.  What a cell of an
  empty store then holds is an issued row, which describes the engine at some
  prefix of the fills; and as the cell only takes rows issued later, which
  describe longer prefixes, everything that grows along the fills grows along
  the life of the cell: the number of fills of a (wallet, coin), and the volume
  of a bucket when notionals are not negative.
-/
import FeatureStore.IssuedRows
import FeatureStore.WindowNesting

namespace FeatureStore

open FeatureEngine (after emitted finalSnapshots)
open Grouping (group)
open LastWriter (Store rowAt applyAll stampFrom emptyStore rowAt_mem rowAt_mono)

/-! ### What a row says about its prefix -/

theorem fillCount_of_get? {p : List Fill} {addr coin : String} {wc : WalletCoinState}
    (h : (after p).wc.get? (addr, coin) = some wc) :
    wc.fillCount = (group (fun f : Fill => (f.addr, f.coin)) (addr, coin) p).length := by
  rw [FeatureEngine.after_wc] at h
  rw [Dict.get?_feed_some _ _ _ h,
    Grouping.measure_foldl (g := WalletCoinState.fillCount) (h := fun _ => 1) (fun _ _ => rfl)]
  simp

theorem fillCount_mono {p p' : List Fill} (hp : p <+: p') {addr coin : String}
    {wc wc' : WalletCoinState} (h : (after p).wc.get? (addr, coin) = some wc)
    (h' : (after p').wc.get? (addr, coin) = some wc') : wc.fillCount ≤ wc'.fillCount := by
  rw [fillCount_of_get? h, fillCount_of_get? h']
  exact (hp.sublist.filter _).length_le

theorem volume_mono {p p' : List Fill} (hp : p <+: p') (hpos : ∀ f ∈ p', 0 ≤ f.notional)
    {coin : String} {win : Window} {s s' : Snapshot} (h : s.Aggregates (batch p coin win s.bucketTs))
    (h' : s'.Aggregates (batch p' coin win s'.bucketTs)) (hts : s.bucketTs = s'.bucketTs) :
    s.volume ≤ s'.volume := by
  rw [h.volume, h'.volume, hts]
  apply Batch.volume_mono (batch_extends hp coin win _).sublist
  intro f hf
  exact hpos f (mem_of_mem_batch hf).1

theorem ts_bucketTs_inj {t t' : ℤ} (h : ts (t * 1000) = ts (t' * 1000)) : t = t' := by
  unfold ts at h
  omega

/-! ### Rows of one key -/

section Rows

variable {p p' : List Fill} {row row' : Row} {addr coin : String} {win : Window} {t : ℤ}

theorem exists_walletCoin (hdesc : Describes p row) (hkey : row.key = .walletCoin addr coin) :
    ∃ wc, (after p).wc.get? (addr, coin) = some wc ∧ row = walletCoinRow addr coin wc := by
  cases row with
  | walletCoin r =>
    obtain ⟨haddr, hcoin⟩ := RowKey.walletCoin.inj hkey
    obtain ⟨wc, hwc, hrow⟩ := hdesc
    rw [haddr, hcoin] at hwc hrow
    exact ⟨wc, hwc, hrow⟩
  | coinWindow r => cases hkey
  | wallet r => cases hkey
  | fillBucket r => cases hkey
  | fillHot r => cases hkey

theorem exists_snapshot (hdesc : Describes p row) (hkey : row.key = .coinWindow coin win t) :
    ∃ s, SnapshotAt p (coin, win, s) ∧ row = coinWindowRow (coin, win, s) ∧
      t = ts (s.bucketTs * 1000) := by
  cases row with
  | coinWindow r =>
    obtain ⟨s, hs, hrow⟩ := hdesc
    rw [hrow] at hkey
    obtain ⟨hcoin, hwin, ht⟩ := RowKey.coinWindow.inj hkey
    simp only at hcoin hwin ht
    rw [hcoin, hwin] at hs hrow
    exact ⟨s, hs, hrow, ht.symm⟩
  | walletCoin r => cases hkey
  | wallet r => cases hkey
  | fillBucket r => cases hkey
  | fillHot r => cases hkey

end Rows

/-- A cell holds a row of its key, and what it holds later describes the engine
    no earlier. -/
theorem Issues.exists_earlier {fs : List Fill} {raws log : List Row} (h : Issues fs raws log)
    {arrived more : List (Write Row)} (harrived : ∀ w ∈ arrived ++ more, w ∈ stampFrom 0 log)
    {key : RowKey} {row : Row} (hrow : rowAt (applyAll Row.key emptyStore arrived) key = some row) :
    row.key = key ∧
      ∃ row', rowAt (applyAll Row.key emptyStore (arrived ++ more)) key = some row' ∧
        row'.key = key ∧ Earlier fs row row' := by
  have horder := h.inOrder
  obtain ⟨hmem, hkey⟩ :=
    rowAt_mem Row.key (fun w hw => harrived w (List.mem_append_left _ hw)) hrow
  obtain ⟨row', hrow', hlater⟩ := rowAt_mono Row.key horder.pairwise harrived hrow
  refine ⟨hkey, row', hrow', (rowAt_mem Row.key harrived hrow').2, ?_⟩
  rcases hlater with rfl | hlater
  · obtain ⟨p, hp, hdesc⟩ := horder.describes row hmem
    exact ⟨p, p, List.prefix_refl p, hp, hdesc, hdesc⟩
  · exact hlater

namespace Consumer

theorem exists_earlier (args : Args) (start : ℚ) (inputs : List (Fill × ℚ))
    {arrived more : List (Write Row)}
    (harrived : ∀ w ∈ arrived ++ more, w ∈ stampFrom 0 (run args start inputs)) {key : RowKey}
    {row : Row} (hrow : rowAt (applyAll Row.key emptyStore arrived) key = some row) :
    row.key = key ∧
      ∃ row', rowAt (applyAll Row.key emptyStore (arrived ++ more)) key = some row' ∧
        row'.key = key ∧ Earlier (inputs.map Prod.fst) row row' :=
  (run_issues args start inputs).exists_earlier harrived hrow

/-- **Prefix consistency.**  Start from empty tables and let any issued writes
    arrive: some or all, in any order.  Then, whatever else arrives later:

    * a (wallet, coin) row is the entry the engine had after some prefix of the
      fills, and the row that replaces it counts no fewer fills;
    * a window row is a snapshot of that very bucket that the engine had at some
      prefix, the row that replaces it has no smaller volume, and its volume is
      at most that of the bucket's last snapshot. -/
theorem prefix_consistency (args : Args) (start : ℚ) (inputs : List (Fill × ℚ))
    (hpos : ∀ f ∈ inputs.map Prod.fst, 0 ≤ f.notional) (arrived more : List (Write Row))
    (harrived : ∀ w ∈ arrived ++ more, w ∈ stampFrom 0 (run args start inputs)) :
    let fs := inputs.map Prod.fst
    let store := applyAll Row.key emptyStore arrived
    let later := applyAll Row.key emptyStore (arrived ++ more)
    (∀ addr coin row, rowAt store (.walletCoin addr coin) = some row →
      ∃ p wc, p <+: fs ∧ (after p).wc.get? (addr, coin) = some wc ∧
        row = walletCoinRow addr coin wc ∧
        ∃ p' wc', p' <+: fs ∧ (after p').wc.get? (addr, coin) = some wc' ∧
          rowAt later (.walletCoin addr coin) = some (walletCoinRow addr coin wc') ∧
          wc.fillCount ≤ wc'.fillCount) ∧
    (∀ coin win t row, rowAt store (.coinWindow coin win t) = some row →
      ∃ p s, p <+: fs ∧ SnapshotAt p (coin, win, s) ∧ t = ts (s.bucketTs * 1000) ∧
        row = coinWindowRow (coin, win, s) ∧
        (∃ p' s', p' <+: fs ∧ SnapshotAt p' (coin, win, s') ∧ s'.bucketTs = s.bucketTs ∧
          rowAt later (.coinWindow coin win t) = some (coinWindowRow (coin, win, s')) ∧
          s.volume ≤ s'.volume) ∧
        ∃ s', (coin, win, s') ∈ emitted fs ++ (after fs).openSnapshots ∧
          s'.bucketTs = s.bucketTs ∧ s.volume ≤ s'.volume) := by
  intro fs store later
  constructor
  · intro addr coin row hrow
    obtain ⟨hkey, row', hrow', hkey', p, p', hp, hp', hdesc, hdesc'⟩ :=
      exists_earlier args start inputs harrived hrow
    obtain ⟨wc, hwc, rfl⟩ := exists_walletCoin hdesc hkey
    obtain ⟨wc', hwc', rfl⟩ := exists_walletCoin hdesc' hkey'
    exact ⟨p, wc, hp.trans hp', hwc, rfl, p', wc', hp', hwc', hrow', fillCount_mono hp hwc hwc'⟩
  · intro coin win t row hrow
    obtain ⟨hkey, row', hrow', hkey', p, p', hp, hp', hdesc, hdesc'⟩ :=
      exists_earlier args start inputs harrived hrow
    obtain ⟨s, hs, rfl, hts⟩ := exists_snapshot hdesc hkey
    obtain ⟨s', hs', rfl, hts'⟩ := exists_snapshot hdesc' hkey'
    have hsame : s.bucketTs = s'.bucketTs := ts_bucketTs_inj (hts.symm.trans hts')
    have hpos' : ∀ f ∈ p', 0 ≤ f.notional := fun f hf => hpos f (hp'.subset hf)
    refine ⟨p, s, hp.trans hp', hs, hts, rfl, ?_, ?_⟩
    · exact ⟨p', s', hp', hs', hsame.symm, hrow',
        volume_mono hp hpos' hs.aggregates.1 hs'.aggregates.1 hsame⟩
    · -- the bucket is still there at the end of the run
      obtain ⟨hagg, hne⟩ := hs.aggregates
      obtain ⟨last, hlast⟩ := Option.isSome_iff_exists.mp
        ((FeatureEngine.isSome_finalSnapshot? fs coin win s.bucketTs).mpr fun hnil =>
          hne (List.prefix_nil.mp (hnil ▸ batch_extends (hp.trans hp') coin win s.bucketTs)))
      have hspec := FeatureEngine.finalSnapshot?_spec fs coin win s.bucketTs
      rw [hlast] at hspec
      obtain ⟨hstart, hagg', _⟩ := hspec
      refine ⟨last, mem_snapshotsOf.mp (List.mem_of_find?_eq_some hlast), hstart, ?_⟩
      rw [← hstart] at hagg'
      exact volume_mono (hp.trans hp') hpos hagg hagg' hstart.symm

/-- The first three writes, the last of them first, then all writes in the reverse of
    their order. -/
theorem prefix_consistency_two_fills :
    let ws := stampFrom 0 (run {} 0 twoFills)
    let store := applyAll Row.key emptyStore (ws.take 3).reverse
    let later := applyAll Row.key emptyStore ((ws.take 3).reverse ++ ws.reverse)
    rowAt store (.walletCoin "w" "BTC") = some (walletCoinRow "w" "BTC" ⟨2, 100, 0, 1, 5000⟩) ∧
    ∃ p wc p' wc', p <+: twoFills.map Prod.fst ∧ (after p).wc.get? ("w", "BTC") = some wc ∧
      walletCoinRow "w" "BTC" ⟨2, 100, 0, 1, 5000⟩ = walletCoinRow "w" "BTC" wc ∧
      p' <+: twoFills.map Prod.fst ∧ (after p').wc.get? ("w", "BTC") = some wc' ∧
      rowAt later (.walletCoin "w" "BTC") = some (walletCoinRow "w" "BTC" wc') ∧
      wc.fillCount ≤ wc'.fillCount := by
  have harrived : ∀ w ∈ ((stampFrom 0 (run {} 0 twoFills)).take 3).reverse ++
      (stampFrom 0 (run {} 0 twoFills)).reverse, w ∈ stampFrom 0 (run {} 0 twoFills) := by
    intro w hw
    rcases List.mem_append.mp hw with hw | hw
    · exact List.mem_of_mem_take (List.mem_reverse.mp hw)
    · exact List.mem_reverse.mp hw
  have hstored : rowAt (applyAll Row.key emptyStore
      ((stampFrom 0 (run {} 0 twoFills)).take 3).reverse) (.walletCoin "w" "BTC") =
        some (walletCoinRow "w" "BTC" ⟨2, 100, 0, 1, 5000⟩) := by
    decide +kernel
  obtain ⟨p, wc, hp, hwc, hrow, p', wc', hp', hwc', hrow', hle⟩ :=
    (prefix_consistency {} 0 twoFills (by decide +kernel) _ _ harrived).1 "w" "BTC" _ hstored
  exact ⟨hstored, p, wc, p', wc', hp, hwc, hrow, hp', hwc', hrow', hle⟩

end Consumer

end FeatureStore
