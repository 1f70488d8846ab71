/-
  FeatureStore/IssuedRows.lean
  ============================
  **What an ingest issues.**

  `Issues fs raws log` is the abstract ingest: fed the fills `fs`, it has issued
  the rows `log`, of which `raws` are the raw-fill rows.  For every fill it
  writes the (wallet, coin) entry and the closed buckets.  Raw fills, the open
  windows and the wallets may be written at any moment.  Both ingest loops of
  the source refine it (`Consumer.loop_issues`, `Ingest.loop_issues`), whatever
  the clock reads.

  Two facts carry the results about the store:

    * the last row of every key is the one the engine's final state gives
      (`Issues.settled_of_flush`);
    * every row describes the engine at some prefix of the fills, and later
      rows describe later prefixes (`Issues.inOrder`).
-/
import FeatureStore.Dashboard
import FeatureStore.LastWriter
import FeatureStore.WindowBatch

namespace FeatureStore

open FeatureEngine (after emitted finalSnapshots after_snoc emitted_snoc)
open Grouping (group)
open LastWriter (lastFor lastFor_append lastFor_append_of_ne lastFor_of_nodup
  lastFor_eq_none_iff mem_of_lastFor)

/-- What is written for a fill. -/
def fillRows (engine : FeatureEngine) (f : Fill) : List Row :=
  [walletCoinRow f.addr f.coin (engine.apply f).2.wc] ++
    (engine.apply f).2.closed.map coinWindowRow

/-- The abstract ingest. -/
inductive Issues : List Fill → List Row → List Row → Prop
  | start : Issues [] [] []
  | fill {fs raws log} (h : Issues fs raws log) (f : Fill) :
      Issues (fs ++ [f]) raws (log ++ fillRows (after fs) f)
  | raw {fs raws log} (h : Issues fs raws log) (row : Row) (hraw : row.key.IsRaw) :
      Issues fs (raws ++ [row]) (log ++ [row])
  | openWindows {fs raws log} (h : Issues fs raws log) :
      Issues fs raws (log ++ openWindowRows (after fs))
  | wallets {fs raws log} (h : Issues fs raws log) : Issues fs raws (log ++ walletRows (after fs))

/-! ### The ingest loops refine it -/

theorem rawRows_isRaw (rawSink : RawSink) (f : Fill) :
    ∀ row ∈ rawRows rawSink f, row.key.IsRaw := by
  intro row hrow
  cases rawSink with
  | off => simp [rawRows] at hrow
  | bucket =>
    rw [List.mem_singleton.mp hrow]
    trivial
  | hot =>
    rw [List.mem_singleton.mp hrow]
    trivial

theorem Issues.raw_append {fs : List Fill} {raws log more : List Row} (h : Issues fs raws log)
    (hmore : ∀ row ∈ more, row.key.IsRaw) : Issues fs (raws ++ more) (log ++ more) := by
  induction more using List.reverseRecOn with
  | nil => simpa using h
  | append_singleton more row ih =>
    rw [← List.append_assoc, ← List.append_assoc]
    exact (ih fun r hr => hmore r (List.mem_append_left _ hr)).raw row
      (hmore row (List.mem_append_right _ (List.mem_singleton.mpr rfl)))

namespace Consumer

variable (args : Args) (start : ℚ) (inputs : List (Fill × ℚ))

/-- The engine of the loop runs on the fills. -/
theorem loop_engine : (loop args start inputs).engine = after (inputs.map Prod.fst) := by
  induction inputs using List.reverseRecOn with
  | nil => rfl
  | append_singleton inputs input ih =>
    rw [loop_snoc, List.map_append, List.map_singleton, after_snoc, ← ih]
    simp only [step]
    split <;> rfl

/-- **The consumer refines the abstract ingest**, whenever its flush fires. -/
theorem loop_issues : Issues (inputs.map Prod.fst)
    ((inputs.map Prod.fst).flatMap (rawRows args.rawSink)) (loop args start inputs).issued := by
  induction inputs using List.reverseRecOn with
  | nil => exact .start
  | append_singleton inputs input ih =>
    have hengine := loop_engine args start inputs
    have hbody := (ih.fill input.1).raw_append (rawRows_isRaw args.rawSink input.1)
    rw [loop_snoc, List.map_append, List.map_singleton, List.flatMap_append, List.flatMap_singleton]
    simp only [step, hengine]
    rw [fillRows, ← List.append_assoc] at hbody
    split
    · have hflush := hbody.openWindows.wallets
      rw [List.append_assoc, after_snoc] at hflush
      exact hflush
    · exact hbody

end Consumer

namespace Ingest

variable (now0 : ℚ) (inputs : List (Fill × ℚ))

theorem loop_engine : (loop now0 inputs).engine = after (inputs.map Prod.fst) := by
  induction inputs using List.reverseRecOn with
  | nil => rfl
  | append_singleton inputs input ih =>
    rw [loop_snoc, List.map_append, List.map_singleton, after_snoc, ← ih]
    simp only [step]
    split <;> rfl

/-- **The dashboard's ingest refines the abstract ingest.** -/
theorem loop_issues : Issues (inputs.map Prod.fst) [] (loop now0 inputs).issued := by
  induction inputs using List.reverseRecOn with
  | nil => exact .start
  | append_singleton inputs input ih =>
    have hengine := loop_engine now0 inputs
    have hbody := ih.fill input.1
    rw [loop_snoc, List.map_append, List.map_singleton]
    simp only [step, hengine]
    rw [fillRows, ← List.append_assoc] at hbody
    split
    · have hflush := hbody.openWindows
      rw [after_snoc] at hflush
      exact hflush
    · exact hbody

end Ingest

/-! ### Every row describes the engine at a prefix -/

/-- The engine has the snapshot at `p`: the bucket is open, or the last fill has
    just closed it. -/
def SnapshotAt (p : List Fill) (c : WindowSnapshot) : Prop :=
  c ∈ (after p).openSnapshots ∨ ∃ q f, p = q ++ [f] ∧ c ∈ ((after q).apply f).2.closed

/-- The row says what the engine's state is after the fills `p`. -/
def Describes (p : List Fill) : Row → Prop
  | .walletCoin r => ∃ wc, (after p).wc.get? (r.addr, r.coin) = some wc ∧
      Row.walletCoin r = walletCoinRow r.addr r.coin wc
  | .coinWindow r => ∃ s, SnapshotAt p (r.coin, r.window, s) ∧
      Row.coinWindow r = coinWindowRow (r.coin, r.window, s)
  | .wallet r => ∃ w, (after p).wallets.get? r.addr = some w ∧ Row.wallet r = walletRow r.addr w
  | .fillBucket _ => True
  | .fillHot _ => True

/-- A snapshot the engine has is one of a bucket that the coin's fills open. -/
theorem SnapshotAt.exists_pane {p : List Fill} {coin : String} {win : Window} {s : Snapshot}
    (h : SnapshotAt p (coin, win, s)) :
    ∃ bucket ∈ win.tumbling.panes (group Fill.coin coin p), ∃ wallets,
      s = bucket.snapshot wallets := by
  rcases h with hopen | ⟨q, f, rfl, hclosed⟩
  · obtain ⟨bucket, hbucket, rfl⟩ := FeatureEngine.mem_openSnapshots.mp hopen
    exact ⟨bucket, List.mem_append_right _ (Option.mem_toList.mpr hbucket), _, rfl⟩
  · obtain ⟨bucket, hcoin, hbucket, rfl⟩ := FeatureEngine.mem_apply_closed.mp hclosed
    refine ⟨bucket, List.mem_append_left _ ?_, _, rfl⟩
    rw [Grouping.group_snoc, if_pos hcoin, Tumbling.closed_snoc, hbucket]
    exact List.mem_append_right _ (List.mem_singleton.mpr rfl)

theorem SnapshotAt.aggregates {p : List Fill} {coin : String} {win : Window} {s : Snapshot}
    (h : SnapshotAt p (coin, win, s)) :
    s.Aggregates (batch p coin win s.bucketTs) ∧ batch p coin win s.bucketTs ≠ [] := by
  obtain ⟨bucket, hpane, wallets, rfl⟩ := h.exists_pane
  exact ⟨aggregates_of_mem_panes hpane wallets, batch_ne_nil_of_mem_panes hpane⟩

theorem describes_fillRows (fs : List Fill) (f : Fill) :
    ∀ row ∈ fillRows (after fs) f, Describes (fs ++ [f]) row := by
  intro row hrow
  rcases List.mem_append.mp hrow with hrow | hrow
  · rw [List.mem_singleton.mp hrow]
    refine ⟨((after fs).apply f).2.wc, ?_, rfl⟩
    rw [after_snoc]
    exact Dict.get?_set_self ..
  · obtain ⟨c, hc, rfl⟩ := List.mem_map.mp hrow
    exact ⟨c.2.2, Or.inr ⟨fs, f, rfl, hc⟩, rfl⟩

theorem describes_openWindowRows (fs : List Fill) :
    ∀ row ∈ openWindowRows (after fs), Describes fs row := by
  intro row hrow
  obtain ⟨c, hc, rfl⟩ := List.mem_map.mp hrow
  exact ⟨c.2.2, Or.inl hc, rfl⟩

theorem describes_walletRows (fs : List Fill) :
    ∀ row ∈ walletRows (after fs), Describes fs row := by
  intro row hrow
  obtain ⟨item, hitem, rfl⟩ := List.mem_map.mp hrow
  exact ⟨item.2, (Dict.mem_items_iff _ _ _).mp hitem, rfl⟩

theorem describes_of_isRaw {row : Row} (h : row.key.IsRaw) (p : List Fill) : Describes p row := by
  cases row with
  | walletCoin r => exact h.elim
  | coinWindow r => exact h.elim
  | wallet r => exact h.elim
  | fillBucket r => trivial
  | fillHot r => trivial

/-- One row describes the engine no later than the other, both at prefixes of
    the fills. -/
def Earlier (fs : List Fill) (r r' : Row) : Prop :=
  ∃ p p', p <+: p' ∧ p' <+: fs ∧ Describes p r ∧ Describes p' r'

/-- The rows describe prefixes of the fills, in order. -/
structure InOrder (fs : List Fill) (log : List Row) : Prop where
  describes : ∀ row ∈ log, ∃ p, p <+: fs ∧ Describes p row
  pairwise : log.Pairwise (Earlier fs)

theorem InOrder.append {fs fs' : List Fill} {log more : List Row} (h : InOrder fs log)
    (hfs : fs <+: fs') (hmore : ∀ row ∈ more, Describes fs' row) : InOrder fs' (log ++ more) where
  describes := by
    intro row hrow
    rcases List.mem_append.mp hrow with hrow | hrow
    · obtain ⟨p, hp, hdesc⟩ := h.describes row hrow
      exact ⟨p, hp.trans hfs, hdesc⟩
    · exact ⟨fs', List.prefix_refl fs', hmore row hrow⟩
  pairwise := by
    refine List.pairwise_append.mpr ⟨?_, ?_, ?_⟩
    · refine h.pairwise.imp ?_
      rintro r r' ⟨p, p', hp, hp', hdesc, hdesc'⟩
      exact ⟨p, p', hp, hp'.trans hfs, hdesc, hdesc'⟩
    · rw [List.pairwise_iff_forall_sublist]
      intro r r' hsub
      exact ⟨fs', fs', List.prefix_refl fs', List.prefix_refl fs', hmore r (hsub.subset (by simp)),
        hmore r' (hsub.subset (by simp))⟩
    · intro r hr r' hr'
      obtain ⟨p, hp, hdesc⟩ := h.describes r hr
      exact ⟨p, fs', hp.trans hfs, List.prefix_refl fs', hdesc, hmore r' hr'⟩

/-- **Issued rows describe prefixes of the fills, in order.** -/
theorem Issues.inOrder {fs : List Fill} {raws log : List Row} (h : Issues fs raws log) :
    InOrder fs log := by
  induction h with
  | start => exact ⟨fun row hrow => absurd hrow List.not_mem_nil, List.Pairwise.nil⟩
  | @fill fs _ _ _ f ih => exact ih.append (List.prefix_append _ _) (describes_fillRows fs f)
  | @raw fs _ _ _ row hraw ih =>
    refine ih.append (List.prefix_refl _) ?_
    intro r hr
    rw [List.mem_singleton.mp hr]
    exact describes_of_isRaw hraw fs
  | openWindows _ ih => exact ih.append (List.prefix_refl _) (describes_openWindowRows _)
  | wallets _ ih => exact ih.append (List.prefix_refl _) (describes_walletRows _)

/-! ### The last row of every key -/

/-- The row that each key ends with: what the engine has after the fills, and
    for raw fills the last one issued. -/
def settled (raws : List Row) (fs : List Fill) (key : RowKey) : Option Row :=
  match key with
  | .walletCoin addr coin => ((after fs).wc.get? (addr, coin)).map (walletCoinRow addr coin)
  | .coinWindow .. => lastFor Row.key ((finalSnapshots fs).map coinWindowRow) key
  | .wallet addr => ((after fs).wallets.get? addr).map (walletRow addr)
  | .fillBucket .. => lastFor Row.key raws key
  | .fillHot .. => lastFor Row.key raws key

/-! Which rows leave a key alone. -/

section Frame

variable {key : RowKey}

theorem key_ne_of_raw {row : Row} (hraw : row.key.IsRaw) (hkey : ¬key.IsRaw) :
    ∀ r ∈ [row], r.key ≠ key := by
  intro r hr heq
  rw [List.mem_singleton.mp hr] at heq
  rw [heq] at hraw
  exact hkey hraw

theorem key_ne_of_coinWindow (hkey : ∀ coin win t, key ≠ .coinWindow coin win t)
    (snapshots : List WindowSnapshot) : ∀ r ∈ snapshots.map coinWindowRow, r.key ≠ key := by
  intro r hr heq
  obtain ⟨c, _, rfl⟩ := List.mem_map.mp hr
  exact hkey _ _ _ heq.symm

theorem key_ne_of_wallet (hkey : ∀ addr, key ≠ .wallet addr) (engine : FeatureEngine) :
    ∀ r ∈ walletRows engine, r.key ≠ key := by
  intro r hr heq
  obtain ⟨item, _, rfl⟩ := List.mem_map.mp hr
  exact hkey _ heq.symm

theorem RowKey.IsRaw.ne_coinWindow (h : key.IsRaw) (coin : String) (win : Window) (t : ℤ) :
    key ≠ .coinWindow coin win t := by
  rintro rfl
  exact h

theorem RowKey.IsRaw.ne_wallet (h : key.IsRaw) (addr : String) : key ≠ .wallet addr := by
  rintro rfl
  exact h

end Frame

/-- Two last snapshots with one key are the same. -/
theorem finalSnapshots_key_nodup (fs : List Fill) :
    (((finalSnapshots fs).map coinWindowRow).map Row.key).Nodup := by
  rw [List.map_map]
  refine List.Nodup.of_map (f := fun key : RowKey => match key with
    | .coinWindow coin win t => ((coin, win), t / 1000)
    | _ => (("", .m1), 0)) ?_
  rw [List.map_map]
  have hnodup := FeatureEngine.finalSnapshots_nodup fs
  convert hnodup using 2
  funext c
  simp [ts]

/-- The keys of the closing and of the open snapshots do not repeat, and differ. -/
theorem finalSnapshots_key_parts (fs : List Fill) :
    (((emitted fs).map coinWindowRow).map Row.key).Nodup ∧
    ((openWindowRows (after fs)).map Row.key).Nodup ∧
    ∀ c ∈ emitted fs, ∀ r ∈ openWindowRows (after fs), r.key ≠ (coinWindowRow c).key := by
  have hnodup := finalSnapshots_key_nodup fs
  rw [finalSnapshots, List.map_append, List.map_append] at hnodup
  obtain ⟨hemitted, hopen, hne⟩ := List.nodup_append.mp hnodup
  refine ⟨hemitted, hopen, ?_⟩
  intro c hc r hr heq
  exact hne _ (List.mem_map_of_mem (List.mem_map_of_mem hc)) _ (List.mem_map_of_mem hr) heq.symm

namespace Issues

variable {fs : List Fill} {raws log : List Row}

/-- The last (wallet, coin) row is the entry of the map. -/
theorem last_walletCoin (h : Issues fs raws log) (addr coin : String) :
    lastFor Row.key log (.walletCoin addr coin) = settled raws fs (.walletCoin addr coin) := by
  induction h with
  | start => rfl
  | @fill fs raws log h f ih =>
    have hget : (after (fs ++ [f])).wc.get? (addr, coin) =
        if (f.addr, f.coin) = (addr, coin) then some ((after fs).apply f).2.wc
        else (after fs).wc.get? (addr, coin) := by
      rw [after_snoc]
      exact Dict.get?_set ..
    have hclosed : ∀ r ∈ ((after fs).apply f).2.closed.map coinWindowRow,
        r.key ≠ .walletCoin addr coin :=
      key_ne_of_coinWindow (fun _ _ _ => RowKey.noConfusion) _
    rw [fillRows, ← List.append_assoc, lastFor_append_of_ne _ hclosed, lastFor_append, ih, settled,
      settled, hget]
    by_cases hkey : (f.addr, f.coin) = (addr, coin)
    · obtain ⟨rfl, rfl⟩ := Prod.mk.inj hkey
      simp [lastFor, group]
    · have hkey' : ¬(f.addr = addr ∧ f.coin = coin) := fun hc => hkey (Prod.ext hc.1 hc.2)
      simp [lastFor, group, hkey, hkey']
  | raw _ row hraw ih =>
    have hkey : ¬(RowKey.walletCoin addr coin).IsRaw := not_false
    rw [lastFor_append_of_ne _ (key_ne_of_raw hraw hkey), ih]
    rfl
  | openWindows _ ih =>
    rw [openWindowRows,
      lastFor_append_of_ne _ (key_ne_of_coinWindow (fun _ _ _ => RowKey.noConfusion) _), ih]
  | wallets _ ih =>
    rw [lastFor_append_of_ne _ (key_ne_of_wallet (fun _ => RowKey.noConfusion) _), ih]

/-- A closing snapshot is the last row of its bucket. -/
theorem last_emitted (h : Issues fs raws log) :
    ∀ c ∈ emitted fs, lastFor Row.key log (coinWindowRow c).key = some (coinWindowRow c) := by
  induction h with
  | start => exact fun c hc => absurd hc List.not_mem_nil
  | @fill fs raws log h f ih =>
    have hemitted := (finalSnapshots_key_parts (fs ++ [f])).1
    rw [emitted_snoc, List.map_append, List.map_append] at hemitted
    intro c hc
    rw [emitted_snoc] at hc
    rw [fillRows, ← List.append_assoc]
    rcases List.mem_append.mp hc with hc | hc
    · -- closed before: no bucket that closes now has the same key
      rw [lastFor_append_of_ne, lastFor_append_of_ne, ih c hc]
      · intro r hr heq
        rw [List.mem_singleton.mp hr] at heq
        cases heq
      · intro r hr heq
        exact (List.nodup_append.mp hemitted).2.2 _
          (List.mem_map_of_mem (List.mem_map_of_mem hc)) _ (List.mem_map_of_mem hr) heq.symm
    · rw [lastFor_append, lastFor_of_nodup Row.key (List.nodup_append.mp hemitted).2.1
        (List.mem_map_of_mem hc), Option.some_or]
  | raw _ row hraw ih =>
    intro c hc
    have hkey : ¬(coinWindowRow c).key.IsRaw := not_false
    rw [lastFor_append_of_ne _ (key_ne_of_raw hraw hkey), ih c hc]
  | @openWindows fs _ _ _ ih =>
    intro c hc
    rw [lastFor_append_of_ne _ ((finalSnapshots_key_parts fs).2.2 c hc), ih c hc]
  | wallets _ ih =>
    intro c hc
    rw [lastFor_append_of_ne _ (key_ne_of_wallet (fun _ => RowKey.noConfusion) _), ih c hc]

/-- A row of the windows belongs to a bucket that the fills have opened. -/
theorem exists_finalSnapshot (h : Issues fs raws log) {row : Row} (hrow : row ∈ log) {coin : String}
    {win : Window} {t : ℤ} (hkey : row.key = .coinWindow coin win t) :
    ∃ c ∈ finalSnapshots fs, (coinWindowRow c).key = .coinWindow coin win t := by
  obtain ⟨p, hp, hdesc⟩ := h.inOrder.describes row hrow
  cases row with
  | coinWindow r =>
    obtain ⟨s, hs, hr⟩ := hdesc
    rw [hr] at hkey
    obtain ⟨hcoin, hwin, ht⟩ := RowKey.coinWindow.inj hkey
    have hbatch : batch fs r.coin r.window s.bucketTs ≠ [] := fun hnil =>
      hs.aggregates.2 (List.prefix_nil.mp (hnil ▸ batch_extends hp r.coin r.window s.bucketTs))
    have hspec := FeatureEngine.finalSnapshot?_spec fs r.coin r.window s.bucketTs
    cases hfinal : FeatureEngine.finalSnapshot? fs r.coin r.window s.bucketTs with
    | none =>
      rw [hfinal] at hspec
      exact absurd hspec hbatch
    | some s' =>
      rw [hfinal] at hspec
      refine ⟨(r.coin, r.window, s'), mem_snapshotsOf.mp (List.mem_of_find?_eq_some hfinal), ?_⟩
      simp only at hcoin hwin ht
      rw [coinWindowRow_key, hspec.1, hcoin, hwin, ht]
  | walletCoin r => cases hkey
  | wallet r => cases hkey
  | fillBucket r => cases hkey
  | fillHot r => cases hkey

/-- After a flush of the open windows, every bucket ends with its last
    snapshot. -/
theorem last_coinWindow (h : Issues fs raws log) (coin : String) (win : Window) (t : ℤ) :
    lastFor Row.key (log ++ openWindowRows (after fs)) (.coinWindow coin win t) =
      settled raws fs (.coinWindow coin win t) := by
  rw [settled]
  cases hlast : lastFor Row.key ((finalSnapshots fs).map coinWindowRow) (.coinWindow coin win t) with
  | none =>
    rw [lastFor_eq_none_iff]
    intro row hrow hkey
    obtain ⟨c, hc, hckey⟩ := h.openWindows.exists_finalSnapshot hrow hkey
    exact (lastFor_eq_none_iff Row.key).mp hlast _ (List.mem_map_of_mem hc) hckey
  | some row =>
    obtain ⟨hrow, hkey⟩ := mem_of_lastFor Row.key hlast
    obtain ⟨c, hc, rfl⟩ := List.mem_map.mp hrow
    rw [← hkey]
    rcases List.mem_append.mp hc with hc | hc
    · exact h.openWindows.last_emitted c hc
    · rw [lastFor_append, lastFor_of_nodup Row.key (finalSnapshots_key_parts fs).2.1
        (List.mem_map_of_mem hc), Option.some_or]

/-- After a flush of the wallets, every wallet ends with its entry. -/
theorem last_wallet (h : Issues fs raws log) (addr : String) :
    lastFor Row.key (log ++ walletRows (after fs)) (.wallet addr) =
      settled raws fs (.wallet addr) := by
  have hnodup : ((walletRows (after fs)).map Row.key).Nodup := by
    have hkeys := (after fs).wallets.keys_nodup.map (f := RowKey.wallet)
      (fun a b heq => RowKey.wallet.inj heq)
    rw [Dict.keys, List.map_map] at hkeys
    rw [walletRows, List.map_map]
    exact hkeys
  rw [settled]
  cases hget : (after fs).wallets.get? addr with
  | some w =>
    have hmem : walletRow addr w ∈ walletRows (after fs) :=
      List.mem_map.mpr ⟨(addr, w), (Dict.mem_items_iff _ _ _).mpr hget, rfl⟩
    have hlast := lastFor_of_nodup Row.key hnodup hmem
    rw [walletRow_key] at hlast
    rw [lastFor_append, hlast, Option.some_or, Option.map_some]
  | none =>
    -- a wallet that was ever written has a fill, and is still in the map
    rw [Option.map_none, lastFor_eq_none_iff]
    intro row hrow hkey
    obtain ⟨p, hp, hdesc⟩ := h.wallets.inOrder.describes row hrow
    cases row with
    | wallet r =>
      obtain ⟨w, hw, _⟩ := hdesc
      obtain rfl : r.addr = addr := RowKey.wallet.inj hkey
      rw [FeatureEngine.after_wallets_get?] at hw hget
      have hsub : (group Fill.addr r.addr p).Sublist (group Fill.addr r.addr fs) :=
        hp.sublist.filter _
      by_cases hnil : group Fill.addr r.addr fs = []
      · rw [hnil, List.sublist_nil] at hsub
        rw [if_pos hsub] at hw
        cases hw
      · rw [if_neg hnil] at hget
        cases hget
    | walletCoin r => cases hkey
    | coinWindow r => cases hkey
    | fillBucket r => cases hkey
    | fillHot r => cases hkey

/-- The raw-fill tables depend on the raw rows alone. -/
theorem last_raw (h : Issues fs raws log) {key : RowKey} (hkey : key.IsRaw) :
    lastFor Row.key log key = lastFor Row.key raws key := by
  induction h with
  | start => rfl
  | fill _ f ih =>
    rw [lastFor_append_of_ne, ih]
    intro r hr
    rcases List.mem_append.mp hr with hr | hr
    · intro heq
      rw [← heq, List.mem_singleton.mp hr] at hkey
      exact hkey
    · exact key_ne_of_coinWindow hkey.ne_coinWindow _ r hr
  | raw _ row _ ih => rw [lastFor_append, lastFor_append, ih]
  | openWindows _ ih =>
    rw [openWindowRows, lastFor_append_of_ne _ (key_ne_of_coinWindow hkey.ne_coinWindow _), ih]
  | wallets _ ih => rw [lastFor_append_of_ne _ (key_ne_of_wallet hkey.ne_wallet _), ih]

/-- **What an ingest leaves that ends with a flush of the open windows.** -/
theorem settled_of_openWindows (h : Issues fs raws log) {key : RowKey}
    (hkey : ∀ addr, key ≠ .wallet addr) :
    lastFor Row.key (log ++ openWindowRows (after fs)) key = settled raws fs key := by
  cases key with
  | walletCoin addr coin => exact h.openWindows.last_walletCoin addr coin
  | coinWindow coin win t => exact h.last_coinWindow coin win t
  | wallet addr => exact absurd rfl (hkey addr)
  | fillBucket coin timeBucket t addr => exact h.openWindows.last_raw trivial
  | fillHot coin t addr => exact h.openWindows.last_raw trivial

/-- **What an ingest leaves that ends with a full flush.** -/
theorem settled_of_flush (h : Issues fs raws log) (key : RowKey) :
    lastFor Row.key (log ++ flushWalletsAndOpenWindows (after fs)) key = settled raws fs key := by
  rw [flushWalletsAndOpenWindows, ← List.append_assoc]
  by_cases hkey : ∃ addr, key = .wallet addr
  · obtain ⟨addr, rfl⟩ := hkey
    exact h.openWindows.last_wallet addr
  · have hne : ∀ addr, key ≠ .wallet addr := fun addr heq => hkey ⟨addr, heq⟩
    rw [lastFor_append_of_ne _ (key_ne_of_wallet hne _), h.settled_of_openWindows hne]

end Issues

theorem Consumer.run_issues (args : Args) (start : ℚ) (inputs : List (Fill × ℚ)) :
    Issues (inputs.map Prod.fst) ((inputs.map Prod.fst).flatMap (rawRows args.rawSink))
      (run args start inputs) := by
  rw [run, loop_engine, flushWalletsAndOpenWindows, ← List.append_assoc]
  exact (loop_issues args start inputs).openWindows.wallets

/-- The last row of every key that the consumer writes. -/
theorem Consumer.lastFor_run (args : Args) (start : ℚ) (inputs : List (Fill × ℚ)) (key : RowKey) :
    lastFor Row.key (run args start inputs) key =
      settled ((inputs.map Prod.fst).flatMap (rawRows args.rawSink)) (inputs.map Prod.fst) key := by
  rw [run, loop_engine]
  exact (loop_issues args start inputs).settled_of_flush key

/-- The last row of every key that the dashboard's ingest writes. -/
theorem Ingest.lastFor_run (now0 : ℚ) (inputs : List (Fill × ℚ)) {key : RowKey}
    (hkey : ∀ addr, key ≠ .wallet addr) :
    lastFor Row.key (run now0 inputs) key = settled [] (inputs.map Prod.fst) key := by
  rw [run, loop_engine]
  exact (loop_issues now0 inputs).settled_of_openWindows hkey

end FeatureStore
