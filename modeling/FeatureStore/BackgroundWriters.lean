/-
  FeatureStore/BackgroundWriters.lean
  ===================================
  **The blasters and the features.**

  The ingest and the blasters upsert the same keys of `wallet_coin_features`,
  and the last upsert that was issued for a key stays.  The ingest writes the
  state of its engine, a blaster the columns of one fill with the number of its
  own write as the fill count.  So the features survive exactly when the last
  upsert of each key is the ingest's, or a blaster's that happens to say the
  same (`background_writers_iff`).  The upserts of the blasters are not
  idempotent (`blasters_change_features`).
-/
import FeatureStore.Blaster
import FeatureStore.OpenLots
import FeatureStore.TableAgreement

namespace FeatureStore

open FeatureEngine (after)
open Grouping (group)
open LastWriter (Drained Store rowAt lastFor)

/-! ### What a (wallet, coin) entry says about its fills -/

namespace WalletCoinState

theorem foldl_update_fillCount (s : WalletCoinState) (fs : List Fill) :
    (fs.foldl update s).fillCount = s.fillCount + fs.length := by
  induction fs generalizing s with
  | nil => rfl
  | cons f fs ih =>
    rw [List.foldl_cons, ih, List.length_cons, Nat.add_comm fs.length 1, ← Nat.add_assoc]
    rfl

theorem foldl_update_lastTs (s : WalletCoinState) {fs : List Fill} {last : Fill}
    (h : fs.getLast? = some last) : (fs.foldl update s).lastTs = last.tsMs := by
  obtain ⟨before, rfl⟩ := List.getLast?_eq_some_iff.mp h
  rw [List.foldl_append]
  rfl

end WalletCoinState

/-- One fill, with a count, is all that the fills of a (wallet, coin) come to: its
    size is the sum of theirs, its price the mean price of the lots that they have
    left open (or left open last), and so on. -/
structure IsWholePosition (fills : List Fill) (f : Fill) (fc : ℕ) : Prop where
  net : f.signedSz = (fills.map Fill.signedSz).sum
  entry : f.px = entryPrice 0 0 fills
  pnl : f.closedPnl = (fills.map Fill.closedPnl).sum
  count : fc = fills.length
  last : some f.tsMs = fills.getLast?.map Fill.tsMs

/-- A blaster's row is the row of an entry exactly when its fill is the whole
    position. -/
theorem write_eq_walletCoinRow_iff {addr coin : String} {f : Fill} {fc : ℕ} {fills : List Fill}
    (hkey : ((BlastRow.load f).write fc).key = .walletCoin addr coin) (hne : fills ≠ []) :
    (BlastRow.load f).write fc = walletCoinRow addr coin (fills.foldl WalletCoinState.update {}) ↔
      IsWholePosition fills f fc := by
  obtain ⟨rfl, rfl⟩ := RowKey.walletCoin.inj hkey
  obtain ⟨last, hlast⟩ := Option.isSome_iff_exists.mp (List.getLast?_isSome.mpr hne)
  have hnet := WalletCoinState.foldl_update_netPos {} fills
  have hpnl := WalletCoinState.foldl_update_realizedPnl {} fills
  have hcount := WalletCoinState.foldl_update_fillCount {} fills
  have hts := WalletCoinState.foldl_update_lastTs {} hlast
  rw [zero_add] at hnet hpnl hcount
  have hentry : (fills.foldl WalletCoinState.update {}).avgEntry = entryPrice 0 0 fills :=
    avgEntry_eq_entryPrice {} fills
  have hload : (BlastRow.load f).net = f.signedSz := rfl
  have hrow : (BlastRow.load f).write fc =
      walletCoinRow f.addr f.coin (fills.foldl WalletCoinState.update {}) ↔
        f.signedSz = (fills.map Fill.signedSz).sum ∧
        f.px = entryPrice 0 0 fills ∧ f.closedPnl = (fills.map Fill.closedPnl).sum ∧
        fc = fills.length ∧ f.tsMs = last.tsMs := by
    simp only [BlastRow.write, walletCoinRow, Row.walletCoin.injEq, WalletCoinRow.mk.injEq, hload,
      hnet, hentry, hpnl, hcount, hts]
    simp [BlastRow.load, ts]
  have hlastTs : some f.tsMs = fills.getLast?.map Fill.tsMs ↔ f.tsMs = last.tsMs := by
    rw [hlast, Option.map_some, Option.some.injEq]
  refine hrow.trans ?_
  constructor
  · rintro ⟨hnet', hentry', hpnl', hcount', hts'⟩
    exact ⟨hnet', hentry', hpnl', hcount', hlastTs.mpr hts'⟩
  · rintro ⟨hnet', hentry', hpnl', hcount', hts'⟩
    exact ⟨hnet', hentry', hpnl', hcount', hlastTs.mp hts'⟩

/-! ### Interleavings -/

/-- Who has issued a row. -/
inductive Origin where
  | ingest
  | blaster (wid : ℕ)
deriving DecidableEq

/-- The blaster processes, with the readings each has made so far. -/
structure Fleet where
  baseline : ℕ -- `BLASTERS`
  nblast : ℕ -- `BLASTERS + BURST_BLASTERS`
  start : ℕ → ℚ
  readings : ℕ → List (ℚ × Bool)

/-- What a worker has issued. -/
def Fleet.issued (fleet : Fleet) (files : DayFiles) (wid : ℕ) : List Row :=
  if wid < fleet.nblast then
    (Blaster.run (fleet.baseline ≤ wid) (blasterRows wid fleet.nblast files) (fleet.start wid)
      (fleet.readings wid)).issued
  else []

/-- A log of upserts that holds what every process has issued, in its order. -/
structure Interleaves (log : List (Origin × Row)) (ingest : List Row) (blasters : ℕ → List Row) :
    Prop where
  ingest : (group Prod.fst Origin.ingest log).map Prod.snd = ingest
  blaster : ∀ wid, (group Prod.fst (Origin.blaster wid) log).map Prod.snd = blasters wid

namespace Interleaves

variable {log : List (Origin × Row)} {issued : List Row} {blasters : ℕ → List Row}

theorem exists_last (h : Interleaves log issued blasters) {key : RowKey}
    (hkey : key ∈ issued.map Row.key) :
    ∃ entry, lastFor (fun e : Origin × Row => e.2.key) log key = some entry := by
  obtain ⟨row, hrow, rfl⟩ := List.mem_map.mp hkey
  rw [← h.ingest] at hrow
  obtain ⟨e, he, rfl⟩ := List.mem_map.mp hrow
  have hlog : e ∈ log := (Grouping.group_sublist _ _ _).subset he
  exact Option.ne_none_iff_exists'.mp fun hnone =>
    (LastWriter.lastFor_eq_none_iff _).mp hnone e hlog rfl

/-- A last upsert of the ingest is the last that the ingest has issued. -/
theorem lastFor_ingest (h : Interleaves log issued blasters) {key : RowKey} {entry : Origin × Row}
    (hentry : lastFor (fun e : Origin × Row => e.2.key) log key = some entry)
    (horigin : entry.1 = .ingest) : lastFor Row.key issued key = some entry.2 := by
  have hpart := LastWriter.lastFor_group (fun e : Origin × Row => e.2.key) Prod.fst hentry
  rw [horigin] at hpart
  rw [← h.ingest, LastWriter.lastFor_map, hpart, Option.map_some]

theorem mem_blaster (h : Interleaves log issued blasters) {entry : Origin × Row} {wid : ℕ}
    (hentry : entry ∈ log) (horigin : entry.1 = .blaster wid) : entry.2 ∈ blasters wid := by
  rw [← h.blaster]
  exact List.mem_map.mpr ⟨entry, (Grouping.mem_group _).mpr ⟨hentry, horigin⟩, rfl⟩

end Interleaves

/-- Every row of a blaster is that of a fill of the files. -/
theorem Fleet.exists_of_mem_issued {fleet : Fleet} {files : DayFiles} {wid : ℕ} {row : Row}
    (h : row ∈ fleet.issued files wid) : ∃ f fc, row = (BlastRow.load f).write fc := by
  unfold Fleet.issued at h
  split at h
  · obtain ⟨i, hi⟩ := List.mem_iff_getElem?.mp h
    obtain ⟨r, hr, rfl⟩ := (Blaster.run_inv _ _ _ _).issued i row hi
    obtain ⟨entry, _, rfl⟩ := List.mem_map.mp hr
    exact ⟨entry.1, i + 1, rfl⟩
  · cases h

/-- Every row that the ingest has written is the state of the engine. -/
def FeaturesIntact (fs : List Fill) (issued : List Row) (s : Store RowKey Row) : Prop :=
  ∀ addr coin, RowKey.walletCoin addr coin ∈ issued.map Row.key →
    ∃ wc, (after fs).wc.get? (addr, coin) = some wc ∧
      rowAt s (.walletCoin addr coin) = some (walletCoinRow addr coin wc)

/-- What the ingest has issued at the end of a trip through its loop, or in all. -/
def Ingest.HasIssued (now0 : ℚ) (inputs : List (Fill × ℚ)) (issued : List Row) : Prop :=
  issued = (loop now0 inputs).issued ∨ issued = run now0 inputs

theorem Ingest.HasIssued.lastFor_walletCoin {now0 : ℚ} {inputs : List (Fill × ℚ)}
    {issued : List Row} (h : HasIssued now0 inputs issued) (addr coin : String) :
    lastFor Row.key issued (.walletCoin addr coin) =
      ((after (inputs.map Prod.fst)).wc.get? (addr, coin)).map (walletCoinRow addr coin) := by
  rcases h with rfl | rfl
  · exact (loop_issues now0 inputs).last_walletCoin addr coin
  · exact lastFor_run now0 inputs fun _ => RowKey.noConfusion

/-- **When background writers leave the features alone.**  For every run of the
    ingest, every fleet of blasters over any day files and every interleaving of
    their upserts: when all issued upserts have arrived, the rows that the ingest
    has written are the engine's exactly when the last upsert of each of them was
    issued by the ingest, or by a blaster for a fill that happens to be the whole
    position, in a write whose number happens to be the number of fills. -/
theorem background_writers_iff (now0 : ℚ) (inputs : List (Fill × ℚ)) (issued : List Row)
    (hissued : Ingest.HasIssued now0 inputs issued) (fleet : Fleet) (files : DayFiles)
    (log : List (Origin × Row)) (hlog : Interleaves log issued (fleet.issued files)) (base : ℕ)
    (before final : Store RowKey Row) (h : Drained Row.key base (log.map Prod.snd) before final) :
    FeaturesIntact (inputs.map Prod.fst) issued final ↔
    ∀ addr coin, RowKey.walletCoin addr coin ∈ issued.map Row.key →
      ∀ entry, lastFor (fun e : Origin × Row => e.2.key) log (.walletCoin addr coin) = some entry →
        entry.1 = .ingest ∨ ∃ f fc, entry.2 = (BlastRow.load f).write fc ∧
          IsWholePosition (group (fun f : Fill => (f.addr, f.coin)) (addr, coin)
            (inputs.map Prod.fst)) f fc := by
  refine forall_congr' fun addr => forall_congr' fun coin => imp_congr_right fun hkey => ?_
  -- the ingest has written the key, so that the engine has the entry
  have hown := hissued.lastFor_walletCoin addr coin
  obtain ⟨own, hownrow⟩ := Option.isSome_iff_exists.mp (mem_keys_iff_lastFor.mp hkey)
  obtain ⟨wc, hwc, rfl⟩ := Option.map_eq_some_iff.mp (hown.symm.trans hownrow)
  have hfold := hwc
  rw [FeatureEngine.after_wc_get?] at hfold
  obtain ⟨hne, hfold⟩ := Option.ite_none_left_eq_some.mp hfold
  -- and the log has a last upsert of the key, which is what the store ends with
  obtain ⟨entry, hentry⟩ := hlog.exists_last hkey
  have hentrykey : entry.2.key = .walletCoin addr coin := (LastWriter.mem_of_lastFor _ hentry).2
  have hfinal : rowAt final (.walletCoin addr coin) = some entry.2 := by
    rw [h.rowAt_eq, LastWriter.lastFor_map, hentry, Option.map_some, Option.some_or]
  have hintact : (∃ wc', (after (inputs.map Prod.fst)).wc.get? (addr, coin) = some wc' ∧
      rowAt final (.walletCoin addr coin) = some (walletCoinRow addr coin wc')) ↔
      entry.2 = walletCoinRow addr coin wc := by
    rw [hfinal, hwc]
    simp
  have hwhole : ∀ f fc, entry.2 = (BlastRow.load f).write fc →
      (entry.2 = walletCoinRow addr coin wc ↔ IsWholePosition
        (group (fun f : Fill => (f.addr, f.coin)) (addr, coin) (inputs.map Prod.fst)) f fc) := by
    intro f fc hwrite
    rw [hwrite, ← Option.some.inj hfold]
    exact write_eq_walletCoinRow_iff (hwrite ▸ hentrykey) hne
  rw [hintact]
  constructor
  · intro heq entry' hentry'
    obtain rfl := Option.some.inj (hentry.symm.trans hentry')
    cases horigin : entry.1 with
    | ingest => exact Or.inl rfl
    | blaster wid =>
      have hmem := hlog.mem_blaster (LastWriter.mem_of_lastFor _ hentry).1 horigin
      obtain ⟨f, fc, hwrite⟩ := Fleet.exists_of_mem_issued hmem
      exact Or.inr ⟨f, fc, hwrite, (hwhole f fc hwrite).mp heq⟩
  · intro hlast
    rcases hlast entry hentry with horigin | ⟨f, fc, hwrite, hpos⟩
    · have hingest := hlog.lastFor_ingest hentry horigin
      exact Option.some.inj (hingest.symm.trans hownrow)
    · exact (hwhole f fc hwrite).mpr hpos

/-! ### One blaster -/

/-- The rows of one process, labelled. -/
def labelled (origin : Origin) (rows : List Row) : List (Origin × Row) :=
  rows.map fun row => (origin, row)

theorem group_labelled (origin origin' : Origin) (rows : List Row) :
    (group Prod.fst origin' (labelled origin rows)).map Prod.snd =
      if origin = origin' then rows else [] := by
  induction rows with
  | nil => simp [labelled]
  | cons row rows ih =>
    unfold labelled at ih ⊢
    rw [List.map_cons, Grouping.group_cons]
    by_cases horigin : origin = origin'
    · rw [if_pos horigin] at ih ⊢
      rw [if_pos horigin, List.map_cons, ih]
    · rw [if_neg horigin] at ih ⊢
      rw [if_neg horigin, ih]

theorem group_labelled_append (first second origin : Origin) (rows more : List Row) :
    (group Prod.fst origin (labelled first rows ++ labelled second more)).map Prod.snd =
      (if first = origin then rows else []) ++ (if second = origin then more else []) := by
  rw [Grouping.group_append, List.map_append, group_labelled, group_labelled]

/-- The ingest first and then the only blaster, or the other way round. -/
theorem interleaves_one_blaster (issued : List Row) {fleet : Fleet} (hone : fleet.nblast = 1)
    (files : DayFiles) :
    Interleaves (labelled .ingest issued ++ labelled (.blaster 0) (fleet.issued files 0)) issued
      (fleet.issued files) ∧
    Interleaves (labelled (.blaster 0) (fleet.issued files 0) ++ labelled .ingest issued) issued
      (fleet.issued files) := by
  have hrest : ∀ wid, (if Origin.blaster 0 = Origin.blaster wid then fleet.issued files 0 else []) =
      fleet.issued files wid := by
    intro wid
    by_cases hwid : wid = 0
    · rw [hwid, if_pos rfl]
    · have hne : ¬Origin.blaster 0 = Origin.blaster wid := fun heq =>
        hwid (Origin.blaster.inj heq).symm
      have hlarge : ¬wid < fleet.nblast := by omega
      rw [if_neg hne, Fleet.issued, if_neg hlarge]
  have hne : ∀ wid, ¬Origin.ingest = Origin.blaster wid := fun _ => Origin.noConfusion
  have hne' : ¬Origin.blaster 0 = Origin.ingest := Origin.noConfusion
  refine ⟨⟨?_, ?_⟩, ⟨?_, ?_⟩⟩
  · rw [group_labelled_append, if_pos rfl, if_neg hne', List.append_nil]
  · intro wid
    rw [group_labelled_append, if_neg (hne wid), List.nil_append, hrest]
  · rw [group_labelled_append, if_pos rfl, if_neg hne', List.nil_append]
  · intro wid
    rw [group_labelled_append, if_neg (hne wid), List.append_nil, hrest]

/-- One wallet buys twice. -/
def twoBuys : List Fill :=
  [⟨"w", "BTC", 100, 1, .B, 0, 0, true⟩, ⟨"w", "BTC", 100, 1, .B, 1000, 0, true⟩]

/-- One blaster that has started a pass and written one row. -/
def oneWrite : Fleet where
  baseline := 1
  nblast := 1
  start := fun _ => 0
  readings := fun _ => [(0, false), (0, false)]

/-- After the ingest is done, the blaster replaces the position by one of its
    fills. -/
theorem blasters_change_features :
    ¬∀ (files : DayFiles) (now0 : ℚ) (inputs : List (Fill × ℚ)) (issued : List Row) (fleet : Fleet)
      (log : List (Origin × Row)) (base : ℕ) (before final : Store RowKey Row),
      files.Replays (inputs.map Prod.fst) → Ingest.HasIssued now0 inputs issued →
      Interleaves log issued (fleet.issued files) →
      Drained Row.key base (log.map Prod.snd) before final →
      FeaturesIntact (inputs.map Prod.fst) issued final := by
  intro h
  have hreplays : DayFiles.Replays [twoBuys] twoBuys :=
    ⟨[twoBuys], .cons ⟨List.Perm.refl _, by decide⟩ .nil, rfl⟩
  have hintact := h [twoBuys] 0 (twoBuys.map fun f => (f, 0)) _ oneWrite _ 0 _ _ hreplays
    (Or.inr rfl) (interleaves_one_blaster _ rfl _).1
    (LastWriter.drained_emptyStore Row.key (List.Perm.refl _))
  obtain ⟨wc, hwc, hrow⟩ := hintact "w" "BTC" (by decide +kernel)
  have hstored : rowAt (LastWriter.applyAll Row.key LastWriter.emptyStore
      (LastWriter.stampFrom 0 ((labelled .ingest (Ingest.run 0 (twoBuys.map fun f => (f, 0))) ++
        labelled (.blaster 0) (oneWrite.issued [twoBuys] 0)).map Prod.snd)))
      (.walletCoin "w" "BTC") =
        some ((BlastRow.load ⟨"w", "BTC", 100, 1, .B, 0, 0, true⟩).write 1) := by
    decide +kernel
  have hstate : (after ((twoBuys.map fun f => (f, (0 : ℚ))).map Prod.fst)).wc.get? ("w", "BTC") =
      some ⟨2, 100, 0, 2, 1000⟩ := by decide +kernel
  rw [hstate, Option.some.injEq] at hwc
  rw [hstored, ← hwc] at hrow
  revert hrow
  decide +kernel

/-- When the blaster comes first, the ingest has the last word. -/
theorem background_writers_iff_ingest_last :
    FeaturesIntact ((twoBuys.map fun f => (f, (0 : ℚ))).map Prod.fst)
      (Ingest.run 0 (twoBuys.map fun f => (f, 0)))
      (LastWriter.applyAll Row.key LastWriter.emptyStore (LastWriter.stampFrom 0
        ((labelled (.blaster 0) (oneWrite.issued [twoBuys] 0) ++
          labelled .ingest (Ingest.run 0 (twoBuys.map fun f => (f, 0)))).map Prod.snd))) := by
  refine (background_writers_iff 0 (twoBuys.map fun f => (f, 0)) _ (Or.inr rfl) oneWrite [twoBuys] _
    (interleaves_one_blaster _ rfl _).2 0 LastWriter.emptyStore _
    (LastWriter.drained_emptyStore Row.key (List.Perm.refl _))).mpr ?_
  intro addr coin hkey entry hentry
  left
  -- the last upsert of the key is one of the ingest's
  obtain ⟨row, hrow, hrowkey⟩ := List.mem_map.mp hkey
  rw [LastWriter.lastFor_append] at hentry
  cases hlast : lastFor (fun e : Origin × Row => e.2.key)
      (labelled .ingest (Ingest.run 0 (twoBuys.map fun f => (f, 0)))) (.walletCoin addr coin) with
  | none =>
    exact absurd hrowkey ((LastWriter.lastFor_eq_none_iff _).mp hlast (.ingest, row)
      (List.mem_map.mpr ⟨row, hrow, rfl⟩))
  | some last =>
    rw [hlast, Option.some_or, Option.some.injEq] at hentry
    obtain ⟨row', _, rfl⟩ := List.mem_map.mp (LastWriter.mem_of_lastFor _ hlast).1
    rw [← hentry]

end FeatureStore
