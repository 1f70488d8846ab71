/-
  FeatureStore/FreshReads.lean
  ============================
  **What the serving read returns.**

  `coin_window_features` is a clustered table, and `READ_COIN_WINDOW_LATEST` its
  first row.  When everything that the ingest has issued up to a flush of the
  open windows has arrived, the first row of a partition is the open snapshot of
  that flush: the open bucket starts after every bucket that was closed, and the
  flush issued the last row of its key (`read_of_flush`).  At any other moment
  reads may lag, but never go back (`read_take_mono`).
-/
import FeatureStore.Clustered
import FeatureStore.TableAgreement

namespace FeatureStore

open Clustered (Table emptyTable)
open FeatureEngine (after finalSnapshots)
open Grouping (group)
open LastWriter (stampFrom lastFor rowAt emptyStore)

/-! ### The table and its read -/

/-- The partition and the clustering column of a row of `coin_window_features`. -/
def coinWindowPlace : Row → Option ((String × Window) × ℤ)
  | .coinWindow r => some ((r.coin, r.window), r.bucketTs)
  | _ => none

/-- `coin_window_features` after the writes have arrived at the truncated table. -/
def coinWindowTable (ws : List (Write Row)) : Table (String × Window) ℤ Row :=
  Clustered.applyAll coinWindowPlace emptyTable ws

/-- `READ_COIN_WINDOW_LATEST`: the first row of a partition, `LIMIT 1`. -/
def readCoinWindowLatest (table : Table (String × Window) ℤ Row) (coin : String) (win : Window) :
    Option Row :=
  (table (coin, win)).first?

theorem coinWindowPlace_eq_some_iff (row : Row) (p : String × Window) (t : ℤ) :
    coinWindowPlace row = some (p, t) ↔ row.key = .coinWindow p.1 p.2 t := by
  obtain ⟨coin, win⟩ := p
  cases row <;> simp [coinWindowPlace, Row.key, and_assoc]

/-! ### Flushes -/

/-- A flush of the open windows after the given fills, with everything that has
    been issued up to its end: a flush of the loop, or the final one. -/
inductive Ingest.Flushes (now0 : ℚ) : List (Fill × ℚ) → List Row → Prop
  | due {before : List (Fill × ℚ)} {f : Fill} {now : ℚ}
      (h : now - (loop now0 before).lastFlush ≥ 0.25) :
      Flushes now0 (before ++ [(f, now)]) (loop now0 (before ++ [(f, now)])).issued
  | final (inputs : List (Fill × ℚ)) : Flushes now0 inputs (run now0 inputs)

/-- What has been issued by the end of a flush ends with the open windows. -/
theorem Ingest.Flushes.exists_issues {now0 : ℚ} {inputs : List (Fill × ℚ)} {log : List Row}
    (h : Flushes now0 inputs log) :
    ∃ issued, Issues (inputs.map Prod.fst) [] issued ∧
      log = issued ++ openWindowRows (after (inputs.map Prod.fst)) := by
  cases h with
  | @due before f now hdue =>
    rw [List.map_append, List.map_singleton]
    refine ⟨_, (loop_issues now0 before).fill f, ?_⟩
    rw [loop_snoc, FeatureEngine.after_snoc]
    simp only [step, loop_engine, if_pos hdue, fillRows, List.append_assoc]
    rfl
  | final =>
    refine ⟨_, loop_issues now0 inputs, ?_⟩
    rw [run, loop_engine]
    rfl

/-! ### Reads after a flush -/

/-- No last snapshot of a (coin, window) starts after the open one. -/
theorem bucketTs_le_of_mem_finalSnapshots {fs : List Fill} {coin : String} {win : Window}
    {s s' : Snapshot} (hs : (coin, win, s) ∈ (after fs).openSnapshots)
    (hs' : (coin, win, s') ∈ finalSnapshots fs) : s'.bucketTs ≤ s.bucketTs := by
  obtain ⟨bucket, hbucket, rfl⟩ := FeatureEngine.mem_openSnapshots.mp hs
  obtain ⟨bucket', hmem, _, rfl⟩ := FeatureEngine.exists_bucket_of_mem_finalSnapshots hs'
  rcases List.mem_append.mp (FeatureEngine.mem_buckets.mp hmem) with hclosed | hopen
  · exact le_of_lt (win.tumbling.closed_lt_current hbucket hclosed)
  · rw [hbucket] at hopen
    obtain rfl := Option.some.inj (Option.mem_toList.mp hopen)
    exact le_refl _

/-- A row that an ingest leaves for a window is that of a last snapshot. -/
theorem exists_of_settled_coinWindow {raws : List Row} {fs : List Fill} {coin : String}
    {win : Window} {t : ℤ} {row : Row}
    (h : settled raws fs (.coinWindow coin win t) = some row) :
    ∃ s, (coin, win, s) ∈ finalSnapshots fs ∧ ts (s.bucketTs * 1000) = t := by
  obtain ⟨hrow, hkey⟩ := LastWriter.mem_of_lastFor Row.key h
  obtain ⟨⟨coin', win', s⟩, hs, rfl⟩ := List.mem_map.mp hrow
  obtain ⟨rfl, rfl, ht⟩ := RowKey.coinWindow.inj hkey
  exact ⟨s, hs, ht⟩

/-- A read of a table in which every window has its last row returns the open
    snapshot, and nothing when the (coin, window) has no open bucket. -/
theorem read_of_settled (raws : List Row) {fs : List Fill} {ws : List (Write Row)}
    {coin : String} {win : Window}
    (hrowAt : ∀ t, rowAt (LastWriter.applyAll Row.key emptyStore ws) (.coinWindow coin win t) =
      settled raws fs (.coinWindow coin win t)) :
    readCoinWindowLatest (coinWindowTable ws) coin win =
      ((after fs).openSnapshot? coin win).map fun s => coinWindowRow (coin, win, s) := by
  cases hopen : (after fs).openSnapshot? coin win with
  | some s =>
    have hs := FeatureEngine.openSnapshot?_eq_some_iff.mp hopen
    have hkey := settled_coinWindow_of_mem raws (List.mem_append_right _ hs)
    refine Clustered.first?_applyAll_eq_some coinWindowPlace_eq_some_iff
      (c := ts (s.bucketTs * 1000)) ?_ ?_
    · rw [hrowAt]
      exact hkey
    · intro t' row' hrow'
      rw [hrowAt] at hrow'
      obtain ⟨s', hs', rfl⟩ := exists_of_settled_coinWindow hrow'
      have hle := bucketTs_le_of_mem_finalSnapshots hs hs'
      exact Int.mul_le_mul_of_nonneg_right hle (by decide)
  | none =>
    refine Clustered.first?_applyAll_eq_none coinWindowPlace_eq_some_iff ?_
    intro t
    rw [hrowAt]
    -- without fills of the coin there is no bucket, open or closed
    by_contra hne
    obtain ⟨row, hrow⟩ := Option.ne_none_iff_exists'.mp hne
    obtain ⟨s, hs, _⟩ := exists_of_settled_coinWindow hrow
    obtain ⟨bucket, hbucket, _⟩ := FeatureEngine.exists_bucket_of_mem_finalSnapshots hs
    rw [FeatureEngine.openSnapshot?, Option.map_eq_none_iff, FeatureEngine.after_open_get?,
      Tumbling.current_eq_none_iff] at hopen
    have hmem := FeatureEngine.mem_buckets.mp hbucket
    rw [hopen] at hmem
    cases hmem

/-- **A read after a flush** returns the open snapshot of that flush, and nothing
    when the (coin, window) has no open bucket. -/
theorem read_of_flush {now0 : ℚ} {inputs : List (Fill × ℚ)} {log : List Row}
    (h : Ingest.Flushes now0 inputs log) {base : ℕ} {ws : List (Write Row)}
    (hws : ws.Perm (stampFrom base log)) (coin : String) (win : Window) :
    readCoinWindowLatest (coinWindowTable ws) coin win =
      ((after (inputs.map Prod.fst)).openSnapshot? coin win).map
        fun s => coinWindowRow (coin, win, s) := by
  obtain ⟨issued, hissues, rfl⟩ := h.exists_issues
  refine read_of_settled [] ?_
  intro t
  rw [(LastWriter.drained_emptyStore Row.key hws).rowAt_eq,
    hissues.settled_of_openWindows (fun _ => RowKey.noConfusion)]
  exact Option.or_none

/-! ### Successive reads -/

/-- **Reads never go back.**  Whatever has arrived, in whatever order, a later
    read of the same (coin, window) returns a bucket that starts no earlier. -/
theorem read_take_mono (ws : List (Write Row)) {i j : ℕ} (hij : i ≤ j) {coin : String}
    {win : Window} {row : Row}
    (h : readCoinWindowLatest (coinWindowTable (ws.take i)) coin win = some row) :
    ∃ row' t t', readCoinWindowLatest (coinWindowTable (ws.take j)) coin win = some row' ∧
      row.key = .coinWindow coin win t ∧ row'.key = .coinWindow coin win t' ∧ t ≤ t' := by
  have hkeyOf : ∀ {l : List (Write Row)} {t : ℤ} {w : Write Row},
      (coinWindowTable l (coin, win)).get? t = some w → w.row.key = .coinWindow coin win t := by
    intro l t w hget
    rw [coinWindowTable, Clustered.get?_applyAll coinWindowPlace_eq_some_iff] at hget
    exact (LastWriter.applyAll_emptyStore Row.key hget).2
  obtain ⟨t, w, hget, rfl, _⟩ := Clustered.Partition.first?_eq_some_iff.mp h
  obtain ⟨more, hmore⟩ : ws.take i <+: ws.take j := List.take_prefix_take_left hij
  obtain ⟨row', t', w', hfirst, hget', rfl, hle⟩ :=
    Clustered.first?_applyAll coinWindowPlace hget more
  have htable : Clustered.applyAll coinWindowPlace (coinWindowTable (ws.take i)) more =
      coinWindowTable (ws.take j) := by
    rw [coinWindowTable, ← Clustered.applyAll_append, hmore]
    rfl
  rw [htable] at hfirst hget'
  exact ⟨w'.row, t, t', hfirst, hkeyOf hget, hkeyOf hget', hle⟩

/-- **Serving reads are fresh.**  For every stream of fills and clock readings of
    the dashboard's ingest, over a truncated table:

    * when everything issued up to the end of a flush has arrived, in any order,
      a read returns exactly the engine's open snapshot of that flush, and
      nothing for a (coin, window) that is not open;
    * while writes arrive, in any order and any number of them, the bucket that
      successive reads of one (coin, window) return never moves back. -/
theorem fresh_reads (now0 : ℚ) (base : ℕ) :
    (∀ inputs log, Ingest.Flushes now0 inputs log → ∀ ws, ws.Perm (stampFrom base log) →
      ∀ coin win, readCoinWindowLatest (coinWindowTable ws) coin win =
        ((after (inputs.map Prod.fst)).openSnapshot? coin win).map
          fun s => coinWindowRow (coin, win, s)) ∧
    (∀ (ws : List (Write Row)) (i j : ℕ), i ≤ j → ∀ coin win row,
      readCoinWindowLatest (coinWindowTable (ws.take i)) coin win = some row →
      ∃ row' t t', readCoinWindowLatest (coinWindowTable (ws.take j)) coin win = some row' ∧
        row.key = .coinWindow coin win t ∧ row'.key = .coinWindow coin win t' ∧ t ≤ t') :=
  ⟨fun _ _ h _ hws coin win => read_of_flush h hws coin win,
    fun ws _ _ hij _ _ _ h => read_take_mono ws hij h⟩

/-- The first `i` writes, and those from the `j`-th on in the reverse of their order. -/
def torn (i j : ℕ) (ws : List (Write Row)) : List (Write Row) := ws.take i ++ (ws.drop j).reverse

theorem mem_of_mem_torn {i j : ℕ} {ws : List (Write Row)} {w : Write Row} (h : w ∈ torn i j ws) :
    w ∈ ws := by
  rcases List.mem_append.mp h with h | h
  · exact List.mem_of_mem_take h
  · exact List.mem_of_mem_drop (List.mem_reverse.mp h)

theorem torn_perm (i : ℕ) (ws : List (Write Row)) : (torn i i ws).Perm ws := by
  have hrest := (List.reverse_perm (ws.drop i)).append_left (ws.take i)
  rwa [List.take_append_drop] at hrest

/-- A fill a minute. -/
def minutely : List (Fill × ℚ) :=
  [(⟨"w", "BTC", 100, 2, .B, 65000, 0, true⟩, 1), (⟨"w", "BTC", 100, 1, .B, 125000, 0, true⟩, 61)]

/-- A fill in each of two minutes.  The writes after the first flush arrive in the reverse
    of their order. -/
theorem fresh_reads_two_minutes :
    let ws := torn 4 4 (stampFrom 0 (Ingest.run 0 minutely))
    readCoinWindowLatest (coinWindowTable ws) "BTC" .m1 =
      some (coinWindowRow ("BTC", .m1, ⟨120, 100, 100, 0, 1, 1, 1, 0, 25⟩)) ∧
    ∃ row' t', readCoinWindowLatest (coinWindowTable (ws.take 12)) "BTC" .m1 = some row' ∧
      row'.key = .coinWindow "BTC" .m1 t' ∧ 60000 ≤ t' := by
  intro ws
  obtain ⟨hflush, hmono⟩ := fresh_reads 0 0
  refine ⟨(hflush _ _ (.final minutely) ws (torn_perm _ _) "BTC" .m1).trans (by decide +kernel), ?_⟩
  -- the first flush has the first minute
  have hfirst : readCoinWindowLatest (coinWindowTable (ws.take 4)) "BTC" .m1 =
      some (coinWindowRow ("BTC", .m1, ⟨60, 200, 200, 0, 1, 1, 1, 0, 50⟩)) := by
    decide +kernel
  obtain ⟨row', t, t', hrow', hkey, hkey', hle⟩ :=
    hmono ws 4 12 (by decide) "BTC" .m1 _ hfirst
  obtain rfl : 60000 = t := (RowKey.coinWindow.inj hkey).2.2
  exact ⟨row', t', hrow', hkey', hle⟩

end FeatureStore
