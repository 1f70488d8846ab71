/-
  FeatureStore/LiveBoard.lean
  ===========================
  **The scoreboard while the ingest writes** (`board` in `_reader_thread` of
  `src/feature_store/dashboard.py`).

  For every busy coin the reader makes three reads of the window table, and the writes
  of the ingest arrive between them.  A row of the board may therefore rest on three
  moments, of which none need be that of the busy coins.

  Whatever the moments, a row is made of snapshots that the engine had, a signal has a
  5m snapshot with smart flow of its direction behind it, the rows are those of the busy
  coins in the order of conviction, and the next refresh does not go back
  (`scoreboard_any_time`).
-/
import FeatureStore.Panel
import FeatureStore.Scoreboard
import FeatureStore.Serving

namespace FeatureStore

open FeatureEngine (after)
open LastWriter (stampFrom)

theorem Ingest.run_issues (now0 : ℚ) (inputs : List (Fill × ℚ)) :
    Issues (inputs.map Prod.fst) [] (run now0 inputs) := by
  rw [run, loop_engine]
  exact (loop_issues now0 inputs).openWindows

/-! ### The bar -/

/-- Smart flow never exceeds the volume. -/
theorem SnapshotAt.abs_smartFlow_le {p : List Fill} (hp : ∀ f ∈ p, f.Nonneg) {coin : String}
    {win : Window} {s : Snapshot} (h : SnapshotAt p (coin, win, s)) : |s.smartFlow| ≤ s.volume := by
  obtain ⟨bucket, hpane, wallets, rfl⟩ := h.exists_pane
  have hpos : ∀ f ∈ batch p coin win bucket.bucketTs, 0 ≤ f.notional := fun f hf =>
    (hp f (mem_of_mem_batch hf).1).notional
  have hflow := (Bucket.abs_smartFlow_le bucket.bucketTs _ wallets).trans
    (Batch.gross_le_volume hpos)
  rw [← panes_ofFills hpane] at hflow
  rwa [(aggregates_of_mem_panes hpane wallets).volume]

section Bar

variable {s : Snapshot} (h : |s.smartFlow| ≤ s.volume) {c : ℚ}

include h

/-- The bar is the share of the smart flow in the volume, which it never clamps. -/
theorem smartNorm_eq_share : smartNorm (some s) = s.smartFlow / s.volume := by
  rw [(smartNorm_of_abs_le h).1]
  by_cases hvol : s.volume = 0
  · rw [hvol] at h
    rw [abs_nonpos_iff.mp h, zero_div, zero_div]
  · rw [if_pos hvol]

theorem volume_pos_of_share_ne_zero (hne : s.smartFlow / s.volume ≠ 0) : 0 < s.volume := by
  refine lt_of_le_of_ne ((abs_nonneg _).trans h) fun hzero => hne ?_
  rw [← hzero, div_zero]

theorem mul_volume_lt_smartFlow (hc : 0 ≤ c) (hlt : c < smartNorm (some s)) :
    c * s.volume < s.smartFlow := by
  rw [smartNorm_eq_share h] at hlt
  exact (lt_div_iff₀ (volume_pos_of_share_ne_zero h (hc.trans_lt hlt).ne')).mp hlt

theorem smartFlow_lt_mul_volume (hc : c ≤ 0) (hlt : smartNorm (some s) < c) :
    s.smartFlow < c * s.volume := by
  rw [smartNorm_eq_share h] at hlt
  exact (div_lt_iff₀ (volume_pos_of_share_ne_zero h (hlt.trans_le hc).ne)).mp hlt

end Bar

theorem smartNorm_none : smartNorm none = 0 := by
  norm_num [smartNorm]

/-! ### A refresh -/

/-- The rows that are read for a coin, each at its own moment. -/
def rowsAt (ws : List (Write Row)) (moment : String → Window → ℕ) (coin : String) (win : Window) :
    Option Snapshot :=
  ((Tables.after (ws.take (moment coin win))).readCoinWindow coin win).map CoinWindowRow.snapshot

/-- The board for the busy coins. -/
def boardAt (exp : ℚ → Option ℚ) (ws : List (Write Row)) (hot : List (ℚ × String))
    (moment : String → Window → ℕ) : List BoardRow :=
  board exp (hot.map fun h => (h, rowsAt ws moment h.2))

/-- What a row of the board says, for busy coins of the fills `q`. -/
structure BoardRow.Sound (exp : ℚ → Option ℚ) (fs q : List Fill) (row : BoardRow) : Prop where
  vol : ∃ s, (after q).openSnapshot? row.coin .m1 = some s ∧ row.vol = s.volume
  score : row.score ∈ Set.Icc 0 1
  source : ∃ rows : Window → Option Snapshot,
    (∀ win s, rows win = some s → ∃ p, p <+: fs ∧ SnapshotAt p (row.coin, win, s)) ∧
    row.score = (unusualAccumulation exp (rows .m1) (rows .m5) (rows .h1)).score ∧
    row.label = (unusualAccumulation exp (rows .m1) (rows .m5) (rows .h1)).label ∧
    row.smart = Rounding.roundTo 4 (((rows .m5).map fun s => s.smartFlow / s.volume).getD 0)
  long : row.action = .long → row.label ≠ .normal ∧
    ∃ p s, p <+: fs ∧ SnapshotAt p (row.coin, .m5, s) ∧ 0.05 * s.volume < s.smartFlow
  short : row.action = .short →
    ∃ p s, p <+: fs ∧ SnapshotAt p (row.coin, .m5, s) ∧ s.smartFlow < -0.15 * s.volume

section Row

variable {exp : ℚ → Option ℚ} {fs q : List Fill} {h : ℚ × String} {rows : Window → Option Snapshot}

theorem sound_boardRow (hexp : Logistic exp) (hfills : ∀ f ∈ fs, f.Nonneg)
    (hvol : ∃ s, (after q).openSnapshot? h.2 .m1 = some s ∧ s.volume = h.1)
    (hrows : ∀ win s, rows win = some s → ∃ p, p <+: fs ∧ SnapshotAt p (h.2, win, s)) :
    (boardRow exp h rows).Sound exp fs q := by
  have hflow : ∀ s, rows .m5 = some s → |s.smartFlow| ≤ s.volume := by
    intro s hs
    obtain ⟨p, hp, hsnap⟩ := hrows .m5 s hs
    exact hsnap.abs_smartFlow_le fun f hf => hfills f (hp.subset hf)
  have hscorable : ∀ s, rows .m1 = some s → s.Scorable := by
    intro s hs
    obtain ⟨p, hp, hsnap⟩ := hrows .m1 s hs
    exact hsnap.scorable fun f hf => hfills f (hp.subset hf)
  obtain ⟨s1, hs1, hvolume⟩ := hvol
  refine
    { vol := ⟨s1, hs1, hvolume.symm⟩
      score := Rounding.roundTo_mem_Icc (rawScore_mem (components_inUnit hexp hscorable))
      source := ⟨rows, hrows, rfl, rfl, ?_⟩
      long := fun hlong => ⟨label_ne_normal_of_long hlong, ?_⟩
      short := fun hshort => ?_ }
  · change Rounding.roundTo 4 (smartNorm (rows .m5)) = _
    cases hm5 : rows .m5 with
    | none => rw [smartNorm_none]; rfl
    | some s => rw [smartNorm_eq_share (hflow s hm5)]; rfl
  · have hnorm : 0.05 < smartNorm (rows .m5) := by
      simp only [boardRow] at hlong
      split at hlong
      · rename_i hsignal
        exact hsignal.2
      · split at hlong <;> cases hlong
    cases hm5 : rows .m5 with
    | none =>
      rw [hm5, smartNorm_none] at hnorm
      norm_num at hnorm
    | some s =>
      rw [hm5] at hnorm
      obtain ⟨p, hp, hsnap⟩ := hrows .m5 s hm5
      exact ⟨p, s, hp, hsnap, mul_volume_lt_smartFlow (hflow s hm5) (by norm_num) hnorm⟩
  · have hnorm : smartNorm (rows .m5) < -0.15 := by
      simp only [boardRow] at hshort
      split at hshort
      · cases hshort
      · split at hshort
        · assumption
        · cases hshort
    cases hm5 : rows .m5 with
    | none =>
      rw [hm5, smartNorm_none] at hnorm
      norm_num at hnorm
    | some s =>
      rw [hm5] at hnorm
      obtain ⟨p, hp, hsnap⟩ := hrows .m5 s hm5
      exact ⟨p, s, hp, hsnap, smartFlow_lt_mul_volume (hflow s hm5) (by norm_num) hnorm⟩

end Row

/-! ### Any time -/

section AnyTime

variable {fs : List Fill} {raws log : List Row} {ws : List (Write Row)}

theorem exists_of_rowsAt (hlog : Issues fs raws log) (hws : ∀ w ∈ ws, w ∈ stampFrom 0 log)
    {moment : String → Window → ℕ} {coin : String} {win : Window} {s : Snapshot}
    (hs : rowsAt ws moment coin win = some s) :
    ∃ p, p <+: fs ∧ SnapshotAt p (coin, win, s) := by
  obtain ⟨r, hread, rfl⟩ := Option.map_eq_some_iff.mp hs
  obtain ⟨p, s, hp, hsnap, rfl⟩ := Api.exists_snapshotAt hlog hws hread
  rw [snapshot_windowRowOf]
  exact ⟨p, hp, hsnap⟩

/-- **The scoreboard at any time.**  The writes of the ingest arrive at empty tables, in
    any order and with any of them missing, and every read sees them at a moment of its
    own.  Prices and sizes are not negative, and `exp` is logistic.  Then for the busy
    coins of any prefix `q`:

    * the board has one row for each of them, in the order of conviction;
    * every row is made of snapshots that the engine had, the score lies in `[0, 1]`, and
      the bar is the share of the smart flow, which it never clamps;
    * LONG and SHORT have a 5m snapshot with smart flow of that direction behind them,
      and LONG at least an elevated label;
    * what a later refresh reads does not go back. -/
theorem scoreboard_any_time (exp : ℚ → Option ℚ) (hexp : Logistic exp) (now0 : ℚ)
    (inputs : List (Fill × ℚ)) (hfills : ∀ f ∈ inputs.map Prod.fst, f.Nonneg)
    (ws : List (Write Row)) (hws : ∀ w ∈ ws, w ∈ stampFrom 0 (Ingest.run now0 inputs)) :
    (∀ (q : List Fill) (moment : String → Window → ℕ),
      let hot := Ingest.hot (after q)
      let shown := boardAt exp ws hot moment
      (shown.map BoardRow.coin).Perm (hot.map Prod.snd) ∧ (hot.map Prod.snd).Nodup ∧
      (shown.Pairwise fun a b => b.conviction ≤ a.conviction) ∧
      ∀ row ∈ shown, row.Sound exp (inputs.map Prod.fst) q) ∧
    ∀ moment moment' : String → Window → ℕ,
      (∀ coin win, moment coin win ≤ moment' coin win) →
      ∀ coin win s, rowsAt ws moment coin win = some s →
        ∃ s', rowsAt ws moment' coin win = some s' ∧
          (s.bucketTs < s'.bucketTs ∨ s.bucketTs = s'.bucketTs ∧ s.volume ≤ s'.volume) := by
  have hlog := Ingest.run_issues now0 inputs
  refine ⟨fun q moment => ⟨?_, ?_, board_ranked exp _, ?_⟩, ?_⟩
  · refine ((Sorting.sortBy_perm _ _).map BoardRow.coin).trans ?_
    rw [List.map_map, List.map_map]
    exact .refl _
  · exact Ingest.coins_hot_nodup (after q)
  · intro row hrow
    obtain ⟨entry, hentry, rfl⟩ := (mem_board_iff exp).mp hrow
    obtain ⟨⟨volume, coin⟩, hmem, rfl⟩ := List.mem_map.mp hentry
    exact sound_boardRow hexp hfills (Ingest.openSnapshot?_of_mem_hot hmem)
      fun win s hs => exists_of_rowsAt hlog hws hs
  · intro moment moment' hle coin win s hs
    obtain ⟨r, hread, rfl⟩ := Option.map_eq_some_iff.mp hs
    obtain ⟨r', hread', hlater⟩ := Api.readCoinWindow_mono hlog hws
      (fun f hf => (hfills f hf).notional) (hle coin win) hread
    refine ⟨_, Option.map_eq_some_iff.mpr ⟨r', hread', rfl⟩, ?_⟩
    -- the column holds the start in milliseconds
    obtain ⟨_, s, _, _, rfl⟩ := Api.exists_snapshotAt hlog hws hread
    obtain ⟨_, s', _, _, rfl⟩ := Api.exists_snapshotAt hlog hws hread'
    rw [snapshot_windowRowOf, snapshot_windowRowOf]
    refine hlater.imp (fun hlt => ?_) fun hsame => ⟨ts_bucketTs_inj hsame.1, hsame.2⟩
    simp only [windowRowOf, ts] at hlt
    omega

/-- The writes of two fills, those of the second in the reverse of their order. -/
def twoBuysWrites : List (Write Row) := torn 4 4 (stampFrom 0 (Ingest.run 0 twoFills))

/-- The reads of a refresh while the writes of the second fill arrive. -/
def tornMoment : String → Window → ℕ
  | _, .m1 => 4
  | _, .m5 => 6
  | _, .h1 => 10

/-- The board of that refresh. -/
def twoBuysBoard : List BoardRow :=
  boardAt coarseExp twoBuysWrites (Ingest.hot (after (twoFills.map Prod.fst))) tornMoment

theorem scoreboard_any_time_two_buys :
    twoBuysBoard.map (fun row => (row.coin, row.action)) = [("BTC", .long)] ∧
    (∃ p s, p <+: twoFills.map Prod.fst ∧ SnapshotAt p ("BTC", .m5, s) ∧
      0.05 * s.volume < s.smartFlow) ∧
    ∃ s s', rowsAt twoBuysWrites tornMoment "BTC" .m1 = some s ∧ s.volume = 200 ∧
      rowsAt twoBuysWrites (fun _ _ => 11) "BTC" .m1 = some s' ∧
      (s.bucketTs < s'.bucketTs ∨ s.bucketTs = s'.bucketTs ∧ s.volume ≤ s'.volume) := by
  have hshown : twoBuysBoard.map (fun row => (row.coin, row.action)) = [("BTC", .long)] := by
    decide +kernel
  have hm1 : (rowsAt twoBuysWrites tornMoment "BTC" .m1).any (fun s => s.volume = 200) = true := by
    decide +kernel
  obtain ⟨hboard, hmono⟩ := scoreboard_any_time coarseExp logistic_coarseExp 0 twoFills
    (by decide +kernel) twoBuysWrites fun _ => mem_of_mem_torn
  obtain ⟨row, hrow, heq⟩ := List.mem_map.mp (hshown ▸ List.mem_cons_self)
  obtain ⟨hcoin, hlong⟩ := Prod.mk.inj heq
  have hsound := (hboard (twoFills.map Prod.fst) tornMoment).2.2.2 row hrow
  obtain ⟨s, hs, hvolume⟩ := Option.any_eq_true .. |>.mp hm1
  have hlater : ∀ coin win, tornMoment coin win ≤ 11 := by
    intro coin win
    cases win <;> simp [tornMoment]
  obtain ⟨s', hs', hle⟩ := hmono tornMoment (fun _ _ => 11) hlater "BTC" .m1 s hs
  exact ⟨hshown, hcoin ▸ (hsound.long hlong).2, s, s', hs, of_decide_eq_true hvolume, hs', hle⟩

end AnyTime

end FeatureStore
