/-
  FeatureStore/EngineRun.lean
  ===========================
  **Whole runs of the engine.**

  One `update` of the aggregator is one step of a tumbling window for each of
  the three windows of the fill's coin, and touches nothing else
  (`update_get?`, `update_closed`).  Over a run this gives each (coin, window)
  its own tumbling aggregation of that coin's fills (`run_get?`,
  `closings_of_window`), and gives each entry of the two keyed maps the fold of
  that key's own fills (`after_wc_get?`, `after_wallets_get?`).  Everything
  later modules say about runs starts from these four facts.
-/
import FeatureStore.Features
import FeatureStore.Tumbling

namespace FeatureStore

open Grouping (group)

/-! ### Windows as tumbling aggregations -/

/-- The size in seconds that `WINDOWS` gives to a window. -/
def Window.size : Window → ℤ
  | .m1 => 60
  | .m5 => 300
  | .h1 => 3600

theorem Window.size_pos (win : Window) : 0 < win.size := by cases win <;> decide

theorem mem_WINDOWS {entry : Window × ℤ} : entry ∈ WINDOWS ↔ entry.2 = entry.1.size := by
  obtain ⟨win, size⟩ := entry
  cases win <;> simp [WINDOWS, Window.size]

/-- The start of the window of `win` that contains second `sec`. -/
def Window.floor (win : Window) (sec : ℤ) : ℤ := sec / win.size * win.size

/-- The start of the window of `win` that the fill falls into. -/
def windowStart (win : Window) (f : Fill) : ℤ := win.floor f.sec

theorem Window.floor_mono (win : Window) {s t : ℤ} (h : s ≤ t) : win.floor s ≤ win.floor t :=
  Int.mul_le_mul_of_nonneg_right (Int.ediv_le_ediv win.size_pos h) (le_of_lt win.size_pos)

theorem Window.floor_le (win : Window) (sec : ℤ) : win.floor sec ≤ sec :=
  Int.ediv_mul_le sec (ne_of_gt win.size_pos)

theorem Window.lt_floor_add (win : Window) (sec : ℤ) : sec < win.floor sec + win.size :=
  lt_of_lt_of_eq (Int.lt_ediv_add_one_mul_self sec win.size_pos) (by
    rw [Window.floor, add_mul, one_mul])

theorem Window.size_dvd_floor (win : Window) (sec : ℤ) : win.size ∣ win.floor sec :=
  Dvd.intro_left _ rfl

/-- The tumbling aggregation that the source runs for one (coin, window). -/
def Window.tumbling (win : Window) : Tumbling Fill ℤ Bucket where
  startOf := windowStart win
  fresh t := { bucketTs := t }
  add := Bucket.add
  stamp := Bucket.bucketTs
  stamp_fresh _ := rfl
  stamp_add _ _ := rfl

@[simp] theorem Window.tumbling_startOf (win : Window) :
    win.tumbling.startOf = windowStart win := rfl

@[simp] theorem Window.tumbling_stamp (win : Window) : win.tumbling.stamp = Bucket.bucketTs := rfl

theorem Window.sorted_of_timeSorted (win : Window) {fs : List Fill} (h : Fill.TimeSorted fs) :
    win.tumbling.Sorted fs :=
  List.Pairwise.imp (fun hle => win.floor_mono (Fill.sec_le_sec hle)) h

/-! ### One update of the aggregator -/

namespace CoinWindowAggregator

variable (self : CoinWindowAggregator) (f : Fill) (wallets : Option (Dict String WalletState))

/-- The buckets that the fill closes, in the order of `WINDOWS`. -/
def closing : List (String × Window × Bucket) :=
  WINDOWS.flatMap fun entry =>
    (entry.1.tumbling.closes (self.openBuckets.get? (f.coin, entry.1)) f).toList.map
      fun bucket => (f.coin, entry.1, bucket)

/-- A closed bucket as the aggregator yields it. -/
def render (c : String × Window × Bucket) : WindowSnapshot :=
  (c.1, c.2.1, c.2.2.snapshot wallets)

/-- Storing the advanced bucket advances the one entry. -/
theorem get?_set_advance {win : Window} {bucket : Bucket}
    (hadv : win.tumbling.advance (self.openBuckets.get? (f.coin, win)) f = some bucket)
    (key : String × Window) :
    (self.openBuckets.set (f.coin, win) bucket).get? key =
      if (f.coin, win) = key then win.tumbling.advance (self.openBuckets.get? key) f
      else self.openBuckets.get? key := by
  rw [Dict.get?_set]
  by_cases hkey : (f.coin, win) = key
  · subst hkey
    rw [if_pos rfl, if_pos rfl, hadv]
  · rw [if_neg hkey, if_neg hkey]

/-- The loop body advances the one entry it looks at, and appends what it
    closes. -/
theorem updateWindow_spec (closed : List WindowSnapshot) (win : Window) :
    (∀ key, (updateWindow f wallets f.sec (self, closed) (win, win.size)).1.openBuckets.get? key =
      if (f.coin, win) = key then win.tumbling.advance (self.openBuckets.get? key) f
      else self.openBuckets.get? key) ∧
    (updateWindow f wallets f.sec (self, closed) (win, win.size)).2 =
      closed ++ (win.tumbling.closes (self.openBuckets.get? (f.coin, win)) f).toList.map
        fun bucket => render wallets (f.coin, win, bucket) := by
  have hstart : f.sec / win.size * win.size = windowStart win f := rfl
  cases hcur : self.openBuckets.get? (f.coin, win) with
  | none =>
    simp only [updateWindow, hcur, hstart, Tumbling.closes_none, Option.toList_none, List.map_nil,
      List.append_nil, and_true]
    exact self.get?_set_advance f (congrArg (fun cur => win.tumbling.advance cur f) hcur)
  | some cur =>
    have hadvance := congrArg (fun cur => win.tumbling.advance cur f) hcur
    rcases win.tumbling.advance_cases cur f with
      ⟨hs, hadv, hclose⟩ | ⟨hs, hadv, hclose⟩ | ⟨hs, hadv, hclose⟩ <;>
      simp only [Window.tumbling_stamp, Window.tumbling_startOf] at hs
    · -- the same window
      simp only [updateWindow, hcur, hstart, hs, ne_eq, not_true, if_false, hclose,
        Option.toList_none, List.map_nil, List.append_nil, and_true]
      exact self.get?_set_advance f (hadvance.trans hadv)
    · -- a later window
      simp only [updateWindow, hcur, hstart, hs, ne_of_lt hs, ne_eq, not_false_eq_true, if_true,
        hclose, Option.toList_some, List.map_cons, List.map_nil]
      exact ⟨self.get?_set_advance f (hadvance.trans hadv), rfl⟩
    · -- a late event
      simp only [updateWindow, hcur, hstart, ne_of_gt hs, not_lt_of_gt hs, ne_eq,
        not_false_eq_true, if_true, if_false, hclose, Option.toList_none, List.map_nil,
        List.append_nil, and_true]
      intro key
      by_cases hkey : (f.coin, win) = key
      · subst hkey
        rw [if_pos rfl, hcur, hadv]
      · rw [if_neg hkey]

/-- The loop over any list of distinct windows: every listed window of the coin
    advances once, and closes what it held before the loop. -/
theorem foldl_updateWindow_spec (entries : List (Window × ℤ))
    (hsize : ∀ entry ∈ entries, entry.2 = entry.1.size) (hnodup : (entries.map Prod.fst).Nodup)
    (self : CoinWindowAggregator) (closed : List WindowSnapshot) :
    (∀ coin win,
      (entries.foldl (updateWindow f wallets f.sec) (self, closed)).1.openBuckets.get? (coin, win) =
        if f.coin = coin ∧ win ∈ entries.map Prod.fst then
          win.tumbling.advance (self.openBuckets.get? (coin, win)) f
        else self.openBuckets.get? (coin, win)) ∧
    (entries.foldl (updateWindow f wallets f.sec) (self, closed)).2 =
      closed ++ entries.flatMap fun entry =>
        (entry.1.tumbling.closes (self.openBuckets.get? (f.coin, entry.1)) f).toList.map
          fun bucket => render wallets (f.coin, entry.1, bucket) := by
  induction entries generalizing self closed with
  | nil => simp
  | cons entry rest ih =>
    obtain ⟨win, size⟩ := entry
    obtain rfl : size = win.size := hsize (win, size) List.mem_cons_self
    rw [List.map_cons, List.nodup_cons] at hnodup
    obtain ⟨hget, hclosed⟩ := updateWindow_spec self f wallets closed win
    obtain ⟨ihget, ihclosed⟩ := ih (fun e he => hsize e (List.mem_cons_of_mem _ he)) hnodup.2
      (updateWindow f wallets f.sec (self, closed) (win, win.size)).1
      (updateWindow f wallets f.sec (self, closed) (win, win.size)).2
    rw [List.foldl_cons]
    constructor
    · intro coin win'
      rw [ihget, hget]
      by_cases hwin : win' = win
      · subst hwin
        rw [if_neg (fun hc => hnodup.1 hc.2)]
        by_cases hcoin : f.coin = coin <;> simp [hcoin]
      · have hne : ¬(f.coin, win) = (coin, win') := fun heq => hwin (Prod.mk.inj heq).2.symm
        simp only [if_neg hne, List.map_cons, List.mem_cons, hwin, false_or]
    · rw [ihclosed, hclosed, List.flatMap_cons, List.append_assoc]
      congr 2
      apply List.flatMap_congr
      intro e he
      have hne : ¬(f.coin, win) = (f.coin, e.1) := fun heq =>
        hnodup.1 (List.mem_map.mpr ⟨e, he, (Prod.mk.inj heq).2.symm⟩)
      rw [hget, if_neg hne]

theorem update_eq : self.update f wallets =
    WINDOWS.foldl (updateWindow f wallets f.sec) (self, []) := by
  simp only [update, Fill.sec]

/-- **One update, entry by entry.**  The entries of the fill's coin advance by
    one step of their window; the others stay. -/
theorem update_get? (coin : String) (win : Window) :
    (self.update f wallets).1.openBuckets.get? (coin, win) =
      if f.coin = coin then win.tumbling.advance (self.openBuckets.get? (coin, win)) f
      else self.openBuckets.get? (coin, win) := by
  have h := (foldl_updateWindow_spec f wallets WINDOWS (fun _ => mem_WINDOWS.mp) (by decide)
    self []).1 coin win
  have hmem : win ∈ WINDOWS.map Prod.fst :=
    List.mem_map.mpr ⟨(win, win.size), mem_WINDOWS.mpr rfl, rfl⟩
  rw [update_eq]
  simpa only [hmem, and_true] using h

/-- What an update yields is what it closes. -/
theorem update_closed :
    (self.update f wallets).2 = (self.closing f).map (render wallets) := by
  have h := (foldl_updateWindow_spec f wallets WINDOWS (fun _ => mem_WINDOWS.mp) (by decide)
    self []).2
  rw [update_eq, h, List.nil_append, closing, List.map_flatMap]
  simp only [List.map_map, Function.comp_def]

theorem mem_closing {coin : String} {win : Window} {bucket : Bucket} :
    (coin, win, bucket) ∈ self.closing f ↔
      f.coin = coin ∧ win.tumbling.closes (self.openBuckets.get? (coin, win)) f = some bucket := by
  simp only [closing, List.mem_flatMap, List.mem_map, Option.mem_toList, Prod.mk.injEq]
  constructor
  · rintro ⟨entry, _, old, hold, rfl, rfl, rfl⟩
    exact ⟨rfl, hold⟩
  · rintro ⟨rfl, hold⟩
    exact ⟨(win, win.size), mem_WINDOWS.mpr rfl, bucket, hold, rfl, rfl, rfl⟩

/-- The closing buckets of one (coin, window). -/
theorem closing_of_window (coin : String) (win : Window) :
    ((self.closing f).filter fun c => c.1 = coin ∧ c.2.1 = win).map (fun c => c.2.2) =
      if f.coin = coin then (win.tumbling.closes (self.openBuckets.get? (coin, win)) f).toList
      else [] := by
  by_cases hcoin : f.coin = coin
  · subst hcoin
    rw [if_pos rfl, closing]
    cases win <;> simp [WINDOWS, List.filter_append, List.filter_map, Function.comp_def]
  · rw [if_neg hcoin, List.map_eq_nil_iff, List.filter_eq_nil_iff]
    intro c hc hkey
    have hc' := (mem_closing self f).mp hc
    exact hcoin (hc'.1.trans (of_decide_eq_true hkey).1)

/-! ### Runs of the aggregator

A run is given by the fills together with the wallet map that each `update` is
called with. -/

/-- The aggregator after a run, with everything it has yielded. -/
def run (inputs : List (Fill × Option (Dict String WalletState))) :
    CoinWindowAggregator × List WindowSnapshot :=
  inputs.foldl
    (fun acc input =>
      let (self, closed) := acc.1.update input.1 input.2
      (self, acc.2 ++ closed))
    ({}, [])

/-- The buckets closed in a run, each with the wallet map it was rendered by. -/
def closings (inputs : List (Fill × Option (Dict String WalletState))) :
    List ((String × Window × Bucket) × Option (Dict String WalletState)) :=
  (inputs.foldl
    (fun acc input =>
      ((acc.1.update input.1 input.2).1, acc.2 ++ (acc.1.closing input.1).map (·, input.2)))
    (({} : CoinWindowAggregator), [])).2

theorem run_snoc (inputs : List (Fill × Option (Dict String WalletState)))
    (input : Fill × Option (Dict String WalletState)) :
    run (inputs ++ [input]) =
      (((run inputs).1.update input.1 input.2).1,
        (run inputs).2 ++ ((run inputs).1.update input.1 input.2).2) := by
  simp [run]

private theorem closings_foldl_fst (inputs : List (Fill × Option (Dict String WalletState))) :
    (inputs.foldl
      (fun acc input =>
        ((acc.1.update input.1 input.2).1, acc.2 ++ (acc.1.closing input.1).map (·, input.2)))
      (({} : CoinWindowAggregator),
        ([] : List ((String × Window × Bucket) × Option (Dict String WalletState))))).1 =
      (run inputs).1 := by
  induction inputs using List.reverseRecOn with
  | nil => rfl
  | append_singleton inputs input ih =>
    rw [List.foldl_append, run_snoc]
    simp only [List.foldl_cons, List.foldl_nil, ih]

theorem closings_snoc (inputs : List (Fill × Option (Dict String WalletState)))
    (input : Fill × Option (Dict String WalletState)) :
    closings (inputs ++ [input]) =
      closings inputs ++ ((run inputs).1.closing input.1).map (·, input.2) := by
  simp only [closings, List.foldl_append, List.foldl_cons, List.foldl_nil, closings_foldl_fst]

/-- What a run yields is what it closes. -/
theorem run_emitted (inputs : List (Fill × Option (Dict String WalletState))) :
    (run inputs).2 = (closings inputs).map fun c => render c.2 c.1 := by
  induction inputs using List.reverseRecOn with
  | nil => rfl
  | append_singleton inputs input ih =>
    rw [run_snoc, closings_snoc, List.map_append, ih, update_closed, List.map_map]
    rfl

/-- **The open bucket of a (coin, window)** is that of the window's tumbling
    aggregation of the coin's fills. -/
theorem run_get? (inputs : List (Fill × Option (Dict String WalletState))) (coin : String)
    (win : Window) :
    (run inputs).1.openBuckets.get? (coin, win) =
      win.tumbling.current (group Fill.coin coin (inputs.map Prod.fst)) := by
  induction inputs using List.reverseRecOn with
  | nil => rfl
  | append_singleton inputs input ih =>
    rw [run_snoc, update_get?, ih, List.map_append, List.map_singleton, Grouping.group_snoc]
    by_cases hcoin : input.1.coin = coin
    · rw [if_pos hcoin, if_pos hcoin, Tumbling.current_snoc]
    · rw [if_neg hcoin, if_neg hcoin]

/-- **The closed buckets of a (coin, window)** are those of the same
    aggregation, in the same order. -/
theorem closings_of_window (inputs : List (Fill × Option (Dict String WalletState)))
    (coin : String) (win : Window) :
    ((closings inputs).filter fun c => c.1.1 = coin ∧ c.1.2.1 = win).map (fun c => c.1.2.2) =
      win.tumbling.closed (group Fill.coin coin (inputs.map Prod.fst)) := by
  induction inputs using List.reverseRecOn with
  | nil => rfl
  | append_singleton inputs input ih =>
    have hstep := closing_of_window (run inputs).1 input.1 coin win
    rw [closings_snoc, List.filter_append, List.map_append, ih, List.map_append,
      List.map_singleton, Grouping.group_snoc, List.filter_map, List.map_map]
    refine (congrArg _ hstep).trans ?_
    by_cases hcoin : input.1.coin = coin
    · rw [if_pos hcoin, if_pos hcoin, Tumbling.closed_snoc, run_get?]
    · rw [if_neg hcoin, if_neg hcoin, List.append_nil]

end CoinWindowAggregator

/-! ### Runs of the engine -/

/-- The arguments that the engine hands to `CoinWindowAggregator.update`: each
    fill with the wallet map that already contains it. -/
def aggregatorInputs (fs : List Fill) : List (Fill × Option (Dict String WalletState)) :=
  (List.range fs.length).filterMap fun i =>
    (fs[i]?).map fun f =>
      (f, some (Dict.feed Fill.addr {} WalletState.update Dict.empty (fs.take (i + 1))))

theorem aggregatorInputs_snoc (fs : List Fill) (f : Fill) :
    aggregatorInputs (fs ++ [f]) =
      aggregatorInputs fs ++
        [(f, some (Dict.feed Fill.addr {} WalletState.update Dict.empty (fs ++ [f])))] := by
  unfold aggregatorInputs
  rw [List.length_append, List.length_singleton, List.range_succ, List.filterMap_append]
  congr 1
  · apply List.filterMap_congr
    intro i hi
    have hlt : i < fs.length := List.mem_range.mp hi
    rw [List.getElem?_append_left hlt, List.take_append_of_le_length (by omega)]
  · have htake : (fs ++ [f]).take (fs.length + 1) = fs ++ [f] :=
      List.take_of_length_le (by simp)
    simp [htake]

theorem aggregatorInputs_fst (fs : List Fill) : (aggregatorInputs fs).map Prod.fst = fs := by
  induction fs using List.reverseRecOn with
  | nil => rfl
  | append_singleton fs f ih => rw [aggregatorInputs_snoc, List.map_append, ih, List.map_singleton]

namespace FeatureEngine

/-- The engine after a run, with every closed bucket it has returned. -/
def run (fs : List Fill) : FeatureEngine × List WindowSnapshot :=
  fs.foldl
    (fun acc f =>
      let (self, applied) := acc.1.apply f
      (self, acc.2 ++ applied.closed))
    ({}, [])

/-- The engine after a run. -/
def after (fs : List Fill) : FeatureEngine := (run fs).1

/-- The closed buckets that a run returns, in order. -/
def emitted (fs : List Fill) : List WindowSnapshot := (run fs).2

theorem after_snoc (fs : List Fill) (f : Fill) : after (fs ++ [f]) = ((after fs).apply f).1 := by
  simp [after, run]

theorem emitted_snoc (fs : List Fill) (f : Fill) :
    emitted (fs ++ [f]) = emitted fs ++ ((after fs).apply f).2.closed := by
  simp [after, emitted, run]

theorem after_wc (fs : List Fill) :
    (after fs).wc = Dict.feed (fun f => (f.addr, f.coin)) {} WalletCoinState.update
      Dict.empty fs := by
  induction fs using List.reverseRecOn with
  | nil => rfl
  | append_singleton fs f ih =>
    rw [after_snoc, Dict.feed_snoc, ← ih]
    rfl

theorem after_wallets (fs : List Fill) :
    (after fs).wallets = Dict.feed Fill.addr {} WalletState.update Dict.empty fs := by
  induction fs using List.reverseRecOn with
  | nil => rfl
  | append_singleton fs f ih =>
    rw [after_snoc, Dict.feed_snoc, ← ih]
    rfl

/-- The aggregator inside the engine runs on `aggregatorInputs`. -/
theorem after_coins (fs : List Fill) :
    ((after fs).coins, emitted fs) = CoinWindowAggregator.run (aggregatorInputs fs) := by
  induction fs using List.reverseRecOn with
  | nil => rfl
  | append_singleton fs f ih =>
    have hwallets : (after fs).wallets.set f.addr
        ((((after fs).wallets.get? f.addr).getD {}).update f) =
          Dict.feed Fill.addr {} WalletState.update Dict.empty (fs ++ [f]) := by
      rw [Dict.feed_snoc, ← after_wallets]
      rfl
    rw [aggregatorInputs_snoc, CoinWindowAggregator.run_snoc, ← ih, after_snoc, emitted_snoc,
      ← hwallets]
    rfl

/-- **Each (wallet, coin) entry** is the fold of that key's own fills. -/
theorem after_wc_get? (fs : List Fill) (addr coin : String) :
    (after fs).wc.get? (addr, coin) =
      if group (fun f => (f.addr, f.coin)) (addr, coin) fs = [] then none
      else some ((group (fun f : Fill => (f.addr, f.coin)) (addr, coin) fs).foldl
        WalletCoinState.update {}) := by
  rw [after_wc, Dict.get?_feed_empty]

/-- **Each wallet entry** is the fold of that wallet's own fills. -/
theorem after_wallets_get? (fs : List Fill) (addr : String) :
    (after fs).wallets.get? addr =
      if group Fill.addr addr fs = [] then none
      else some ((group Fill.addr addr fs).foldl WalletState.update {}) := by
  rw [after_wallets, Dict.get?_feed_empty]

/-- **Each open bucket** is that of the coin's own fills. -/
theorem after_open_get? (fs : List Fill) (coin : String) (win : Window) :
    (after fs).coins.openBuckets.get? (coin, win) =
      win.tumbling.current (group Fill.coin coin fs) := by
  have hcoins : (after fs).coins = (CoinWindowAggregator.run (aggregatorInputs fs)).1 :=
    congrArg Prod.fst (after_coins fs)
  rw [hcoins, CoinWindowAggregator.run_get?, aggregatorInputs_fst]

/-- **What one `apply` returns as closed**: the coin's open buckets that the
    fill is past, rendered with the wallets that already contain the fill. -/
theorem mem_apply_closed {fs : List Fill} {f : Fill} {coin : String} {win : Window}
    {s : Snapshot} :
    (coin, win, s) ∈ ((after fs).apply f).2.closed ↔
      ∃ bucket, f.coin = coin ∧
        win.tumbling.closes (win.tumbling.current (group Fill.coin coin fs)) f = some bucket ∧
        s = bucket.snapshot (some (after (fs ++ [f])).wallets) := by
  have hclosed : ((after fs).apply f).2.closed =
      ((after fs).coins.closing f).map
        (CoinWindowAggregator.render (some (after (fs ++ [f])).wallets)) := by
    rw [after_snoc, ← CoinWindowAggregator.update_closed]
    rfl
  simp only [hclosed, List.mem_map, Prod.exists, CoinWindowAggregator.render, Prod.mk.injEq]
  constructor
  · rintro ⟨coin', win', bucket, hmem, rfl, rfl, rfl⟩
    obtain ⟨hcoin, hcloses⟩ := (CoinWindowAggregator.mem_closing _ f).mp hmem
    rw [after_open_get?] at hcloses
    exact ⟨bucket, hcoin, hcloses, rfl⟩
  · rintro ⟨bucket, hcoin, hcloses, rfl⟩
    rw [← after_open_get?] at hcloses
    exact ⟨coin, win, bucket, (CoinWindowAggregator.mem_closing _ f).mpr ⟨hcoin, hcloses⟩,
      rfl, rfl, rfl⟩

/-- What `open_snapshots` yields. -/
theorem mem_openSnapshots {fs : List Fill} {coin : String} {win : Window} {s : Snapshot} :
    (coin, win, s) ∈ (after fs).openSnapshots ↔
      ∃ bucket, win.tumbling.current (group Fill.coin coin fs) = some bucket ∧
        s = bucket.snapshot (some (after fs).wallets) := by
  rw [openSnapshots, CoinWindowAggregator.openSnapshots, List.mem_map]
  simp only [Prod.exists, Prod.mk.injEq, Dict.mem_items_iff, after_open_get?]
  constructor
  · rintro ⟨coin', win', bucket, hget, rfl, rfl, rfl⟩
    exact ⟨bucket, hget, rfl⟩
  · rintro ⟨bucket, hget, rfl⟩
    exact ⟨coin, win, bucket, hget, rfl, rfl, rfl⟩

/-- The open snapshot of one (coin, window). -/
def openSnapshot? (self : FeatureEngine) (coin : String) (win : Window) : Option Snapshot :=
  (self.coins.openBuckets.get? (coin, win)).map fun bucket => bucket.snapshot (some self.wallets)

theorem openSnapshot?_eq_some_iff {self : FeatureEngine} {coin : String} {win : Window}
    {s : Snapshot} :
    self.openSnapshot? coin win = some s ↔ (coin, win, s) ∈ self.openSnapshots := by
  rw [openSnapshots, CoinWindowAggregator.openSnapshots, List.mem_map, openSnapshot?,
    Option.map_eq_some_iff]
  simp only [Prod.exists, Prod.mk.injEq, Dict.mem_items_iff]
  constructor
  · rintro ⟨bucket, hget, rfl⟩
    exact ⟨coin, win, bucket, hget, rfl, rfl, rfl⟩
  · rintro ⟨coin', win', bucket, hget, rfl, rfl, rfl⟩
    exact ⟨bucket, hget, rfl⟩

theorem emitted_eq (fs : List Fill) :
    emitted fs = (CoinWindowAggregator.run (aggregatorInputs fs)).2 :=
  congrArg Prod.snd (after_coins fs)

/-! ### Every bucket of a run -/

/-- The buckets that a run closes, in order. -/
def closedBuckets (fs : List Fill) : List (String × Window × Bucket) :=
  (CoinWindowAggregator.closings (aggregatorInputs fs)).map Prod.fst

/-- Every bucket that a run opens: the closed ones and the open ones. -/
def buckets (fs : List Fill) : List (String × Window × Bucket) :=
  closedBuckets fs ++
    (after fs).coins.openBuckets.items.map fun item => (item.1.1, item.1.2, item.2)

/-- The last snapshot of every bucket that a run opens: the closing one of a
    closed bucket, the current one of an open bucket. -/
def finalSnapshots (fs : List Fill) : List WindowSnapshot := emitted fs ++ (after fs).openSnapshots

/-- **The buckets of a (coin, window)** are the panes of its tumbling
    aggregation of the coin's fills. -/
theorem buckets_of_window (fs : List Fill) (coin : String) (win : Window) :
    ((buckets fs).filter fun c => c.1 = coin ∧ c.2.1 = win).map (fun c => c.2.2) =
      win.tumbling.panes (group Fill.coin coin fs) := by
  have hclosed := CoinWindowAggregator.closings_of_window (aggregatorInputs fs) coin win
  rw [aggregatorInputs_fst] at hclosed
  have hopen := (after fs).coins.openBuckets.filter_items_key (coin, win)
  rw [after_open_get?] at hopen
  rw [buckets, List.filter_append, List.map_append, Tumbling.panes, ← hclosed, ← hopen,
    closedBuckets, List.filter_map, List.filter_map, List.map_map, List.map_map]
  congr 2
  apply List.filter_congr
  intro item _
  simp only [Function.comp_apply, decide_eq_decide]
  rw [Prod.ext_iff]

theorem mem_buckets {fs : List Fill} {coin : String} {win : Window} {bucket : Bucket} :
    (coin, win, bucket) ∈ buckets fs ↔
      bucket ∈ win.tumbling.panes (group Fill.coin coin fs) := by
  rw [← buckets_of_window, List.mem_map]
  constructor
  · intro h
    exact ⟨_, List.mem_filter.mpr ⟨h, by simp⟩, rfl⟩
  · rintro ⟨c, hmem, rfl⟩
    obtain ⟨hbucket, hkey⟩ := List.mem_filter.mp hmem
    obtain ⟨rfl, rfl⟩ := of_decide_eq_true hkey
    exact hbucket

/-- The last snapshots are those of the buckets, one each and in the same
    order. -/
theorem finalSnapshots_forall₂ (fs : List Fill) :
    List.Forall₂ (fun s c => s.1 = c.1 ∧ s.2.1 = c.2.1 ∧ ∃ wallets, s.2.2 = c.2.2.snapshot wallets)
      (finalSnapshots fs) (buckets fs) := by
  apply List.rel_append
  · rw [emitted_eq, CoinWindowAggregator.run_emitted, closedBuckets, List.forall₂_map_left_iff,
      List.forall₂_map_right_iff, List.forall₂_same]
    intro c _
    exact ⟨rfl, rfl, c.2, rfl⟩
  · rw [openSnapshots, CoinWindowAggregator.openSnapshots, List.forall₂_map_left_iff,
      List.forall₂_map_right_iff, List.forall₂_same]
    intro item _
    exact ⟨rfl, rfl, some (after fs).wallets, rfl⟩

/-- What a snapshot has from its bucket alone can be read off the buckets. -/
theorem filter_finalSnapshots {β : Type} (keep : String → Window → Bool) {g : Snapshot → β}
    {g' : Bucket → β} (hg : ∀ bucket wallets, g (Bucket.snapshot bucket wallets) = g' bucket)
    (fs : List Fill) :
    ((finalSnapshots fs).filter fun s => keep s.1 s.2.1).map (fun s => g s.2.2) =
      ((buckets fs).filter fun c => keep c.1 c.2.1).map fun c => g' c.2.2 := by
  have hrel := finalSnapshots_forall₂ fs
  generalize finalSnapshots fs = snapshots at hrel ⊢
  generalize buckets fs = opened at hrel ⊢
  induction hrel with
  | nil => rfl
  | @cons s c _ _ hhead _ ih =>
    obtain ⟨hcoin, hwin, wallets, hs⟩ := hhead
    by_cases hkey : keep c.1 c.2.1
    · simpa [hcoin, hwin, hkey, hs, hg] using ih
    · simpa [hcoin, hwin, hkey] using ih

end FeatureEngine

end FeatureStore
