/-
  FeatureStore/OpenWindows.lean
  =============================
  **Which window an open bucket describes.**

  A bucket is rolled over by the next fill of its own coin and by nothing else.
  In a stream ordered by time an open bucket is therefore the window of the
  coin's own latest fill (`open_windows_own_clock`).  It contains the data clock,
  the second of the latest fill of any coin, exactly when the coin has traded in
  the window of that second; a coin that has not keeps an older bucket open
  (`open_windows_lag`).
-/
import FeatureStore.IssuedRows
import Mathlib.Tactic.Linarith

namespace FeatureStore

open Grouping (group)
open FeatureEngine (after)

/-- A busy coin is ranked by the volume of its open 1m bucket. -/
theorem Ingest.openSnapshot?_of_mem_hot {engine : FeatureEngine} {volume : ℚ} {coin : String}
    (h : (volume, coin) ∈ hot engine) :
    ∃ s, engine.openSnapshot? coin .m1 = some s ∧ s.volume = volume := by
  have hbusy := List.mem_mergeSort.mp (List.mem_of_mem_take h)
  obtain ⟨⟨⟨coin', win⟩, bucket⟩, hitem, hsome⟩ := List.mem_filterMap.mp hbusy
  obtain ⟨rfl, hpair⟩ := Option.ite_none_right_eq_some.mp hsome
  obtain ⟨rfl, rfl⟩ := Prod.mk.inj (Option.some.inj hpair)
  have hget := (Dict.mem_items_iff _ _ _).mp hitem
  refine ⟨bucket.snapshot (some engine.wallets), ?_, rfl⟩
  rw [FeatureEngine.openSnapshot?, hget, Option.map_some]

/-! ### Starts of windows -/

namespace Window

variable (win : Window)

/-- A second lies in the window that starts at its floor, and in no other. -/
theorem mem_window_iff {t sec : ℤ} (ht : win.size ∣ t) :
    (t ≤ sec ∧ sec < t + win.size) ↔ win.floor sec = t := by
  constructor
  · rintro ⟨hle, hlt⟩
    obtain ⟨k, rfl⟩ := ht
    have hk : sec / win.size = k := by
      rw [Int.ediv_eq_iff_of_pos win.size_pos]
      constructor <;> linarith
    rw [floor, hk, mul_comm]
  · rintro rfl
    exact ⟨win.floor_le sec, win.lt_floor_add sec⟩

/-- A second that lies in a later window is past the end of this one. -/
theorem add_size_le {t sec : ℤ} (ht : win.size ∣ t) (hlt : t < win.floor sec) :
    t + win.size ≤ sec := by
  by_contra hinside
  have hle : t ≤ sec := (le_of_lt hlt).trans (win.floor_le sec)
  have hfloor := (win.mem_window_iff ht).mp ⟨hle, not_le.mp hinside⟩
  exact absurd hfloor (ne_of_gt hlt)

end Window

/-! ### Buckets and clocks -/

/-- What the start `t` of an open bucket says about the time, where `last` is the
    latest fill: the window contains the second of the coin's own latest fill, does
    not start after the data clock, and contains the data clock exactly when the
    coin has traded in the window of the data clock. -/
structure OwnClock (fs : List Fill) (last : Fill) (coin : String) (win : Window) (t : ℤ) : Prop where
  own : ∃ f, (group Fill.coin coin fs).getLast? = some f ∧ t ≤ f.sec ∧ f.sec < t + win.size
  started : t ≤ last.sec
  current_iff : last.sec < t + win.size ↔
    ∃ f ∈ fs, f.coin = coin ∧ win.floor f.sec = win.floor last.sec

/-- In a stream ordered by time the last fill is the latest. -/
theorem Fill.TimeSorted.sec_le_of_getLast? {fs : List Fill} (h : TimeSorted fs) {last : Fill}
    (hlast : fs.getLast? = some last) {f : Fill} (hf : f ∈ fs) : f.sec ≤ last.sec := by
  obtain ⟨before, rfl⟩ := List.getLast?_eq_some_iff.mp hlast
  rcases List.mem_append.mp hf with hf | hf
  · exact sec_le_sec ((List.pairwise_append.mp h).2.2 f hf last (List.mem_singleton.mpr rfl))
  · rw [List.mem_singleton.mp hf]

/-- The open bucket starts where the window of the coin's latest fill does. -/
theorem current_bucketTs_of_timeSorted {fs : List Fill} (hsorted : Fill.TimeSorted fs)
    {coin : String} {win : Window} {bucket : Bucket}
    (hbucket : win.tumbling.current (group Fill.coin coin fs) = some bucket) :
    ∃ f, (group Fill.coin coin fs).getLast? = some f ∧ bucket.bucketTs = win.floor f.sec := by
  have hgreatest := win.tumbling.current_isGreatest hbucket
  obtain ⟨g, hg, hstart⟩ := hgreatest.1
  obtain ⟨f, hf⟩ := Option.isSome_iff_exists.mp (List.getLast?_isSome.mpr (List.ne_nil_of_mem hg))
  refine ⟨f, hf, le_antisymm ?_ ?_⟩
  · have hgroup : Fill.TimeSorted (group Fill.coin coin fs) :=
      hsorted.sublist (Grouping.group_sublist _ _ _)
    have hle := win.floor_mono (hgroup.sec_le_of_getLast? hf hg)
    exact (le_of_eq hstart.symm).trans hle
  · exact hgreatest.2 ⟨f, List.mem_of_getLast? hf, rfl⟩

theorem ownClock_of_current {fs : List Fill} (hsorted : Fill.TimeSorted fs) {last : Fill}
    (hlast : fs.getLast? = some last) {coin : String} {win : Window} {bucket : Bucket}
    (hbucket : win.tumbling.current (group Fill.coin coin fs) = some bucket) :
    OwnClock fs last coin win bucket.bucketTs := by
  obtain ⟨f, hf, hts⟩ := current_bucketTs_of_timeSorted hsorted hbucket
  obtain ⟨hmem, hcoin⟩ := (Grouping.mem_group _).mp (List.mem_of_getLast? hf)
  have hle : f.sec ≤ last.sec := hsorted.sec_le_of_getLast? hlast hmem
  have hdvd : win.size ∣ bucket.bucketTs := hts ▸ win.size_dvd_floor f.sec
  have hown := (win.mem_window_iff hdvd).mpr hts.symm
  have hstarted : bucket.bucketTs ≤ last.sec := hown.1.trans hle
  refine ⟨⟨f, hf, hown⟩, hstarted, ?_⟩
  constructor
  · intro hlt
    exact ⟨f, hmem, hcoin, hts.symm.trans ((win.mem_window_iff hdvd).mp ⟨hstarted, hlt⟩).symm⟩
  · -- a fill of the coin in the window of the clock is in no later window than the bucket
    rintro ⟨g, hg, hgcoin, hfloor⟩
    have hgroup : g ∈ group Fill.coin coin fs := (Grouping.mem_group _).mpr ⟨hg, hgcoin⟩
    have hbound : win.floor g.sec ≤ bucket.bucketTs :=
      (win.tumbling.current_isGreatest hbucket).2 ⟨g, hgroup, rfl⟩
    have hclock := win.lt_floor_add last.sec
    linarith

/-- **Open buckets follow their own coin.**  In a stream ordered by time every
    open snapshot, every row that is flushed as the fresh window, and the bucket
    that every busy coin is ranked by, describes the window of the coin's own
    latest fill; that is the window of the data clock exactly when the coin has
    traded in it. -/
theorem open_windows_own_clock (fs : List Fill) (hsorted : Fill.TimeSorted fs) (last : Fill)
    (hlast : fs.getLast? = some last) :
    (∀ coin win s, (coin, win, s) ∈ (after fs).openSnapshots →
      OwnClock fs last coin win s.bucketTs) ∧
    (∀ r, Row.coinWindow r ∈ Ingest.flushOpen (after fs) →
      ∃ t, r.bucketTs = ts (t * 1000) ∧ OwnClock fs last r.coin r.window t) ∧
    (∀ volume coin, (volume, coin) ∈ Ingest.hot (after fs) →
      ∃ s, (after fs).openSnapshot? coin .m1 = some s ∧ s.volume = volume ∧
        OwnClock fs last coin .m1 s.bucketTs) := by
  have hopen : ∀ coin win s, (coin, win, s) ∈ (after fs).openSnapshots →
      OwnClock fs last coin win s.bucketTs := by
    intro coin win s hs
    obtain ⟨bucket, hbucket, rfl⟩ := FeatureEngine.mem_openSnapshots.mp hs
    exact ownClock_of_current hsorted hlast hbucket
  refine ⟨hopen, ?_, ?_⟩
  · intro r hr
    obtain ⟨⟨coin, win, s⟩, hs, hrow⟩ := List.mem_map.mp hr
    obtain rfl := Row.coinWindow.inj hrow
    exact ⟨s.bucketTs, rfl, hopen coin win s hs⟩
  · intro volume coin hhot
    obtain ⟨s, hs, hvolume⟩ := Ingest.openSnapshot?_of_mem_hot hhot
    exact ⟨s, hs, hvolume, hopen coin .m1 s (FeatureEngine.openSnapshot?_eq_some_iff.mp hs)⟩

/-- One fill of `BTC`, and a minute later one of `ETH`. -/
def quietCoin : List Fill :=
  [⟨"w", "BTC", 100, 1, .B, 0, 0, true⟩, ⟨"w", "ETH", 10, 1, .B, 60000, 0, true⟩]

/-- The bucket of `BTC` is over, and still open. -/
theorem open_windows_lag :
    ¬∀ fs last, Fill.TimeSorted fs → fs.getLast? = some last →
      ∀ c ∈ (after fs).openSnapshots,
        c.2.2.bucketTs ≤ last.sec ∧ last.sec < c.2.2.bucketTs + c.2.1.size := by
  intro h
  have hquiet := h quietCoin _ (by decide) rfl
  revert hquiet
  decide +kernel

/-- The clock of `ETH` is current. -/
theorem open_windows_own_clock_quiet_coin :
    OwnClock quietCoin ⟨"w", "ETH", 10, 1, .B, 60000, 0, true⟩ "ETH" .m1 60 :=
  (open_windows_own_clock quietCoin (by decide) ⟨"w", "ETH", 10, 1, .B, 60000, 0, true⟩ rfl).1
    "ETH" .m1
    ⟨60, 10, 10, 0, 1, 1, 1, 0, 5 / 2⟩ (by decide +kernel)

end FeatureStore
