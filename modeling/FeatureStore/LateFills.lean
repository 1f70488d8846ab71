/-
  FeatureStore/LateFills.lean
  ===========================
  **What late fills cost the windows.**

  `CoinWindowAggregator.update` passes over a fill whose window lies before the open
  one (`continue`).  The wallets and positions count it all the same.  In a stream that
  is not in order the windows therefore fall short of the fills, and this file says by
  how much.

  For every coin and window the buckets are those of the punctual fills alone, and what
  the snapshots lack is the late fills.  The hour loses no fill that the five minutes
  keep, nor they one that the minute keeps.  In a stream that is out of order by `L`
  seconds at most, only fills of the last `L` seconds of a window can be late
  (`late_fills_account`).
-/
import FeatureStore.LateEvents
import FeatureStore.WindowNesting

namespace FeatureStore

open FeatureEngine (buckets buckets_of_window finalSnapshots filter_finalSnapshots
  windowStart_nested)
open Grouping (group)

variable (fs : List Fill) (coin : String) (win : Window)

/-- The fills of the coin that the window passes over. -/
def lateFills : List Fill := win.tumbling.late (group Fill.coin coin fs)

def punctualFills : List Fill := win.tumbling.punctual (group Fill.coin coin fs)

/-- The snapshots of the coin and window that the run has yielded, and the open one. -/
def coinSnapshots : List Snapshot := snapshotsOf (finalSnapshots fs) coin win

theorem map_coinSnapshots {β : Type} {g : Snapshot → β} {g' : Bucket → β}
    (hg : ∀ bucket wallets, g (Bucket.snapshot bucket wallets) = g' bucket) :
    (coinSnapshots fs coin win).map g =
      (win.tumbling.panes (group Fill.coin coin fs)).map g' := by
  rw [← buckets_of_window, coinSnapshots, snapshotsOf, List.map_map, List.map_map]
  exact filter_finalSnapshots (fun coin' win' => decide (coin' = coin ∧ win' = win)) hg fs

/-- A column that adds up over the fills of a bucket. -/
theorem sum_coinSnapshots {g : Snapshot → ℚ} (g' : Bucket → ℚ) {h : Fill → ℚ}
    (hg : ∀ bucket wallets, g (Bucket.snapshot bucket wallets) = g' bucket)
    (hsum : ∀ t l, g' (Bucket.ofFills t l) = (l.map h).sum) :
    ((coinSnapshots fs coin win).map g).sum + ((lateFills fs coin win).map h).sum =
      ((group Fill.coin coin fs).map h).sum := by
  rw [map_coinSnapshots fs coin win hg]
  exact win.tumbling.sum_panes_add_late hsum (group Fill.coin coin fs)

/-- The takers of one side. -/
def Batch.taker (side : Fill → Bool) (l : List Fill) : ℚ :=
  ((l.filter fun f => f.crossed && side f).map Fill.notional).sum

theorem Batch.taker_eq_sum (side : Fill → Bool) (l : List Fill) :
    taker side l = (l.map fun f => if f.crossed && side f then f.notional else 0).sum := by
  rw [List.sum_map_ite]
  simp [taker]

theorem volume_add_late :
    ((coinSnapshots fs coin win).map Snapshot.volume).sum + Batch.volume (lateFills fs coin win) =
      Batch.volume (group Fill.coin coin fs) :=
  sum_coinSnapshots fs coin win Bucket.volume (fun _ _ => rfl) Bucket.ofFills_volume

theorem taker_add_late (side : Fill → Bool) {g : Snapshot → ℚ} (g' : Bucket → ℚ)
    (hg : ∀ bucket wallets, g (Bucket.snapshot bucket wallets) = g' bucket)
    (hsum : ∀ t l, g' (Bucket.ofFills t l) = Batch.taker side l) :
    ((coinSnapshots fs coin win).map g).sum + Batch.taker side (lateFills fs coin win) =
      Batch.taker side (group Fill.coin coin fs) := by
  simp only [Batch.taker_eq_sum]
  exact sum_coinSnapshots fs coin win g' hg fun t l =>
    (hsum t l).trans (Batch.taker_eq_sum side l)

theorem group_punctualFills :
    group Fill.coin coin (punctualFills fs coin win) = punctualFills fs coin win := by
  refine List.filter_eq_self.mpr fun f hf => ?_
  obtain ⟨before, after, hgroup, _⟩ := Tumbling.mem_select _ hf
  have hmem : f ∈ group Fill.coin coin fs := by
    rw [hgroup]
    simp
  exact decide_eq_true ((Grouping.mem_group _).mp hmem).2

/-- The aggregator does not tell the fills from the punctual ones. -/
theorem buckets_punctualFills :
    ((buckets fs).filter fun c => c.1 = coin ∧ c.2.1 = win).map (fun c => c.2.2) =
      ((buckets (punctualFills fs coin win)).filter fun c => c.1 = coin ∧ c.2.1 = win).map
        fun c => c.2.2 := by
  rw [buckets_of_window, buckets_of_window, group_punctualFills, punctualFills,
    Tumbling.panes_punctual]

theorem lateFills_nested {inner outer : Window} (hdvd : inner.size ∣ outer.size) :
    (lateFills fs coin outer).Sublist (lateFills fs coin inner) :=
  inner.tumbling.late_nested (fun _ _ h => outer.floor_mono h) (windowStart_nested hdvd) _

theorem volume_le_of_dvd {inner outer : Window} (hdvd : inner.size ∣ outer.size)
    (hpos : ∀ f ∈ fs, 0 ≤ f.notional) :
    ((coinSnapshots fs coin inner).map Snapshot.volume).sum ≤
      ((coinSnapshots fs coin outer).map Snapshot.volume).sum := by
  have hinner := volume_add_late fs coin inner
  have houter := volume_add_late fs coin outer
  have hlate : Batch.volume (lateFills fs coin outer) ≤ Batch.volume (lateFills fs coin inner) := by
    refine List.Sublist.sum_le_sum ((lateFills_nested fs coin hdvd).map _) ?_
    refine List.forall_mem_map.mpr fun f hf => ?_
    obtain ⟨before, after, hgroup, _⟩ := Tumbling.mem_select _ hf
    refine hpos f ((Grouping.group_sublist Fill.coin coin fs).subset ?_)
    rw [hgroup]
    simp
  linarith

/-- Only the end of a window is at risk. -/
theorem late_at_end {L : ℤ}
    (hdisorder : (group Fill.coin coin fs).Pairwise fun f f' => f.sec ≤ f'.sec + L) {f : Fill}
    (hf : f ∈ lateFills fs coin win) : windowStart win f + win.size ≤ f.sec + L := by
  obtain ⟨before, after, hgroup, other, hother, hlater⟩ :=
    win.tumbling.exists_before_of_mem_late hf
  rw [hgroup] at hdisorder
  have hahead := (List.pairwise_append.mp hdisorder).2.2 other hother f List.mem_cons_self
  -- both starts are multiples of the size
  have hstart : windowStart win f + win.size ≤ windowStart win other := by
    obtain ⟨a, ha⟩ := win.size_dvd_floor f.sec
    obtain ⟨b, hb⟩ := win.size_dvd_floor other.sec
    have hlt : windowStart win f < windowStart win other := hlater
    rw [windowStart, windowStart, ha, hb] at hlt ⊢
    have hab : a < b := lt_of_mul_lt_mul_left hlt win.size_pos.le
    nlinarith [win.size_pos]
  have hfloor : windowStart win other ≤ other.sec := win.floor_le other.sec
  linarith

/-- **What late fills cost the windows.**  For every sequence of fills and every coin:

    * the buckets of a window are those of the punctual fills alone, and the volume and
      the taker flows of its snapshots, with those of the late fills, are those of all
      fills of the coin;
    * what is late for a window is late for the smaller ones, so that with notionals
      that are not negative the larger windows report no less volume;
    * if no fill is more than `L` seconds behind one before it, a late fill lies in the
      last `L` seconds of its window. -/
theorem late_fills_account :
    (∀ win,
      (((buckets fs).filter fun c => c.1 = coin ∧ c.2.1 = win).map (fun c => c.2.2) =
        ((buckets (punctualFills fs coin win)).filter fun c => c.1 = coin ∧ c.2.1 = win).map
          fun c => c.2.2) ∧
      ((coinSnapshots fs coin win).map Snapshot.volume).sum +
        Batch.volume (lateFills fs coin win) = Batch.volume (group Fill.coin coin fs) ∧
      ((coinSnapshots fs coin win).map Snapshot.takerBuy).sum +
        Batch.takerBuy (lateFills fs coin win) = Batch.takerBuy (group Fill.coin coin fs) ∧
      ((coinSnapshots fs coin win).map Snapshot.takerSell).sum +
        Batch.takerSell (lateFills fs coin win) = Batch.takerSell (group Fill.coin coin fs)) ∧
    ((lateFills fs coin .h1).Sublist (lateFills fs coin .m5) ∧
      (lateFills fs coin .m5).Sublist (lateFills fs coin .m1)) ∧
    ((∀ f ∈ fs, 0 ≤ f.notional) →
      ((coinSnapshots fs coin .m1).map Snapshot.volume).sum ≤
        ((coinSnapshots fs coin .m5).map Snapshot.volume).sum ∧
      ((coinSnapshots fs coin .m5).map Snapshot.volume).sum ≤
        ((coinSnapshots fs coin .h1).map Snapshot.volume).sum) ∧
    ∀ L : ℤ, ((group Fill.coin coin fs).Pairwise fun f f' => f.sec ≤ f'.sec + L) →
      ∀ win, ∀ f ∈ lateFills fs coin win, windowStart win f + win.size ≤ f.sec + L := by
  have h15 : Window.m1.size ∣ Window.m5.size := by decide
  have h51 : Window.m5.size ∣ Window.h1.size := by decide
  exact ⟨fun win => ⟨buckets_punctualFills fs coin win, volume_add_late fs coin win,
      taker_add_late fs coin win Fill.isBuy Bucket.takerBuy (fun _ _ => rfl)
        Bucket.ofFills_takerBuy,
      taker_add_late fs coin win (fun f => !f.isBuy) Bucket.takerSell (fun _ _ => rfl)
        Bucket.ofFills_takerSell⟩,
    ⟨lateFills_nested fs coin h51, lateFills_nested fs coin h15⟩,
    fun hpos => ⟨volume_le_of_dvd fs coin h15 hpos, volume_le_of_dvd fs coin h51 hpos⟩,
    fun _ hdisorder win _ hf => late_at_end fs coin win hdisorder hf⟩

/-- The second fill is of the minute before. -/
def oneLate : List Fill :=
  [⟨"w", "BTC", 100, 2, .B, 100000, 0, true⟩, ⟨"w", "BTC", 100, 1, .A, 59000, 0, true⟩,
    ⟨"w", "BTC", 100, 3, .B, 130000, 0, true⟩]

theorem late_fills_account_one_late :
    (lateFills oneLate "BTC" .m1).map Fill.notional = [100] ∧
    ((coinSnapshots oneLate "BTC" .m1).map Snapshot.volume).sum + 100 = 600 ∧
    ∀ f ∈ lateFills oneLate "BTC" .m1, windowStart .m1 f + 60 ≤ f.sec + 41 := by
  obtain ⟨haccount, _, _, hend⟩ := late_fills_account oneLate "BTC"
  refine ⟨by decide +kernel, ?_, fun f hf => hend 41 (by decide +kernel) .m1 f hf⟩
  have hvolume := (haccount .m1).2.1
  have hlate : Batch.volume (lateFills oneLate "BTC" .m1) = 100 := by decide +kernel
  have htotal : Batch.volume (group Fill.coin "BTC" oneLate) = 600 := by decide +kernel
  rwa [hlate, htotal] at hvolume

end FeatureStore
