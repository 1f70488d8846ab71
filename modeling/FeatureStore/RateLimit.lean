/-
  FeatureStore/RateLimit.lean
  ===========================
  **How fast the ingest process may go.**

  `Pacing` compares the loop of `_ingest_proc` with `replay` at a constant speed, and
  bounds the backlog after one fill.  This file is about stretches of the stream, for
  any speeds and bursts.  The data time between two fills, at the effective speed, is
  what the second one is `due` after the first.

  Over a stretch the process is ahead of what is due by a second at most, also where it
  gives up lost time, and it does not sleep for longer than what is due
  (`stretch_bounds`).  So in `t` seconds at speeds up to `s` it lets no more than
  `s * (t + 1)` seconds of data pass.
-/
import FeatureStore.Pacing

namespace FeatureStore

namespace Pacer

variable {self : Pacer} {tick : Tick} {ticks : List Tick} {start : ℚ}

/-! ### What is due -/

/-- The time from the fill before to this one, at the effective speed. -/
def due (self : Pacer) (tick : Tick) : ℚ :=
  match self.prevTs with
  | none => 0
  | some prevTs =>
      if self.effSpeed > 0 then (tick.fill.tsMs - prevTs : ℤ) / 1000 / self.effSpeed else 0

/-- The state after the ticks. -/
def final (self : Pacer) (ticks : List Tick) : Pacer :=
  ticks.foldl (fun pacer tick => (pacer.step tick).1) self

/-- Every tick with the state that paces its fill. -/
def visits : Pacer → List Tick → List (Pacer × Tick)
  | _, [] => []
  | self, tick :: ticks => (self.refresh tick, tick) :: visits (self.step tick).1 ticks

/-- What is due over a stretch. -/
def dues (self : Pacer) (ticks : List Tick) : List ℚ :=
  (self.visits ticks).map fun visit => visit.1.due visit.2

/-- When the last of the fills was released. -/
def lastReleased (start : ℚ) (ticks : List Tick) : ℚ :=
  (ticks.getLast?.map Tick.released).getD start

theorem getLast?_map_getD_cons {α β : Type} (g : α → β) (a : α) (l : List α) (b : β) :
    ((a :: l).getLast?.map g).getD b = (l.getLast?.map g).getD (g a) := by
  rw [List.getLast?_cons]
  cases l.getLast? <;> rfl

theorem lastReleased_cons (start : ℚ) (tick : Tick) (ticks : List Tick) :
    lastReleased start (tick :: ticks) = lastReleased tick.released ticks :=
  getLast?_map_getD_cons Tick.released tick ticks start

theorem refresh_nextEmit (self : Pacer) (tick : Tick) :
    (self.refresh tick).nextEmit = self.nextEmit ∧ (self.refresh tick).prevTs = self.prevTs := by
  unfold refresh
  split <;> exact ⟨rfl, rfl⟩

/-! ### One step -/

/-- **What a step does to `next_emit`**: it moves on by what is due, or further, but not
    past the release of the fill, and the fill is held back for no longer. -/
theorem step_bounds (hnext : self.nextEmit ≤ tick.paced) (hresync : tick.paced ≤ tick.resync)
    (hreleased : tick.resync ≤ tick.released)
    (hslept : tick.paced + (self.step tick).2.sleep.getD 0 ≤ tick.released) :
    self.nextEmit + (self.refresh tick).due tick ≤ (self.step tick).1.nextEmit ∧
    (self.step tick).1.nextEmit ≤ tick.released ∧
    (self.step tick).2.sleep.getD 0 ≤ max 0 ((self.refresh tick).due tick) := by
  have hemit := (refresh_nextEmit self tick).1
  have hstep : (self.step tick).1.nextEmit = ((self.refresh tick).pace tick).nextEmit := rfl
  have hsleep : (self.step tick).2.sleep = ((self.refresh tick).pace tick).sleep := rfl
  rw [hsleep] at hslept ⊢
  rw [hstep]
  rcases pace_cases (self.refresh tick) tick with
    ⟨_, hpace, hidle⟩ | ⟨prevTs, hprev, hspeed, hrun⟩
  · have hzero : (self.refresh tick).due tick = 0 := by
      unfold due
      rcases hidle with hnone | hstopped
      · rw [hnone]
      · split
        · rfl
        · exact if_neg (not_lt.mpr hstopped)
    rw [hpace, hzero, hemit]
    exact ⟨by linarith, by linarith, le_max_left _ _⟩
  · have hdue : (self.refresh tick).due tick =
        (tick.fill.tsMs - prevTs : ℤ) / 1000 / (self.refresh tick).effSpeed := by
      unfold due
      rw [hprev]
      exact if_pos hspeed
    rw [hemit, ← hdue] at hrun
    rcases hrun with ⟨hlate, hpace⟩ | ⟨_, hpace⟩
    · -- the lost time is given up
      rw [hpace]
      exact ⟨by simp only; linarith, hreleased, le_max_left _ _⟩
    · rw [hpace] at hslept ⊢
      have htarget := le_add_sleepUntil (self.nextEmit + (self.refresh tick).due tick) tick.paced
      refine ⟨le_refl _, htarget.trans hslept, ?_⟩
      simp only [sleepUntil]
      split
      · refine le_trans ?_ (le_max_right _ _)
        simp only [Option.getD_some]
        linarith
      · exact le_max_left _ _

/-! ### A stretch -/

theorem run_bounds (h : self.Clocked start ticks) (hnext : self.nextEmit ≤ start) :
    self.nextEmit + (self.dues ticks).sum ≤ (self.final ticks).nextEmit ∧
    (self.final ticks).nextEmit ≤ lastReleased start ticks ∧
    ((self.trace ticks).map fun pace => pace.sleep.getD 0).sum ≤
      ((self.dues ticks).map (max 0)).sum := by
  induction ticks generalizing self start with
  | nil =>
    refine ⟨by simp [dues, visits, final], hnext, by simp [trace, dues, visits]⟩
  | cons tick ticks ih =>
    obtain ⟨hnow, hpaced, hresync, hreleased, hslept, hrest⟩ := h
    obtain ⟨hemit, hend, hsleep⟩ :=
      step_bounds ((hnext.trans hnow).trans hpaced) hresync hreleased hslept
    obtain ⟨hemits, hends, hsleeps⟩ := ih hrest hend
    have hdues : self.dues (tick :: ticks) =
        (self.refresh tick).due tick :: (self.step tick).1.dues ticks := rfl
    have hfinal : self.final (tick :: ticks) = (self.step tick).1.final ticks := rfl
    rw [hfinal, hdues, lastReleased_cons, List.sum_cons, trace, List.map_cons, List.sum_cons,
      List.map_cons, List.sum_cons]
    exact ⟨by linarith, hends, add_le_add hsleep hsleeps⟩

theorem Clocked.append {more : List Tick} (h : self.Clocked start (ticks ++ more)) :
    (self.final ticks).Clocked (lastReleased start ticks) more ∧ self.Clocked start ticks := by
  induction ticks generalizing self start with
  | nil => exact ⟨h, trivial⟩
  | cons tick ticks ih =>
    obtain ⟨hnow, hpaced, hresync, hreleased, hslept, hrest⟩ := h
    obtain ⟨hmore, hticks⟩ := ih hrest
    rw [lastReleased_cons]
    exact ⟨hmore, hnow, hpaced, hresync, hreleased, hslept, hticks⟩

/-- At speeds up to `s` the data takes at least its time. -/
theorem data_le_dues {s : ℚ} {prevTs : ℤ} (hprev : self.prevTs = some prevTs)
    (hspeeds : ∀ visit ∈ self.visits ticks, 0 < visit.1.effSpeed ∧ visit.1.effSpeed ≤ s)
    (hsorted : (prevTs :: ticks.map fun tick => tick.fill.tsMs).Pairwise (· ≤ ·)) :
    (((ticks.getLast?.map fun tick => tick.fill.tsMs).getD prevTs - prevTs : ℤ) : ℚ) / 1000 ≤
      s * (self.dues ticks).sum := by
  induction ticks generalizing self prevTs with
  | nil => simp [dues, visits]
  | cons tick ticks ih =>
    obtain ⟨hpos, hle⟩ := hspeeds (self.refresh tick, tick) List.mem_cons_self
    obtain ⟨hfirst, hrest⟩ := List.pairwise_cons.mp hsorted
    have hgap : (0 : ℚ) ≤ (tick.fill.tsMs - prevTs : ℤ) := by
      have hts := hfirst tick.fill.tsMs (by simp)
      exact_mod_cast sub_nonneg.mpr hts
    have hdue : (self.refresh tick).due tick =
        (tick.fill.tsMs - prevTs : ℤ) / 1000 / (self.refresh tick).effSpeed := by
      unfold due
      rw [(refresh_nextEmit self tick).2, hprev]
      exact if_pos hpos
    have hone : ((tick.fill.tsMs - prevTs : ℤ) : ℚ) / 1000 ≤ s * (self.refresh tick).due tick := by
      have hspeed : (self.refresh tick).effSpeed * (self.refresh tick).due tick =
          (tick.fill.tsMs - prevTs : ℤ) / 1000 := by
        rw [hdue]
        exact mul_div_cancel₀ _ hpos.ne'
      rw [← hspeed]
      refine mul_le_mul_of_nonneg_right hle ?_
      rw [hdue]
      positivity
    have hnow : (self.step tick).1.prevTs = some tick.fill.tsMs := rfl
    have hmore := ih hnow (fun visit hvisit => hspeeds visit (List.mem_cons_of_mem _ hvisit)) hrest
    have hlast := getLast?_map_getD_cons (fun tick : Tick => tick.fill.tsMs) tick ticks prevTs
    have hdues : self.dues (tick :: ticks) =
        (self.refresh tick).due tick :: (self.step tick).1.dues ticks := rfl
    rw [hlast, hdues, List.sum_cons, mul_add]
    push_cast at hone hmore ⊢
    linarith

/-- **The ingest process is a rate limiter.**  In every run, whatever the speed does, and
    for every stretch of the stream after a fill that was paced:

    * what is due over the stretch is at most a second more than what the clock shows
      from that fill to the end;
    * the process sleeps for no longer than what is due, where a negative due counts as
      none;
    * if the fills are in order and the effective speed is positive and at most `s`, no
      more than `s * (t + 1)` seconds of data pass in `t` seconds. -/
theorem stretch_bounds (start speed : ℚ) (before : List Tick) (tick : Tick)
    (stretch rest : List Tick)
    (hclock : (init start speed).Clocked start (before ++ tick :: (stretch ++ rest)))
    (hran : (((init start speed).final before).step tick).2.ran = true) :
    let self := (init start speed).final (before ++ [tick])
    let elapsed := lastReleased tick.released stretch - tick.paced
    (self.dues stretch).sum ≤ elapsed + 1 ∧
    ((self.trace stretch).map fun pace => pace.sleep.getD 0).sum ≤
      ((self.dues stretch).map (max 0)).sum ∧
    ∀ s, (∀ visit ∈ self.visits stretch, 0 < visit.1.effSpeed ∧ visit.1.effSpeed ≤ s) →
      ((tick :: stretch).map fun t => t.fill.tsMs).Pairwise (· ≤ ·) →
      0 ≤ s → (((stretch.getLast?.map fun t => t.fill.tsMs).getD tick.fill.tsMs -
        tick.fill.tsMs : ℤ) : ℚ) / 1000 ≤ s * (elapsed + 1) := by
  intro self elapsed
  obtain ⟨hafter, hbefore⟩ := hclock.append
  have hstart := (run_bounds hbefore (show (init start speed).nextEmit ≤ start from le_refl _)).2.1
  obtain ⟨hnow, hpaced, hresync, hreleased, hslept, hmore⟩ := hafter
  have hself : self = (((init start speed).final before).step tick).1 := by
    simp [self, final]
  have hbacklog : tick.paced ≤ self.nextEmit + 1 := by
    rw [hself]
    exact backlog_le_of_pace hran hresync
  have hend : self.nextEmit ≤ tick.released := by
    rw [hself]
    exact (step_bounds ((hstart.trans hnow).trans hpaced) hresync hreleased hslept).2.1
  rw [← hself] at hmore
  obtain ⟨hemits, hends, hsleeps⟩ := run_bounds hmore.append.2 hend
  have hsum : (self.dues stretch).sum ≤ elapsed + 1 := by
    simp only [elapsed]
    linarith
  refine ⟨hsum, hsleeps, fun s hspeeds hsorted hs => ?_⟩
  have hprev : self.prevTs = some tick.fill.tsMs := by
    rw [hself]
    rfl
  exact (data_le_dues hprev hspeeds hsorted).trans (mul_le_mul_of_nonneg_left hsum hs)

/-- A third fill, two seconds after the second one. -/
def third : Tick := ⟨⟨"v", "BTC", 1, 1, .B, 8000, 0, true⟩, 2, false, 10.8, 10.8, 10.8, 11.5⟩

theorem stretch_bounds_third :
    (((init 10 2).final oversleeping).dues [third]).sum ≤ 11.5 - 10.1 + 1 ∧
      (((init 10 2).final oversleeping).trace [third]).map Pace.sleep = [some 0.7] :=
  ⟨(stretch_bounds 10 2 [⟨⟨"v", "BTC", 1, 1, .B, 5000, 0, true⟩, 2, false, 10, 10, 10, 10⟩]
    ⟨⟨"v", "BTC", 1, 1, .B, 6000, 0, true⟩, 2, false, 10, 10.1, 10.1, 10.75⟩ [third] []
    (by decide +kernel) (by decide +kernel)).1, by decide +kernel⟩

end Pacer

end FeatureStore
