/-
  FeatureStore/Pacing.lean
  ========================
  **The pacing of the dashboard** (`_ingest_proc` of
  `src/feature_store/dashboard.py`) **and of `replay`.**

  The ingest process paces itself: it refreshes the speed at most every 0.25 s,
  moves `next_emit` on by the time between two fills at the current speed, and
  gives up time that it has lost when it is more than a second behind.  `replay`
  computes the offset of each fill from the first one.

  At a constant speed and without a resync the increments add up to the offset,
  so the two loops sleep alike (`agree_of_constant`).  Whatever the speed does,
  a step leaves at most a second to catch up (`Pacer.backlog_le`).
-/
import FeatureStore.Firehose
import Mathlib.Tactic.Ring
import Mathlib.Tactic.FieldSimp
import Mathlib.Tactic.NormNum

namespace FeatureStore

/-- One turn of the loop: the fill, what is read for it from the shared state,
    what the clock shows at each place where it may be read, and when the fill is
    released. -/
structure Tick where
  fill : Fill
  base : ℚ -- `shared.get("speed", base_speed)`
  bursting : Bool -- `time.time() < shared.get("burst_until", 0.0)`
  now : ℚ
  paced : ℚ -- in `slp = next_emit - time.monotonic()`
  resync : ℚ -- in `next_emit = time.monotonic()`
  released : ℚ

/-- What the pacing of a fill came to. -/
structure Pace where
  ran : Bool -- not for the first fill, nor without a positive speed
  nextEmit : ℚ
  sleep : Option ℚ := none
  resynced : Bool := false
deriving DecidableEq, Repr

/-- The local variables of the loop that pace it. -/
structure Pacer where
  effSpeed : ℚ
  lastSpeedchk : ℚ
  nextEmit : ℚ
  prevTs : Option ℤ := none

namespace Pacer

/-- Before the loop. -/
def init (now0 baseSpeed : ℚ) : Pacer where
  effSpeed := baseSpeed
  lastSpeedchk := now0
  nextEmit := now0

/-- Refresh the effective speed every 0.25 s. -/
def refresh (self : Pacer) (tick : Tick) : Pacer :=
  if tick.now - self.lastSpeedchk ≥ 0.25 then
    { self with
      effSpeed := if tick.bursting then 1e9 else tick.base
      lastSpeedchk := tick.now }
  else self

/-- Inter-arrival pacing. -/
def pace (self : Pacer) (tick : Tick) : Pace :=
  match self.prevTs with
  | none => { ran := false, nextEmit := self.nextEmit }
  | some prevTs =>
      if self.effSpeed > 0 then
        let nextEmit := self.nextEmit + (tick.fill.tsMs - prevTs : ℤ) / 1000 / self.effSpeed
        let slp := nextEmit - tick.paced
        if slp > 0 then { ran := true, nextEmit, sleep := some slp }
        else if slp < -1 then { ran := true, nextEmit := tick.resync, resynced := true }
        else { ran := true, nextEmit }
      else { ran := false, nextEmit := self.nextEmit }

def step (self : Pacer) (tick : Tick) : Pacer × Pace :=
  let self := self.refresh tick
  let pace := self.pace tick
  ({ self with nextEmit := pace.nextEmit, prevTs := some tick.fill.tsMs }, pace)

/-- The pacing of every fill of a run. -/
def trace : Pacer → List Tick → List Pace
  | _, [] => []
  | self, tick :: ticks => (self.step tick).2 :: trace (self.step tick).1 ticks

/-- The clock does not go back, and a sleep takes at least its time. -/
def Clocked : Pacer → ℚ → List Tick → Prop
  | _, _, [] => True
  | self, start, tick :: ticks =>
      start ≤ tick.now ∧ tick.now ≤ tick.paced ∧ tick.paced ≤ tick.resync ∧
      tick.resync ≤ tick.released ∧
      tick.paced + (self.step tick).2.sleep.getD 0 ≤ tick.released ∧
      Clocked (self.step tick).1 tick.released ticks

instance decidableClocked : (self : Pacer) → (start : ℚ) → (ticks : List Tick) →
    Decidable (self.Clocked start ticks)
  | _, _, [] => inferInstanceAs (Decidable True)
  | self, start, tick :: ticks =>
      have := decidableClocked (self.step tick).1 tick.released ticks
      inferInstanceAs (Decidable (start ≤ tick.now ∧ tick.now ≤ tick.paced ∧
        tick.paced ≤ tick.resync ∧ tick.resync ≤ tick.released ∧
        tick.paced + (self.step tick).2.sleep.getD 0 ≤ tick.released ∧
        Clocked (self.step tick).1 tick.released ticks))

end Pacer

/-- The offset at which `replay` releases a fill: its `target`. -/
def offset (speed : ℚ) (dataStart : ℤ) (fill : Fill) : ℚ :=
  (fill.tsMs - dataStart : ℤ) / 1000 / speed

/-- The sleep before a release at `target`, when `now` has passed. -/
def sleepUntil (target now : ℚ) : Option ℚ := if target > now then some (target - now) else none

theorem le_add_sleepUntil (target now : ℚ) : target ≤ now + (sleepUntil target now).getD 0 := by
  unfold sleepUntil
  split
  · simp
  · simpa using not_lt.mp ‹_›

theorem sleepUntil_of_le {target now : ℚ} (h : target ≤ now) : sleepUntil target now = none :=
  if_neg (not_lt.mpr h)

theorem sleepUntil_sub (target now start : ℚ) :
    sleepUntil target (now - start) = sleepUntil (start + target) now := by
  unfold sleepUntil
  have hiff : target > now - start ↔ start + target > now := by
    constructor <;> intro h <;> linarith
  rw [if_congr hiff rfl rfl]
  congr 2
  ring

/-! ### `replay` -/

/-- The sleeps of `replay` after the first fill. -/
theorem Paced.sleeps_foldl {speed wallStart : ℚ} {dataStart : ℤ} {self : Paced}
    (h : self.dataStart = some dataStart) (inputs : List (Fill × ℚ)) :
    (inputs.foldl (step speed wallStart) self).sleeps =
      self.sleeps ++ inputs.map fun input =>
        sleepUntil (wallStart + offset speed dataStart input.1) input.2 := by
  induction inputs generalizing self with
  | nil => exact (List.append_nil _).symm
  | cons input inputs ih =>
    have hsleep : (step speed wallStart self input).sleeps =
        self.sleeps ++ [sleepUntil (wallStart + offset speed dataStart input.1) input.2] := by
      rw [← sleepUntil_sub]
      simp only [step, h, Option.getD_some, sleepUntil, offset]
      rfl
    have hstart : (step speed wallStart self input).dataStart = some dataStart := by
      simp [step, h]
    rw [List.foldl_cons, ih hstart, hsleep, List.map_cons, List.append_assoc, List.singleton_append]

/-- **`replay` sleeps until the offset of each fill.** -/
theorem Paced.sleeps_run (speed wallStart : ℚ) (input : Fill × ℚ) (inputs : List (Fill × ℚ)) :
    (run speed wallStart (input :: inputs)).sleeps =
      (input :: inputs).map fun i =>
        sleepUntil (wallStart + offset speed input.1.tsMs i.1) i.2 := by
  have hfirst : (step speed wallStart {} input).sleeps =
      [sleepUntil (wallStart + offset speed input.1.tsMs input.1) input.2] := by
    rw [← sleepUntil_sub]
    simp [step, sleepUntil, offset]
  have hstart : (step speed wallStart {} input).dataStart = some input.1.tsMs := by simp [step]
  rw [run, List.foldl_cons, sleeps_foldl hstart, hfirst, List.map_cons, List.singleton_append]

/-! ### The dashboard -/

namespace Pacer

variable {self : Pacer} {tick : Tick} {ticks : List Tick} {speed start : ℚ}

/-- **What the pacing of a fill can do**: nothing, sleep, go on, or resync. -/
theorem pace_cases (self : Pacer) (tick : Tick) :
    ((self.pace tick).ran = false ∧ self.pace tick = ⟨false, self.nextEmit, none, false⟩ ∧
      (self.prevTs = none ∨ self.effSpeed ≤ 0)) ∨
    ∃ prevTs, self.prevTs = some prevTs ∧ 0 < self.effSpeed ∧
      let nextEmit := self.nextEmit + (tick.fill.tsMs - prevTs : ℤ) / 1000 / self.effSpeed
      (nextEmit - tick.paced < -1 ∧ self.pace tick = ⟨true, tick.resync, none, true⟩) ∨
      (-1 ≤ nextEmit - tick.paced ∧
        self.pace tick = ⟨true, nextEmit, sleepUntil nextEmit tick.paced, false⟩) := by
  unfold pace
  cases hprev : self.prevTs with
  | none => exact Or.inl ⟨rfl, rfl, Or.inl rfl⟩
  | some prevTs =>
    by_cases hspeed : self.effSpeed > 0
    · refine Or.inr ⟨prevTs, rfl, hspeed, ?_⟩
      simp only [if_pos hspeed]
      generalize self.nextEmit + (tick.fill.tsMs - prevTs : ℤ) / 1000 / self.effSpeed = nextEmit
      rcases lt_or_ge 0 (nextEmit - tick.paced) with hsleep | hlate
      · have hgt : nextEmit > tick.paced := by linarith
        refine Or.inr ⟨by linarith, ?_⟩
        simp only [if_pos hsleep, sleepUntil, if_pos hgt]
      · have hle : ¬nextEmit > tick.paced := by linarith
        simp only [if_neg (not_lt.mpr hlate), sleepUntil, if_neg hle]
        rcases lt_or_ge (nextEmit - tick.paced) (-1) with hresync | hkeep
        · exact Or.inl ⟨hresync, by simp only [if_pos hresync]⟩
        · exact Or.inr ⟨hkeep, by simp only [if_neg (not_lt.mpr hkeep)]⟩
    · refine Or.inl ?_
      simp only [if_neg hspeed, true_and]
      exact Or.inr (not_lt.mp hspeed)

/-! ### Any speed -/

theorem backlog_le_of_pace (hran : (self.pace tick).ran = true) (h : tick.paced ≤ tick.resync) :
    tick.paced ≤ (self.pace tick).nextEmit + 1 := by
  rcases pace_cases self tick with ⟨hran', _⟩ | ⟨_, _, _, ⟨_, hpace⟩ | ⟨hle, hpace⟩⟩
  · rw [hran'] at hran
    exact absurd hran Bool.false_ne_true
  · rw [hpace]
    simp only
    linarith
  · rw [hpace]
    simp only
    linarith

/-- **A step with a positive speed leaves at most a second to catch up**, after
    any changes of the speed. -/
theorem backlog_le (h : self.Clocked start ticks) :
    List.Forall₂ (fun tick pace => pace.ran = true → tick.paced ≤ pace.nextEmit + 1) ticks
      (self.trace ticks) := by
  induction ticks generalizing self start with
  | nil => exact List.Forall₂.nil
  | cons tick ticks ih =>
    obtain ⟨_, _, hresync, _, _, hrest⟩ := h
    exact List.Forall₂.cons (fun hran => backlog_le_of_pace hran hresync) (ih hrest)

/-! ### A constant speed -/

/-- The shared state keeps the speed at which the process was started. -/
def Constant (speed : ℚ) (ticks : List Tick) : Prop :=
  ∀ tick ∈ ticks, tick.base = speed ∧ tick.bursting = false

theorem refresh_of_constant (h : self.effSpeed = speed) (hbase : tick.base = speed)
    (hburst : tick.bursting = false) :
    (self.refresh tick).effSpeed = speed ∧ (self.refresh tick).nextEmit = self.nextEmit ∧
      (self.refresh tick).prevTs = self.prevTs := by
  unfold refresh
  split
  · exact ⟨by simp [hburst, hbase], rfl, rfl⟩
  · exact ⟨h, rfl, rfl⟩

/-- The process has paced a fill: `next_emit` is at its offset. -/
structure OnTime (speed start : ℚ) (dataStart : ℤ) (pacer : Pacer) : Prop where
  effSpeed : pacer.effSpeed = speed
  nextEmit : ∃ prevTs, pacer.prevTs = some prevTs ∧
    pacer.nextEmit = start + (prevTs - dataStart : ℤ) / 1000 / speed

/-- **The increments add up to the offset.** -/
theorem OnTime.step {dataStart : ℤ} (hspeed : 0 < speed) (h : OnTime speed start dataStart self)
    (hbase : tick.base = speed) (hburst : tick.bursting = false)
    (hresync : (self.step tick).2.resynced = false) :
    OnTime speed start dataStart (self.step tick).1 ∧
      (self.step tick).2 = ⟨true, start + offset speed dataStart tick.fill,
        sleepUntil (start + offset speed dataStart tick.fill) tick.paced, false⟩ := by
  obtain ⟨prevTs, hprev, hemit⟩ := h.nextEmit
  obtain ⟨heff, hnext, hts⟩ := refresh_of_constant h.effSpeed hbase hburst
  have hsum : (self.refresh tick).nextEmit +
      (tick.fill.tsMs - prevTs : ℤ) / 1000 / (self.refresh tick).effSpeed =
      start + offset speed dataStart tick.fill := by
    rw [hnext, hemit, heff, offset]
    push_cast
    ring
  have hpace : (self.step tick).2 =
      ⟨true, start + offset speed dataStart tick.fill,
        sleepUntil (start + offset speed dataStart tick.fill) tick.paced, false⟩ := by
    rcases pace_cases (self.refresh tick) tick with
      ⟨_, _, hidle⟩ | ⟨prevTs', hprev', _, hrun⟩
    · rw [hts, hprev, heff] at hidle
      rcases hidle with hidle | hidle
      · exact absurd hidle (Option.some_ne_none _)
      · exact absurd hspeed (not_lt.mpr hidle)
    · obtain rfl : prevTs = prevTs' := Option.some.inj ((hprev.symm.trans hts.symm).trans hprev')
      rw [hsum] at hrun
      rcases hrun with ⟨_, hpace⟩ | ⟨_, hpace⟩
      · have htrue : (self.step tick).2.resynced = true := congrArg Pace.resynced hpace
        rw [hresync] at htrue
        exact absurd htrue Bool.false_ne_true
      · exact hpace
  exact ⟨⟨heff, tick.fill.tsMs, rfl, congrArg Pace.nextEmit hpace⟩, hpace⟩

theorem OnTime.trace {dataStart : ℤ} (hspeed : 0 < speed) (h : OnTime speed start dataStart self)
    (hconst : Constant speed ticks) (hresync : ∀ pace ∈ self.trace ticks, pace.resynced = false) :
    self.trace ticks = ticks.map fun tick =>
      ⟨true, start + offset speed dataStart tick.fill,
        sleepUntil (start + offset speed dataStart tick.fill) tick.paced, false⟩ := by
  induction ticks generalizing self with
  | nil => rfl
  | cons tick ticks ih =>
    obtain ⟨hbase, hburst⟩ := hconst tick List.mem_cons_self
    obtain ⟨hnext, hpace⟩ := h.step hspeed hbase hburst (hresync _ List.mem_cons_self)
    have hrest := ih hnext (fun t ht => hconst t (List.mem_cons_of_mem tick ht))
      (fun pace hp => hresync pace (List.mem_cons_of_mem _ hp))
    rw [Pacer.trace, List.map_cons, hrest, hpace]

/-- The first fill is not paced. -/
theorem step_init (start : ℚ) (hbase : tick.base = speed) (hburst : tick.bursting = false) :
    OnTime speed start tick.fill.tsMs ((init start speed).step tick).1 ∧
      ((init start speed).step tick).2 = ⟨false, start, none, false⟩ := by
  obtain ⟨heff, hnext, hts⟩ :=
    refresh_of_constant (rfl : (init start speed).effSpeed = speed) hbase hburst
  have hpace : ((init start speed).step tick).2 = ⟨false, start, none, false⟩ := by
    rcases pace_cases ((init start speed).refresh tick) tick with ⟨_, hpace, _⟩ | ⟨prevTs, hprev, _⟩
    · exact hpace.trans (by rw [hnext]; rfl)
    · rw [hts] at hprev
      exact absurd hprev.symm (Option.some_ne_none prevTs)
  refine ⟨⟨heff, tick.fill.tsMs, rfl, ?_⟩, hpace⟩
  rw [sub_self, Int.cast_zero, zero_div, zero_div, add_zero]
  exact congrArg Pace.nextEmit hpace

/-- What the clock says of the reading and the release of each fill. -/
theorem Clocked.released (h : self.Clocked start ticks) :
    List.Forall₂ (fun tick pace => start ≤ tick.paced ∧ tick.paced ≤ tick.released ∧
      tick.paced + pace.sleep.getD 0 ≤ tick.released) ticks (self.trace ticks) := by
  induction ticks generalizing self start with
  | nil => exact List.Forall₂.nil
  | cons tick ticks ih =>
    obtain ⟨hnow, hpaced, hresync, hreleased, hslept, hrest⟩ := h
    have hafter : start ≤ tick.released := by linarith
    refine List.Forall₂.cons ⟨by linarith, by linarith, hslept⟩ ?_
    exact (ih hrest).imp fun tick' pace h' => ⟨hafter.trans h'.1, h'.2⟩

/-- The timestamp of the first fill. -/
def dataStart (ticks : List Tick) : ℤ := (ticks.head?.map fun tick => tick.fill.tsMs).getD 0

/-- **At a constant speed the loops are the same.** -/
theorem agree_of_constant (hclock : (init start speed).Clocked start ticks) (hspeed : 0 < speed)
    (hconst : Constant speed ticks)
    (hresync : ∀ pace ∈ (init start speed).trace ticks, pace.resynced = false) :
    ((init start speed).trace ticks).map Pace.nextEmit =
      ticks.map (fun tick => start + offset speed (dataStart ticks) tick.fill) ∧
    ((init start speed).trace ticks).map Pace.sleep =
      ticks.map fun tick =>
        sleepUntil (start + offset speed (dataStart ticks) tick.fill) tick.paced := by
  cases ticks with
  | nil => exact ⟨rfl, rfl⟩
  | cons tick ticks =>
    obtain ⟨hbase, hburst⟩ := hconst tick List.mem_cons_self
    obtain ⟨hnext, hpace⟩ := step_init start hbase hburst
    have hrest := hnext.trace hspeed (fun t ht => hconst t (List.mem_cons_of_mem tick ht))
      (fun pace hp => hresync pace (List.mem_cons_of_mem _ hp))
    have hfirst : offset speed tick.fill.tsMs tick.fill = 0 := by simp [offset]
    have hsleep : sleepUntil start tick.paced = none := by
      refine sleepUntil_of_le ?_
      obtain ⟨hnow, hpaced, _⟩ := hclock
      linarith
    have hstart : dataStart (tick :: ticks) = tick.fill.tsMs := rfl
    simp only [Pacer.trace, List.map_cons, hstart, hfirst, hsleep, hrest, hpace, List.map_map,
      add_zero]
    exact ⟨rfl, rfl⟩

/-- **The two pacing loops agree.**  For any fills, and any clock that does not go
    back:

    * at a constant positive speed and without a resync, `next_emit` is at the
      offset that `replay` computes, both loops sleep before the same fills for
      the same times, and neither releases a fill before its offset;
    * whatever the speed does, a step that ran with a positive speed is at most a
      second behind `next_emit`. -/
theorem pacing_loops_agree (start speed : ℚ) (ticks : List Tick)
    (hclock : (init start speed).Clocked start ticks) :
    let paces := (init start speed).trace ticks
    let sleeps := (Paced.run speed start (ticks.map fun tick => (tick.fill, tick.paced))).sleeps
    (0 < speed → Constant speed ticks → (∀ pace ∈ paces, pace.resynced = false) →
      paces.map Pace.nextEmit =
        ticks.map (fun tick => start + offset speed (dataStart ticks) tick.fill) ∧
      paces.map Pace.sleep = sleeps ∧
      (∀ tick ∈ ticks, start + offset speed (dataStart ticks) tick.fill ≤ tick.released)) ∧
    List.Forall₂ (fun tick sleep =>
      start + offset speed (dataStart ticks) tick.fill ≤ tick.paced + sleep.getD 0) ticks sleeps ∧
    List.Forall₂ (fun tick pace => pace.ran = true → tick.paced ≤ pace.nextEmit + 1) ticks paces := by
  intro paces sleeps
  have hsleeps : sleeps = ticks.map fun tick =>
      sleepUntil (start + offset speed (dataStart ticks) tick.fill) tick.paced := by
    cases ticks with
    | nil => rfl
    | cons tick ticks =>
      have hrun := Paced.sleeps_run speed start (tick.fill, tick.paced)
        (ticks.map fun tick => (tick.fill, tick.paced))
      rw [← List.map_cons (f := fun tick : Tick => (tick.fill, tick.paced)), List.map_map] at hrun
      exact hrun
  refine ⟨?_, ?_, backlog_le hclock⟩
  · intro hspeed hconst hresync
    obtain ⟨hemit, hsleep⟩ := agree_of_constant hclock hspeed hconst hresync
    refine ⟨hemit, hsleep.trans hsleeps.symm, ?_⟩
    have hslept : List.Forall₂ (fun tick sleep => tick.paced + sleep.getD 0 ≤ tick.released) ticks
        (paces.map Pace.sleep) :=
      (List.forall₂_map_right_iff).mpr (hclock.released.imp fun _ _ h => h.2.2)
    rw [hsleep, List.forall₂_map_right_iff] at hslept
    exact fun tick htick =>
      (le_add_sleepUntil _ _).trans (List.forall₂_same.mp hslept tick htick)
  · rw [hsleeps, List.forall₂_map_right_iff]
    exact List.forall₂_same.mpr fun tick _ => le_add_sleepUntil _ _

/-- Two fills a second apart at double speed, and a clock that sleeps too long. -/
def oversleeping : List Tick :=
  [⟨⟨"v", "BTC", 1, 1, .B, 5000, 0, true⟩, 2, false, 10, 10, 10, 10⟩,
    ⟨⟨"v", "BTC", 1, 1, .B, 6000, 0, true⟩, 2, false, 10, 10.1, 10.1, 10.75⟩]

theorem pacing_loops_agree_oversleeping :
    ((init 10 2).trace oversleeping).map Pace.nextEmit = [10, 10.5] ∧
    ((init 10 2).trace oversleeping).map Pace.sleep =
      (Paced.run 2 10 (oversleeping.map fun tick => (tick.fill, tick.paced))).sleeps ∧
    ((init 10 2).trace oversleeping).map Pace.sleep = [none, some 0.4] := by
  have h := (pacing_loops_agree 10 2 oversleeping (by decide +kernel)).1 (by norm_num)
    (by simp [Constant, oversleeping]) (by decide +kernel)
  exact ⟨h.1.trans (by decide +kernel), h.2.1, by decide +kernel⟩

end Pacer

end FeatureStore
