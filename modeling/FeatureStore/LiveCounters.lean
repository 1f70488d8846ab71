/-
  FeatureStore/LiveCounters.lean
  ==============================
  **The counters of the write fleet** (`src/feature_store/dashboard.py`).

  The ingest process and the blasters each have a `Pipeline` of their own and
  publish its `count` from time to time, `_ingest_proc` under `writes_total` and
  the blaster `wid` under `bw_{wid}`.  The reader copies the shared dictionary, adds
  up what it has copied and shows the total, and its rate over the last 2.5 s.

  The processes, their drivers and the reader take turns in any order, and a copy of
  the dictionary takes a turn for each key.
-/
import FeatureStore.Collect
import FeatureStore.SlidingWindow
import FeatureStore.Writer
import Mathlib.Algebra.Order.BigOperators.Group.Finset
import Mathlib.Data.Fintype.Basic
import Mathlib.Data.Fintype.Sum
import Mathlib.Tactic.DeriveFintype

namespace FeatureStore

/-- The keys of the shared dictionary that hold a counter. -/
inductive Counter (n : ℕ) where
  | writesTotal
  | bw (wid : Fin n)
deriving DecidableEq, Fintype

namespace Counter

variable {n : ℕ}

/-- `k.startswith("bw_")` -/
def isBw : Counter n → Bool
  | writesTotal => false
  | bw _ => true

/-- `total_w` -/
def totalW (snap : Dict (Counter n) ℕ) : ℕ :=
  (snap.get? .writesTotal).getD 0 +
    ((snap.items.filter fun item => item.1.isBw).map Prod.snd).sum

end Counter

/-- What `STATS` shows of the writes, and the time it was shown at. -/
structure Shown where
  now : ℚ
  writesTotal : ℕ
  writesPerS : ℚ

/-- An entry of `whist`. -/
def Shown.reading (self : Shown) : ℚ × ℚ := (self.now, self.writesTotal)

structure LiveCounters (n : ℕ) where
  systems : Counter n → System
  shared : Collect.State (Counter n) ℕ := {}
  whist : List (ℚ × ℚ) := []
  shown : List Shown := []

namespace LiveCounters

inductive Event (n : ℕ) where
  | work (k : Counter n) (a : Action) -- of a process or its driver
  | publish (k : Counter n)
  | start -- of `snap = dict(shared)`
  | fetch
  | refresh (now : ℚ)

variable {n : ℕ}

def init (maxInflight sampleEvery : Counter n → ℕ) : LiveCounters n :=
  { systems := fun k => System.init (maxInflight k) (sampleEvery k) }

def step (self : LiveCounters n) (e : Event n) : Option (LiveCounters n) :=
  match e with
  | .work k a =>
      ((self.systems k).step a).map fun sys =>
        { self with systems := Function.update self.systems k sys }
  | .publish k => some { self with shared := self.shared.assign k (self.systems k).pipe.count }
  | .start => self.shared.start.map fun shared => { self with shared }
  | .fetch => self.shared.fetch.map fun shared => { self with shared }
  | .refresh now =>
      self.shared.finish.map fun (snap, shared) =>
        let totalW := Counter.totalW snap
        let whist := SlidingWindow.push 2.5 self.whist (now, totalW)
        let wps := SlidingWindow.rate whist
        { self with shared, whist, shown := self.shown ++ [⟨now, totalW, max 0 wps⟩] }

def run (maxInflight sampleEvery : Counter n → ℕ) (events : List (Event n)) :
    Option (LiveCounters n) :=
  Runs.run step (init maxInflight sampleEvery) events

end LiveCounters

/-! ### Totals -/

namespace Counter

variable {n : ℕ}

theorem isBw_iff (k : Counter n) : k.isBw = true ↔ k ≠ writesTotal := by
  cases k <;> simp [isBw]

theorem totalW_eq_sum (snap : Dict (Counter n) ℕ) :
    totalW snap = ∑ k, (snap.get? k).getD 0 := by
  have hitems : ∀ l : List (Counter n × ℕ),
      ((l.filter fun item => item.1.isBw).map Prod.snd).sum =
        (l.map fun item => if item.1.isBw then item.2 else 0).sum := by
    intro l
    induction l with
    | nil => rfl
    | cons item l ih => by_cases h : item.1.isBw <;> simp [h, ih]
  have hkeys : ∑ k ∈ snap.keys.toFinset, (if k.isBw then (snap.get? k).getD 0 else 0) =
      ∑ k, if k.isBw then (snap.get? k).getD 0 else 0 := by
    refine Finset.sum_subset (Finset.subset_univ _) fun k _ hk => ?_
    rw [List.mem_toFinset, ← Dict.get?_eq_none_iff] at hk
    simp [hk]
  have hbw : ∑ k, (if k.isBw then (snap.get? k).getD 0 else 0) =
      ∑ k ∈ Finset.univ.erase writesTotal, (snap.get? k).getD 0 := by
    rw [← Finset.sum_filter]
    refine Finset.sum_congr ?_ fun k _ => rfl
    ext k
    simp [isBw_iff]
  rw [totalW, hitems, Dict.sum_items snap (fun k v => if k.isBw then v else 0) 0, hkeys, hbw,
    Finset.add_sum_erase _ (fun k => (snap.get? k).getD 0) (Finset.mem_univ writesTotal)]

end Counter

/-! ### Every run of the fleet -/

/-- The counter of a pipeline does not go down. -/
theorem System.count_le_step {s s' : System} {a : Action} (h : s.step a = some s') :
    s.pipe.count ≤ s'.pipe.count := by
  cases effect_of_step h with
  | accountDone r now t0 h => exact Nat.le_succ _
  | _ => exact le_refl _

namespace LiveCounters

open Collect (State Since Growing dict get?_dict_snoc)

variable {n : ℕ}

/-- What holds in every state of the fleet: nothing is published that has not been
    acknowledged, what is published grows, and what has been shown is in the queue and
    is no more than there was in the dictionary when the copy under way began. -/
structure Honest (d : LiveCounters n) : Prop where
  published : ∀ k, (d.shared.shared.get? k).getD 0 ≤ (d.systems k).pipe.count
  growing : Growing (fun v => v.getD 0) d.shared.written
  upTo : ∃ mark, Since mark d.shared ∧ ∀ x ∈ d.shown,
    x.writesTotal ≤ ∑ k, ((dict (d.shared.written.take mark)).get? k).getD 0
  sorted : d.shown.Pairwise fun x y => x.writesTotal ≤ y.writesTotal
  whist : d.whist = SlidingWindow.window 2.5 (d.shown.map Shown.reading)
  rate : ∀ p x, p ++ [x] <+: d.shown → x.writesPerS =
    max 0 (SlidingWindow.rate (SlidingWindow.window 2.5 ((p ++ [x]).map Shown.reading)))

theorem honest_init (maxInflight sampleEvery : Counter n → ℕ) :
    Honest (init maxInflight sampleEvery) where
  published := fun k => Nat.zero_le _
  growing := fun k i j hij => by
    rw [init, List.take_nil, List.take_nil]
  upTo := ⟨0, Since.of_idle (s := {}) rfl, fun x hx => absurd hx List.not_mem_nil⟩
  sorted := List.Pairwise.nil
  whist := rfl
  rate := fun p x h => absurd (List.prefix_nil.mp h) (by simp)

/-- What has been shown is no more than what the dictionary holds. -/
theorem Honest.shown_le {self : LiveCounters n} (h : Honest self) {x : Shown}
    (hx : x ∈ self.shown) : x.writesTotal ≤ ∑ k, (self.shared.shared.get? k).getD 0 := by
  obtain ⟨mark, hsince, hle⟩ := h.upTo
  refine (hle x hx).trans (Finset.sum_le_sum fun k _ => ?_)
  have hgrown := h.growing k mark _ hsince.1
  rwa [List.take_length] at hgrown

theorem Honest.publish {self : LiveCounters n} (h : Honest self) (k : Counter n) :
    Honest { self with shared := self.shared.assign k (self.systems k).pipe.count } := by
  obtain ⟨mark, hsince, hle⟩ := h.upTo
  refine
    { h with
      published := fun k' => ?_
      growing := h.growing.assign (h.published k)
      upTo := ⟨mark, hsince.assign _ _, fun x hx => ?_⟩ }
  · rw [State.shared, State.assign, get?_dict_snoc]
    by_cases hk : k = k'
    · subst hk
      rw [if_pos rfl]
      exact le_refl _
    · rw [if_neg hk]
      exact h.published k'
  · rw [State.assign, List.take_append_of_le_length hsince.1]
    exact hle x hx

theorem Honest.refresh {self : LiveCounters n} (h : Honest self) (now : ℚ)
    {snap : Dict (Counter n) ℕ} {shared : State (Counter n) ℕ}
    (hfinish : self.shared.finish = some (snap, shared)) :
    Honest
      { self with
        shared
        whist := SlidingWindow.push 2.5 self.whist (now, (Counter.totalW snap : ℚ))
        shown := self.shown ++ [⟨now, Counter.totalW snap, max 0 (SlidingWindow.rate
          (SlidingWindow.push 2.5 self.whist (now, (Counter.totalW snap : ℚ))))⟩] } := by
  obtain ⟨mark, hsince, hle⟩ := h.upTo
  obtain ⟨⟨time, htime, hgot⟩, hwritten, hnext⟩ := hsince.finish hfinish
  have hbounds := fun k => h.growing.le htime hgot k
  have hfloor : ∀ x ∈ self.shown, x.writesTotal ≤ Counter.totalW snap := by
    intro x hx
    rw [Counter.totalW_eq_sum]
    exact (hle x hx).trans (Finset.sum_le_sum fun k _ => (hbounds k).1)
  have hceil : Counter.totalW snap ≤ ∑ k, ((dict self.shared.written).get? k).getD 0 := by
    rw [Counter.totalW_eq_sum]
    exact Finset.sum_le_sum fun k _ => (hbounds k).2
  have hwhist : SlidingWindow.push 2.5 self.whist (now, (Counter.totalW snap : ℚ)) =
      SlidingWindow.window 2.5 (self.shown.map Shown.reading ++
        [(now, (Counter.totalW snap : ℚ))]) := by
    rw [SlidingWindow.window_snoc, h.whist]
  exact
    { published := fun k => by
        rw [State.shared, hwritten]
        exact h.published k
      growing := by
        rw [hwritten]
        exact h.growing
      upTo := by
        refine ⟨self.shared.written.length, hnext, fun x hx => ?_⟩
        rw [hwritten, List.take_length]
        rcases List.mem_append.mp hx with hx | hx
        · exact (hfloor x hx).trans hceil
        · obtain rfl := List.mem_singleton.mp hx
          exact hceil
      sorted := by
        refine List.pairwise_append.mpr ⟨h.sorted, List.pairwise_singleton _ _, ?_⟩
        intro x hx y hy
        obtain rfl := List.mem_singleton.mp hy
        exact hfloor x hx
      whist := by
        rw [List.map_append]
        exact hwhist
      rate := fun p x hpre => by
        rcases List.prefix_concat_iff.mp hpre with heq | hpre
        · obtain ⟨rfl, hx⟩ := List.append_inj' heq rfl
          obtain rfl := List.singleton_inj.mp hx
          rw [List.map_append]
          exact congrArg (fun l => max 0 (SlidingWindow.rate l)) hwhist
        · exact h.rate p x hpre }

/-- A step of a copy changes nothing but the copy. -/
theorem Honest.copy {self : LiveCounters n} (h : Honest self) {shared : State (Counter n) ℕ}
    (hwritten : shared.written = self.shared.written)
    (hsince : ∀ mark, Since mark self.shared → Since mark shared) :
    Honest { self with shared } := by
  obtain ⟨mark, hmark, hle⟩ := h.upTo
  refine
    { h with
      published := fun k => ?_
      growing := ?_
      upTo := ⟨mark, hsince mark hmark, fun x hx => ?_⟩ }
  · rw [State.shared, hwritten]
    exact h.published k
  · rw [hwritten]
    exact h.growing
  · rw [hwritten]
    exact hle x hx

theorem Honest.step {self self' : LiveCounters n} (h : Honest self) {e : Event n}
    (hstep : self.step e = some self') : Honest self' := by
  cases e with
  | work k a =>
    obtain ⟨sys, hsys, rfl⟩ := Option.map_eq_some_iff.mp hstep
    refine { h with published := fun k' => (h.published k').trans ?_ }
    by_cases hk : k' = k
    · subst hk
      exact (System.count_le_step hsys).trans (by simp)
    · simp [hk]
  | publish k =>
    obtain rfl := Option.some.inj hstep
    exact h.publish k
  | start =>
    obtain ⟨shared, hshared, rfl⟩ := Option.map_eq_some_iff.mp hstep
    exact h.copy (State.written_start hshared) fun mark hmark => hmark.start hshared
  | fetch =>
    obtain ⟨shared, hshared, rfl⟩ := Option.map_eq_some_iff.mp hstep
    exact h.copy (State.written_fetch hshared) fun mark hmark => hmark.fetch hshared
  | refresh now =>
    obtain ⟨⟨snap, shared⟩, hfinish, rfl⟩ := Option.map_eq_some_iff.mp hstep
    exact h.refresh now hfinish

theorem honest_run {maxInflight sampleEvery : Counter n → ℕ} {events : List (Event n)}
    {self : LiveCounters n} (hrun : run maxInflight sampleEvery events = some self) : Honest self :=
  Runs.run_invariant step (p := fun _ => True) (fun _ _ _ _ h hstep => h.step hstep)
    (fun _ _ => trivial) (honest_init maxInflight sampleEvery) hrun

/-- What was shown in the 2.5 s up to `x`, where `p` was shown before it. -/
def recent (p : List Shown) (x : Shown) : List Shown :=
  (p ++ [x]).filter fun y => x.now - y.now ≤ 2.5

theorem window_readings {p : List Shown} {x : Shown}
    (hclock : (p ++ [x]).Pairwise fun y z => y.now ≤ z.now) :
    SlidingWindow.window 2.5 ((p ++ [x]).map Shown.reading) = (recent p x).map Shown.reading := by
  have htimed : SlidingWindow.Timed (p.map Shown.reading ++ [x.reading]) := by
    rw [SlidingWindow.Timed, ← List.map_singleton, ← List.map_append, List.pairwise_map]
    exact hclock
  have hwindow := SlidingWindow.window_eq_filter (show (0 : ℚ) ≤ 2.5 by norm_num) htimed
  rw [← List.map_singleton, ← List.map_append, List.filter_map] at hwindow
  exact hwindow

/-- **What the dashboard shows of the writes.**  In every run of the processes, their
    drivers and the reader, with a clock that does not go back, the total that is
    shown never goes down and never counts a write that has not been acknowledged.
    The rate is the mean over exactly the last 2.5 s, it is not negative, and it
    lies between the slowest and the fastest growth from one refresh to the next. -/
theorem shown_writes (maxInflight sampleEvery : Counter n → ℕ) (events : List (Event n))
    (self : LiveCounters n) (hrun : run maxInflight sampleEvery events = some self)
    (hclock : self.shown.Pairwise fun y z => y.now ≤ z.now) (p : List Shown) (x : Shown)
    (hx : p ++ [x] <+: self.shown) :
    x.writesTotal ≤ ∑ k, (self.systems k).pipe.count ∧
    (∀ y ∈ p, y.writesTotal ≤ x.writesTotal) ∧
    0 ≤ x.writesPerS ∧
    (∀ y, (recent p x).head? = some y → y.now < x.now →
      x.writesPerS * (x.now - y.now) = (x.writesTotal : ℚ) - y.writesTotal ∧
      ∀ c, (SlidingWindow.AtLeast c ((recent p x).map Shown.reading) → c ≤ x.writesPerS) ∧
        (SlidingWindow.AtMost c ((recent p x).map Shown.reading) → x.writesPerS ≤ c)) ∧
    ((∀ y ∈ recent p x, y.now = x.now) → x.writesPerS = 0) := by
  have h := honest_run hrun
  have hclock' := hclock.sublist hx.sublist
  have hsorted := h.sorted.sublist hx.sublist
  have hwindow := window_readings hclock'
  have hgrows : SlidingWindow.AtLeast 0 ((recent p x).map Shown.reading) := by
    refine List.Pairwise.isChain (List.pairwise_map.mpr ?_)
    refine (hsorted.sublist List.filter_sublist).imp fun {y z} hle => ?_
    have hcast : (y.writesTotal : ℚ) ≤ z.writesTotal := Nat.cast_le.mpr hle
    simpa [Shown.reading] using hcast
  have hrate : x.writesPerS = SlidingWindow.rate ((recent p x).map Shown.reading) := by
    rw [h.rate p x hx, hwindow]
    exact max_eq_right (SlidingWindow.rate_nonneg hgrows)
  have hlast : ((recent p x).map Shown.reading).getLast? = some x.reading := by
    have hself : x.now - x.now ≤ 2.5 := by norm_num
    rw [recent, List.filter_append, List.filter_singleton, decide_eq_true hself, List.map_append]
    exact List.getLast?_concat
  refine ⟨?_, ?_, ?_, ?_, ?_⟩
  · exact (h.shown_le (hx.subset (by simp))).trans (Finset.sum_le_sum fun k _ => h.published k)
  · intro y hy
    exact (List.pairwise_append.mp hsorted).2.2 y hy x (List.mem_singleton.mpr rfl)
  · rw [hrate]
    exact SlidingWindow.rate_nonneg hgrows
  · intro y hy hlt
    have hfirst : ((recent p x).map Shown.reading).head? = some y.reading := by
      rw [List.head?_map, hy, Option.map_some]
    rw [hrate]
    exact ⟨SlidingWindow.rate_mul_eq hfirst hlast hlt, fun c =>
      ⟨fun hc => hc.le_rate hfirst hlast hlt, fun hc => hc.rate_le hfirst hlast hlt⟩⟩
  · intro hnow
    rw [hrate, SlidingWindow.rate, hlast, List.head?_map]
    cases hhead : (recent p x).head? with
    | none => rfl
    | some y =>
      have hy : y.now = x.now := hnow y (List.mem_of_head? hhead)
      simp [Shown.reading, hy]

/-- A write of a process is acknowledged. -/
def acked (k : Counter 1) (r : ℕ) : List (Event 1) :=
  [.work k .callExecute, .work k (.acquire 0), .work k .send, .work k .register, .work k .ret,
    .work k (.release r .done), .work k (.account r 0)]

/-- The ingest process has a write acknowledged before the first refresh, and the blaster
    two before the second, of which it has published one. -/
def twoRefreshes : List (Event 1) :=
  acked .writesTotal 0 ++ [.publish .writesTotal, .start, .fetch, .refresh 0] ++
    acked (.bw 0) 0 ++ [.publish (.bw 0)] ++ acked (.bw 0) 1 ++
    [.start, .fetch, .fetch, .refresh 1]

theorem shown_writes_two_refreshes :
    ∃ self y x, run (fun _ => 1) (fun _ => 256) twoRefreshes = some self ∧ self.shown = [y, x] ∧
      y.writesTotal = 1 ∧ x.writesTotal = 2 ∧ ∑ k, (self.systems k).pipe.count = 3 ∧
      x.writesTotal ≤ ∑ k, (self.systems k).pipe.count ∧
      y.writesTotal ≤ x.writesTotal ∧ x.writesPerS = 1 := by
  obtain ⟨self, hrun, y, x, hshown, hy, hx, htotal, htotal', hcount⟩ : ∃ self,
      run (fun _ => 1) (fun _ => 256) twoRefreshes = some self ∧
      ∃ y x, self.shown = [y, x] ∧ y.now = 0 ∧ x.now = 1 ∧ y.writesTotal = 1 ∧ x.writesTotal = 2 ∧
        ∑ k, (self.systems k).pipe.count = 3 :=
    ⟨_, rfl, _, _, rfl, rfl, rfl, rfl, rfl, rfl⟩
  have hclock : self.shown.Pairwise fun y z => y.now ≤ z.now := by
    simp [hshown, hy, hx]
  obtain ⟨hsum, hmono, _, hrate, _⟩ :=
    shown_writes _ _ twoRefreshes self hrun hclock [y] x (by rw [hshown]; exact List.prefix_refl _)
  have hrecent : (recent [y] x).head? = some y := by
    have hold : x.now - y.now ≤ 2.5 := by norm_num [hx, hy]
    rw [recent, List.singleton_append, List.filter_cons, if_pos (decide_eq_true hold),
      List.head?_cons]
  have heq := (hrate y hrecent (by norm_num [hx, hy])).1
  rw [hx, hy, htotal, htotal'] at heq
  refine ⟨self, y, x, hrun, hshown, htotal, htotal', hcount, hsum,
    hmono y (List.mem_singleton.mpr rfl), ?_⟩
  norm_num at heq
  exact heq

end LiveCounters

end FeatureStore
