/-
  FeatureStore/Tumbling.lean
  ==========================
  **Tumbling-window aggregation over a stream.**

  An event belongs to the window that starts at `startOf event`.  The aggregator
  holds one open bucket.  An event of the same window is added to it, an event
  of a later window closes it and opens the next one, and an event of an
  earlier window is late and changes nothing.

  The batch reading of the same stream is `counted`: the events that start at
  `t` and are not late, i.e. start no earlier than every event before them.
  The main results say that the stream agrees with the batch:

    * the stamps of the buckets ever opened are strictly increasing
      (`panes_pairwise`), and the open one is the greatest start seen
      (`current_isGreatest`);
    * every bucket is the fold of the events counted for it
      (`panes_eq_pane`), and a stamp has a bucket exactly when it has a counted
      event (`mem_stamps_iff`);
    * in a stream sorted by start every event is counted
      (`counted_of_sorted`);
    * coarser windows nest over finer ones (`countedIdx_nested`,
      `closes_nested`).

  Nothing in this file depends on what the events, times and buckets are.
-/
import Mathlib.Order.Bounds.Basic
import Mathlib.Order.Bounds.Image
import Mathlib.Data.List.Basic
import Mathlib.Data.List.Nodup
import Mathlib.Data.List.Pairwise
import FeatureStore.Grouping

universe u v w

/-- A tumbling-window aggregation of events `ε` by window start `τ` into
    buckets `β`.  Every bucket carries the start of its window. -/
structure Tumbling (ε : Type u) (τ : Type v) (β : Type w) where
  startOf : ε → τ
  fresh : τ → β
  add : β → ε → β
  stamp : β → τ
  stamp_fresh : ∀ t, stamp (fresh t) = t
  stamp_add : ∀ bucket event, stamp (add bucket event) = stamp bucket

namespace Tumbling

open Grouping (group)

variable {ε : Type u} {τ : Type v} {β : Type w} (W : Tumbling ε τ β)

attribute [simp] stamp_fresh stamp_add

/-- The bucket that a batch of events makes. -/
def pane (t : τ) (batch : List ε) : β := batch.foldl W.add (W.fresh t)

theorem pane_snoc (t : τ) (batch : List ε) (event : ε) :
    W.pane t (batch ++ [event]) = W.add (W.pane t batch) event := by
  simp [pane]

variable [LinearOrder τ]

/-! ### The stream -/

/-- The open bucket after one more event. -/
def advance (cur : Option β) (event : ε) : Option β :=
  match cur with
  | none => some (W.add (W.fresh (W.startOf event)) event)
  | some bucket =>
      if W.stamp bucket = W.startOf event then some (W.add bucket event)
      else if W.stamp bucket < W.startOf event then
        some (W.add (W.fresh (W.startOf event)) event)
      else some bucket

/-- The bucket that the event closes, if any. -/
def closes (cur : Option β) (event : ε) : Option β :=
  cur.filter fun bucket => W.stamp bucket < W.startOf event

/-- The open bucket after a stream of events. -/
def current (events : List ε) : Option β := events.foldl W.advance none

/-- The buckets closed on the way, oldest first, when `cur` is open at first. -/
def closedFrom (cur : Option β) : List ε → List β
  | [] => []
  | event :: events =>
      (W.closes cur event).toList ++ closedFrom (W.advance cur event) events

def closed (events : List ε) : List β := W.closedFrom none events

/-- Every bucket ever opened, oldest first. -/
def panes (events : List ε) : List β := W.closed events ++ (W.current events).toList

@[simp] theorem current_nil : W.current [] = none := rfl

@[simp] theorem closed_nil : W.closed [] = [] := rfl

@[simp] theorem current_snoc (events : List ε) (event : ε) :
    W.current (events ++ [event]) = W.advance (W.current events) event := by
  simp [current]

theorem closedFrom_append (cur : Option β) (events more : List ε) :
    W.closedFrom cur (events ++ more) =
      W.closedFrom cur events ++ W.closedFrom (events.foldl W.advance cur) more := by
  induction events generalizing cur with
  | nil => rfl
  | cons event events ih => simp [closedFrom, ih]

@[simp] theorem closed_snoc (events : List ε) (event : ε) :
    W.closed (events ++ [event]) =
      W.closed events ++ (W.closes (W.current events) event).toList := by
  simp [closed, closedFrom_append, closedFrom, current]

/-! ### The batch -/

/-- `event` starts no earlier than anything in `past`. -/
def OnTime (past : List ε) (event : ε) : Prop :=
  ∀ other ∈ past, W.startOf other ≤ W.startOf event

instance (past : List ε) (event : ε) : Decidable (W.OnTime past event) :=
  inferInstanceAs (Decidable (∀ other ∈ past, W.startOf other ≤ W.startOf event))

/-- The positions of the events counted for the window that starts at `t`. -/
def countedIdx (events : List ε) (t : τ) : List Nat :=
  (List.range events.length).filter fun i =>
    (events[i]?).any fun event =>
      decide (W.startOf event = t) && decide (W.OnTime (events.take i) event)

/-- The events counted for the window that starts at `t`, in order. -/
def counted (events : List ε) (t : τ) : List ε :=
  (W.countedIdx events t).filterMap fun i => events[i]?

@[simp] theorem counted_nil (t : τ) : W.counted [] t = [] := rfl

theorem mem_countedIdx {events : List ε} {t : τ} {i : Nat} :
    i ∈ W.countedIdx events t ↔
      ∃ event, events[i]? = some event ∧ W.startOf event = t ∧
        W.OnTime (events.take i) event := by
  simp only [countedIdx, List.mem_filter, List.mem_range, Option.any_eq_true,
    Bool.and_eq_true, decide_eq_true_eq]
  constructor
  · rintro ⟨_, event, hget, hstart, htime⟩
    exact ⟨event, hget, hstart, htime⟩
  · rintro ⟨event, hget, hstart, htime⟩
    exact ⟨(List.getElem?_eq_some_iff.mp hget).1, event, hget, hstart, htime⟩

/-- A position is counted for one window at most. -/
theorem countedIdx_start_unique {events : List ε} {t t' : τ} {i : Nat}
    (h : i ∈ W.countedIdx events t) (h' : i ∈ W.countedIdx events t') : t = t' := by
  obtain ⟨event, hget, hstart, _⟩ := (W.mem_countedIdx).mp h
  obtain ⟨event', hget', hstart', _⟩ := (W.mem_countedIdx).mp h'
  have heq : event = event' := Option.some.inj (hget.symm.trans hget')
  rw [← hstart, ← hstart', heq]

theorem countedIdx_snoc (events : List ε) (event : ε) (t : τ) :
    W.countedIdx (events ++ [event]) t =
      W.countedIdx events t ++
        if W.startOf event = t ∧ W.OnTime events event then [events.length] else [] := by
  unfold countedIdx
  rw [List.length_append, List.length_singleton, List.range_succ, List.filter_append]
  congr 1
  · -- the earlier positions see the same event and the same past
    apply List.filter_congr
    intro i hi
    have hlt : i < events.length := List.mem_range.mp hi
    rw [List.getElem?_append_left hlt, List.take_append_of_le_length (le_of_lt hlt)]
  · by_cases h : W.startOf event = t ∧ W.OnTime events event
    · simp [h.1, h.2]
    · rw [if_neg h]
      simp only [List.filter_cons, List.getElem?_concat_length, Option.any_some,
        List.take_left, List.filter_nil]
      rw [if_neg]
      simpa using h

theorem counted_snoc (events : List ε) (event : ε) (t : τ) :
    W.counted (events ++ [event]) t =
      W.counted events t ++
        if W.startOf event = t ∧ W.OnTime events event then [event] else [] := by
  unfold counted
  rw [W.countedIdx_snoc, List.filterMap_append]
  congr 1
  · apply List.filterMap_congr
    intro i hi
    obtain ⟨other, hget, _⟩ := (W.mem_countedIdx).mp hi
    have hlt : i < events.length := (List.getElem?_eq_some_iff.mp hget).1
    exact List.getElem?_append_left hlt
  · by_cases h : W.startOf event = t ∧ W.OnTime events event
    · simp [if_pos h]
    · simp [if_neg h]

/-- A longer stream only adds to what is counted. -/
theorem counted_extends (events more : List ε) (t : τ) :
    W.counted events t <+: W.counted (events ++ more) t := by
  induction more using List.reverseRecOn with
  | nil => rw [List.append_nil]
  | append_singleton more event ih =>
    rw [← List.append_assoc, counted_snoc]
    exact ih.trans (List.prefix_append _ _)

theorem mem_counted {events : List ε} {t : τ} {event : ε} (h : event ∈ W.counted events t) :
    event ∈ events ∧ W.startOf event = t := by
  obtain ⟨i, hi, hget⟩ := List.mem_filterMap.mp h
  obtain ⟨other, hget', hstart, _⟩ := (W.mem_countedIdx).mp hi
  have heq : event = other := Option.some.inj (hget.symm.trans hget')
  exact ⟨List.mem_of_getElem? hget, heq ▸ hstart⟩

theorem counted_eq_nil_of_lt {events : List ε} {t : τ} (h : ∀ event ∈ events, W.startOf event < t) :
    W.counted events t = [] := by
  apply List.eq_nil_iff_forall_not_mem.mpr
  intro event hevent
  obtain ⟨hmem, hstart⟩ := W.mem_counted hevent
  exact absurd (h event hmem) (by rw [hstart]; exact lt_irrefl t)

/-! ### What one event does -/

/-- The three things an event can do to an open bucket, besides opening the
    first one. -/
theorem advance_cases (bucket : β) (event : ε) :
    (W.stamp bucket = W.startOf event ∧
      W.advance (some bucket) event = some (W.add bucket event) ∧
      W.closes (some bucket) event = none) ∨
    (W.stamp bucket < W.startOf event ∧
      W.advance (some bucket) event = some (W.add (W.fresh (W.startOf event)) event) ∧
      W.closes (some bucket) event = some bucket) ∨
    (W.startOf event < W.stamp bucket ∧
      W.advance (some bucket) event = some bucket ∧
      W.closes (some bucket) event = none) := by
  rcases lt_trichotomy (W.stamp bucket) (W.startOf event) with h | h | h
  · exact Or.inr (Or.inl ⟨h, by simp [advance, h, ne_of_lt h], by simp [closes, h]⟩)
  · exact Or.inl ⟨h, by simp [advance, h], by simp [closes, h]⟩
  · exact Or.inr (Or.inr ⟨h, by simp [advance, ne_of_gt h, not_lt_of_gt h],
      by simp [closes, le_of_lt h]⟩)

@[simp] theorem advance_none (event : ε) :
    W.advance none event = some (W.add (W.fresh (W.startOf event)) event) := rfl

@[simp] theorem closes_none (event : ε) : W.closes none event = none := rfl

theorem advance_isSome (cur : Option β) (event : ε) : (W.advance cur event).isSome := by
  cases cur with
  | none => rfl
  | some bucket => rcases W.advance_cases bucket event with h | h | h <;> simp [h.2.1]

theorem current_eq_none_iff (events : List ε) : W.current events = none ↔ events = [] := by
  induction events using List.reverseRecOn with
  | nil => simp
  | append_singleton events event _ =>
    have h := W.advance_isSome (W.current events) event
    simp only [current_snoc, List.append_eq_nil_iff, List.cons_ne_nil, and_false, iff_false]
    exact Option.isSome_iff_ne_none.mp h

/-- **How a bucket comes to be open**: by the first event, or from the bucket
    that was open before the last one. -/
theorem current_snoc_cases {events : List ε} {event : ε} {bucket : β}
    (h : W.current (events ++ [event]) = some bucket) :
    (events = [] ∧ bucket = W.add (W.fresh (W.startOf event)) event) ∨
    ∃ old, W.current events = some old ∧
      ((W.stamp old = W.startOf event ∧ bucket = W.add old event ∧
        W.closes (some old) event = none) ∨
      (W.stamp old < W.startOf event ∧ bucket = W.add (W.fresh (W.startOf event)) event ∧
        W.closes (some old) event = some old) ∨
      (W.startOf event < W.stamp old ∧ bucket = old ∧ W.closes (some old) event = none)) := by
  rw [current_snoc] at h
  cases hcur : W.current events with
  | none =>
    rw [hcur, advance_none] at h
    exact Or.inl ⟨(W.current_eq_none_iff events).mp hcur, (Option.some.inj h).symm⟩
  | some old =>
    rw [hcur] at h
    refine Or.inr ⟨old, rfl, ?_⟩
    rcases W.advance_cases old event with
      ⟨hs, hadv, hclose⟩ | ⟨hs, hadv, hclose⟩ | ⟨hs, hadv, hclose⟩ <;> rw [hadv] at h <;>
      have hbucket := (Option.some.inj h).symm
    · exact Or.inl ⟨hs, hbucket, hclose⟩
    · exact Or.inr (Or.inl ⟨hs, hbucket, hclose⟩)
    · exact Or.inr (Or.inr ⟨hs, hbucket, hclose⟩)

/-! ### The open bucket is the greatest start -/

/-- The starts that occur in a stream. -/
def starts (events : List ε) : Set τ := {t | ∃ event ∈ events, W.startOf event = t}

theorem isGreatest_snoc {events : List ε} (event : ε) {t : τ}
    (h : IsGreatest (W.starts events) t) :
    IsGreatest (W.starts (events ++ [event])) (max t (W.startOf event)) := by
  obtain ⟨⟨other, hother, hstart⟩, hub⟩ := h
  constructor
  · rcases le_total t (W.startOf event) with hle | hle
    · exact ⟨event, by simp, (max_eq_right hle).symm⟩
    · exact ⟨other, by simp [hother], by rw [hstart, max_eq_left hle]⟩
  · rintro s ⟨other', hmem, rfl⟩
    rcases List.mem_append.mp hmem with hmem | hmem
    · exact le_max_of_le_left (hub ⟨other', hmem, rfl⟩)
    · rw [List.mem_singleton.mp hmem]
      exact le_max_right _ _

theorem current_isGreatest {events : List ε} {bucket : β} (h : W.current events = some bucket) :
    IsGreatest (W.starts events) (W.stamp bucket) := by
  induction events using List.reverseRecOn generalizing bucket with
  | nil => simp at h
  | append_singleton events event ih =>
    rcases W.current_snoc_cases h with ⟨rfl, rfl⟩ | ⟨old, hcur, hcases⟩
    · simp [starts]
    · have hmax := W.isGreatest_snoc event (ih hcur)
      rcases hcases with ⟨hs, rfl, _⟩ | ⟨hs, rfl, _⟩ | ⟨hs, rfl, _⟩
      · rw [hs, max_self] at hmax
        rwa [stamp_add, hs]
      · rw [max_eq_right (le_of_lt hs)] at hmax
        rwa [stamp_add, stamp_fresh]
      · rwa [max_eq_left (le_of_lt hs)] at hmax

theorem onTime_iff_of_current {events : List ε} {bucket : β} (h : W.current events = some bucket)
    (event : ε) : W.OnTime events event ↔ W.stamp bucket ≤ W.startOf event := by
  obtain ⟨⟨last, hlast, hstart⟩, hub⟩ := W.current_isGreatest h
  constructor
  · intro htime
    rw [← hstart]
    exact htime last hlast
  · intro hle other hother
    exact le_trans (hub ⟨other, hother, rfl⟩) hle

theorem onTime_of_current_none {events : List ε} (h : W.current events = none) (event : ε) :
    W.OnTime events event := by
  rw [(W.current_eq_none_iff events).mp h]
  intro other hother
  cases hother

/-! ### The stream agrees with the batch -/

/-- The open bucket is the fold of what is counted for it. -/
theorem current_eq_pane {events : List ε} {bucket : β} (h : W.current events = some bucket) :
    bucket = W.pane (W.stamp bucket) (W.counted events (W.stamp bucket)) := by
  induction events using List.reverseRecOn generalizing bucket with
  | nil => simp at h
  | append_singleton events event ih =>
    rcases W.current_snoc_cases h with ⟨rfl, rfl⟩ | ⟨old, hcur, hcases⟩
    · have hcond : W.startOf event = W.startOf event ∧ W.OnTime [] event :=
        ⟨rfl, W.onTime_of_current_none rfl event⟩
      rw [stamp_add, stamp_fresh, W.counted_snoc, if_pos hcond]
      rfl
    have hfold := ih hcur
    have htime := W.onTime_iff_of_current hcur event
    rcases hcases with ⟨hs, rfl, _⟩ | ⟨hs, rfl, _⟩ | ⟨hs, rfl, _⟩
    · -- same window: the event is on time and is added to the batch
      have hcond : W.startOf event = W.stamp old ∧ W.OnTime events event :=
        ⟨hs.symm, htime.mpr (le_of_eq hs)⟩
      rw [stamp_add, W.counted_snoc, if_pos hcond, W.pane_snoc, ← hfold]
    · -- a later window: nothing was counted for it before
      have hcond : W.startOf event = W.startOf event ∧ W.OnTime events event :=
        ⟨rfl, htime.mpr (le_of_lt hs)⟩
      have hnew : W.counted events (W.startOf event) = [] :=
        W.counted_eq_nil_of_lt fun other hother =>
          lt_of_le_of_lt ((W.current_isGreatest hcur).2 ⟨other, hother, rfl⟩) hs
      rw [stamp_add, stamp_fresh, W.counted_snoc, if_pos hcond, hnew]
      rfl
    · -- a late event is not counted
      have hcond : ¬(W.startOf event = W.stamp bucket ∧ W.OnTime events event) :=
        fun hc => absurd hc.1 (ne_of_lt hs)
      rw [W.counted_snoc, if_neg hcond, List.append_nil]
      exact hfold

/-- Closed buckets lie strictly before the open one. -/
theorem closed_lt_current {events : List ε} {bucket old : β} (h : W.current events = some bucket)
    (hold : old ∈ W.closed events) : W.stamp old < W.stamp bucket := by
  induction events using List.reverseRecOn generalizing bucket with
  | nil => simp at h
  | append_singleton events event ih =>
    rw [closed_snoc, List.mem_append] at hold
    rcases W.current_snoc_cases h with ⟨rfl, _⟩ | ⟨cur, hcur, hcases⟩
    · simp at hold
    rw [hcur] at hold
    rcases hcases with ⟨hs, rfl, hclose⟩ | ⟨hs, rfl, hclose⟩ | ⟨hs, rfl, hclose⟩ <;>
      rw [hclose] at hold
    · rw [stamp_add]
      exact ih hcur (by simpa using hold)
    · rw [stamp_add, stamp_fresh]
      rcases hold with hold | hold
      · exact lt_trans (ih hcur hold) hs
      · rw [Option.toList_some, List.mem_singleton] at hold
        rwa [hold]
    · exact ih hcur (by simpa using hold)

theorem closed_pairwise (events : List ε) :
    (W.closed events).Pairwise fun b b' => W.stamp b < W.stamp b' := by
  induction events using List.reverseRecOn with
  | nil => exact List.Pairwise.nil
  | append_singleton events event ih =>
    rw [closed_snoc, List.pairwise_append]
    refine ⟨ih, ?_, ?_⟩
    · cases W.closes (W.current events) event <;> simp
    · intro old hold bucket hbucket
      rw [Option.mem_toList] at hbucket
      exact W.closed_lt_current (Option.mem_filter_iff.mp hbucket).1 hold

/-- **The stamps of the buckets ever opened are strictly increasing.** -/
theorem panes_pairwise (events : List ε) :
    (W.panes events).Pairwise fun b b' => W.stamp b < W.stamp b' := by
  rw [panes, List.pairwise_append]
  refine ⟨W.closed_pairwise events, ?_, ?_⟩
  · cases W.current events <;> simp
  · intro old hold bucket hbucket
    rw [Option.mem_toList] at hbucket
    exact W.closed_lt_current hbucket hold

theorem panes_stamps_nodup (events : List ε) : ((W.panes events).map W.stamp).Nodup := by
  rw [List.Nodup, List.pairwise_map]
  exact (W.panes_pairwise events).imp fun h => ne_of_lt h

/-- A late event, or one of a new window, adds nothing to a closed window. -/
theorem counted_snoc_of_lt {events : List ε} {event : ε} {bucket : β} {t : τ}
    (h : W.current events = some bucket) (ht : t < W.stamp bucket) :
    W.counted (events ++ [event]) t = W.counted events t := by
  rw [W.counted_snoc, if_neg, List.append_nil]
  rintro ⟨hstart, htime⟩
  have hle := (W.onTime_iff_of_current h event).mp htime
  exact absurd (lt_of_lt_of_le ht hle) (by rw [hstart]; exact lt_irrefl t)

/-- A closed bucket is the fold of what is counted for it, also of what arrives
    after it has been closed. -/
theorem closed_eq_pane {events : List ε} {old : β} (hold : old ∈ W.closed events) :
    old = W.pane (W.stamp old) (W.counted events (W.stamp old)) := by
  induction events using List.reverseRecOn with
  | nil => simp at hold
  | append_singleton events event ih =>
    cases hcur : W.current events with
    | none =>
      obtain rfl : events = [] := (W.current_eq_none_iff events).mp hcur
      rw [closed_snoc] at hold
      simp at hold
    | some cur =>
      rw [closed_snoc, hcur, List.mem_append] at hold
      rcases hold with hold | hold
      · rw [W.counted_snoc_of_lt hcur (W.closed_lt_current hcur hold)]
        exact ih hold
      · rw [Option.mem_toList] at hold
        obtain ⟨hmem, hlt⟩ := Option.mem_filter_iff.mp hold
        obtain rfl : cur = old := Option.some.inj hmem
        have hcond : ¬(W.startOf event = W.stamp cur ∧ W.OnTime events event) := fun hc =>
          absurd hc.1 (ne_of_gt (of_decide_eq_true hlt))
        rw [W.counted_snoc, if_neg hcond, List.append_nil]
        exact W.current_eq_pane hcur

/-- **Every bucket is the fold of the events counted for it.** -/
theorem panes_eq_pane {events : List ε} {bucket : β} (h : bucket ∈ W.panes events) :
    bucket = W.pane (W.stamp bucket) (W.counted events (W.stamp bucket)) := by
  rcases List.mem_append.mp h with h | h
  · exact W.closed_eq_pane h
  · exact W.current_eq_pane (Option.mem_toList.mp h)

/-- Passing from the buckets of a stream to those of a longer one. -/
theorem stamps_panes_snoc (events : List ε) (event : ε) (t : τ) :
    t ∈ (W.panes (events ++ [event])).map W.stamp ↔
      t ∈ (W.panes events).map W.stamp ∨ (W.startOf event = t ∧ W.OnTime events event) := by
  cases hcur : W.current events with
  | none =>
    have htime := W.onTime_of_current_none hcur event
    obtain rfl : events = [] := (W.current_eq_none_iff events).mp hcur
    simp only [panes, closed_snoc, current_snoc, current_nil, closes_none, advance_none]
    simp [htime, eq_comm]
  | some cur =>
    have htime := W.onTime_iff_of_current hcur event
    rcases W.advance_cases cur event with
      ⟨hs, hadv, hclose⟩ | ⟨hs, hadv, hclose⟩ | ⟨hs, hadv, hclose⟩ <;>
      simp only [panes, closed_snoc, current_snoc, hcur, hadv, hclose, htime,
        Option.toList_none, Option.toList_some, List.append_nil, List.map_append, List.map_cons,
        List.map_nil, List.mem_append, List.mem_singleton, stamp_add, stamp_fresh]
    · constructor
      · exact Or.inl
      · rintro (h | ⟨h, _⟩)
        · exact h
        · exact Or.inr (by rw [← h, hs])
    · constructor
      · rintro (h | h)
        · exact Or.inl h
        · exact Or.inr ⟨h.symm, le_of_lt hs⟩
      · rintro (h | ⟨h, _⟩)
        · exact Or.inl h
        · exact Or.inr h.symm
    · constructor
      · exact Or.inl
      · rintro (h | ⟨_, h⟩)
        · exact h
        · exact absurd h (not_le_of_gt hs)

/-- **A stamp has a bucket exactly when it has a counted event.** -/
theorem mem_stamps_iff (events : List ε) (t : τ) :
    t ∈ (W.panes events).map W.stamp ↔ W.counted events t ≠ [] := by
  induction events using List.reverseRecOn with
  | nil => simp [panes]
  | append_singleton events event ih =>
    rw [W.stamps_panes_snoc, ih, W.counted_snoc]
    by_cases h : W.startOf event = t ∧ W.OnTime events event
    · simp [h]
    · simp [h]

/-- Every counted position belongs to a bucket. -/
theorem mem_stamps_of_mem_countedIdx {events : List ε} {t : τ} {i : Nat}
    (h : i ∈ W.countedIdx events t) : t ∈ (W.panes events).map W.stamp := by
  obtain ⟨event, hget, _⟩ := (W.mem_countedIdx).mp h
  exact (W.mem_stamps_iff events t).mpr
    (List.ne_nil_of_mem (List.mem_filterMap.mpr ⟨i, h, hget⟩))

/-! ### Sorted streams -/

/-- The stream comes in the order of window starts. -/
def Sorted (events : List ε) : Prop :=
  events.Pairwise fun e e' => W.startOf e ≤ W.startOf e'

theorem sorted_snoc {events : List ε} {event : ε} (h : W.Sorted (events ++ [event])) :
    W.Sorted events ∧ W.OnTime events event := by
  obtain ⟨h₁, _, h₂⟩ := List.pairwise_append.mp h
  exact ⟨h₁, fun other hother => h₂ other hother event (List.mem_singleton.mpr rfl)⟩

/-- **In a sorted stream every event is counted.** -/
theorem counted_of_sorted {events : List ε} (h : W.Sorted events) (t : τ) :
    W.counted events t = group W.startOf t events := by
  induction events using List.reverseRecOn with
  | nil => rfl
  | append_singleton events event ih =>
    obtain ⟨hsorted, htime⟩ := W.sorted_snoc h
    rw [W.counted_snoc, Grouping.group_snoc, ih hsorted]
    by_cases hs : W.startOf event = t <;> simp [hs, htime]

theorem mem_countedIdx_of_sorted {events : List ε} (h : W.Sorted events) {i : Nat} {event : ε}
    (hget : events[i]? = some event) : i ∈ W.countedIdx events (W.startOf event) := by
  rw [mem_countedIdx]
  refine ⟨event, hget, rfl, ?_⟩
  intro other hother
  obtain ⟨j, hj, hotherget⟩ := List.mem_take_iff_getElem.mp hother
  obtain ⟨hi, hget'⟩ := List.getElem?_eq_some_iff.mp hget
  have hji : j < i := by omega
  rw [← hotherget, ← hget']
  exact List.pairwise_iff_getElem.mp h j i (by omega) hi hji

/-- **Nothing is lost or duplicated.**  In a sorted stream the batches of the
    buckets, one after another, are the stream. -/
theorem flatMap_counted_of_sorted {events : List ε} (h : W.Sorted events) :
    ((W.panes events).flatMap fun bucket => W.counted events (W.stamp bucket)) = events := by
  induction events using List.reverseRecOn with
  | nil => rfl
  | append_singleton events event ih =>
    obtain ⟨hsorted, htime⟩ := W.sorted_snoc h
    have hih := ih hsorted
    cases hcur : W.current events with
    | none =>
      have hnil : events = [] := (W.current_eq_none_iff events).mp hcur
      have hcond : W.startOf event = W.startOf event ∧ W.OnTime events event := ⟨rfl, htime⟩
      simp only [panes, closed_snoc, current_snoc, hcur, closes_none, advance_none,
        Option.toList_none, Option.toList_some, List.append_nil, List.flatMap_append,
        List.flatMap_singleton, stamp_add, stamp_fresh]
      rw [W.counted_snoc, if_pos hcond, hnil]
      rfl
    | some cur =>
      have hle : W.stamp cur ≤ W.startOf event := (W.onTime_iff_of_current hcur event).mp htime
      have hclosed : ((W.closed events).flatMap fun bucket =>
          W.counted (events ++ [event]) (W.stamp bucket)) =
          (W.closed events).flatMap fun bucket => W.counted events (W.stamp bucket) :=
        List.flatMap_congr fun bucket hb =>
          W.counted_snoc_of_lt hcur (W.closed_lt_current hcur hb)
      simp only [panes, hcur, Option.toList_some, List.flatMap_append, List.flatMap_singleton] at hih
      rcases W.advance_cases cur event with
        ⟨hs, hadv, hclose⟩ | ⟨hs, hadv, hclose⟩ | ⟨hs, _, _⟩
      · have hcond : W.startOf event = W.stamp cur ∧ W.OnTime events event := ⟨hs.symm, htime⟩
        simp only [panes, closed_snoc, current_snoc, hcur, hadv, hclose, Option.toList_none,
          Option.toList_some, List.append_nil, List.flatMap_append, List.flatMap_singleton,
          stamp_add, hclosed]
        rw [W.counted_snoc, if_pos hcond, ← List.append_assoc, hih]
      · have hcond : ¬(W.startOf event = W.stamp cur ∧ W.OnTime events event) := fun hc =>
          absurd hc.1 (ne_of_gt hs)
        have hnew : W.startOf event = W.startOf event ∧ W.OnTime events event := ⟨rfl, htime⟩
        have hempty : W.counted events (W.startOf event) = [] :=
          W.counted_eq_nil_of_lt fun other hother =>
            lt_of_le_of_lt ((W.current_isGreatest hcur).2 ⟨other, hother, rfl⟩) hs
        simp only [panes, closed_snoc, current_snoc, hcur, hadv, hclose, Option.toList_some,
          List.flatMap_append, List.flatMap_singleton, stamp_add, stamp_fresh, hclosed]
        rw [W.counted_snoc events event (W.stamp cur), if_neg hcond, List.append_nil, hih,
          W.counted_snoc, if_pos hnew, hempty, List.nil_append]
      · exact absurd hle (not_le_of_gt hs)

/-! ### Streams in another order -/

section Reordered

variable {events events' : List ε}

theorem counted_perm (h : events.Perm events') (hs : W.Sorted events) (hs' : W.Sorted events')
    (t : τ) : (W.counted events t).Perm (W.counted events' t) := by
  rw [W.counted_of_sorted hs, W.counted_of_sorted hs']
  exact h.filter _

/-- The order of the events of a window does not show in the stamps. -/
theorem panes_stamps_perm (h : events.Perm events') (hs : W.Sorted events)
    (hs' : W.Sorted events') :
    (W.panes events).map W.stamp = (W.panes events').map W.stamp := by
  have hmem : ∀ t, t ∈ (W.panes events).map W.stamp ↔ t ∈ (W.panes events').map W.stamp := by
    intro t
    rw [W.mem_stamps_iff, W.mem_stamps_iff, ne_eq, ne_eq, not_iff_not]
    exact Grouping.eq_nil_iff_of_perm (W.counted_perm h hs hs' t)
  have hperm := (List.perm_ext_iff_of_nodup (W.panes_stamps_nodup events)
    (W.panes_stamps_nodup events')).mpr hmem
  have hle : ∀ l, ((W.panes l).map W.stamp).Pairwise (· ≤ ·) := fun l =>
    List.pairwise_map.mpr ((W.panes_pairwise l).imp le_of_lt)
  exact List.Perm.eq_of_pairwise (fun _ _ _ _ => le_antisymm) (hle events) (hle events') hperm

theorem current_stamp_perm (h : events.Perm events') :
    (W.current events).map W.stamp = (W.current events').map W.stamp := by
  have hstarts : W.starts events = W.starts events' := by
    ext t
    exact ⟨fun ⟨e, he, hstart⟩ => ⟨e, h.mem_iff.mp he, hstart⟩,
      fun ⟨e, he, hstart⟩ => ⟨e, h.mem_iff.mpr he, hstart⟩⟩
  have hnone := (W.current_eq_none_iff events).trans
    ((Grouping.eq_nil_iff_of_perm h).trans (W.current_eq_none_iff events').symm)
  cases hcur : W.current events with
  | none => rw [hnone.mp hcur]
  | some bucket =>
    cases hcur' : W.current events' with
    | none => exact absurd (hnone.mpr hcur') (by simp [hcur])
    | some bucket' =>
      have hgreatest := W.current_isGreatest hcur
      rw [hstarts] at hgreatest
      exact congrArg some (hgreatest.unique (W.current_isGreatest hcur'))

/-- The last start is open, in either order, and the others are closed. -/
theorem closed_stamps_perm (h : events.Perm events') (hs : W.Sorted events)
    (hs' : W.Sorted events') :
    (W.closed events).map W.stamp = (W.closed events').map W.stamp := by
  have hpanes := W.panes_stamps_perm h hs hs'
  have hopen : (W.current events).toList.map W.stamp = (W.current events').toList.map W.stamp := by
    rw [← Option.toList_map, W.current_stamp_perm h, Option.toList_map]
  rw [panes, panes, List.map_append, List.map_append, hopen] at hpanes
  exact List.append_cancel_right hpanes

end Reordered

/-! ### Nested windows -/

section Nested

variable {β' : Type w} {W} {W' : Tumbling ε τ β'} {q : τ → τ}

/-- `W'` is a coarser division of time than `W`: its starts are a monotone
    function of those of `W`. -/
theorem current_stamp_nested (hq : Monotone q) (hstart : ∀ e, W'.startOf e = q (W.startOf e))
    {events : List ε} {bucket : β} {bucket' : β'} (h : W.current events = some bucket)
    (h' : W'.current events = some bucket') : W'.stamp bucket' = q (W.stamp bucket) := by
  have himage : IsGreatest (q '' W.starts events) (q (W.stamp bucket)) :=
    hq.map_isGreatest (W.current_isGreatest h)
  have hset : W'.starts events = q '' W.starts events := by
    ext t
    constructor
    · rintro ⟨event, hmem, rfl⟩
      exact ⟨W.startOf event, ⟨event, hmem, rfl⟩, (hstart event).symm⟩
    · rintro ⟨_, ⟨event, hmem, rfl⟩, rfl⟩
      exact ⟨event, hmem, hstart event⟩
  exact (W'.current_isGreatest h').unique (hset ▸ himage)

/-- What the finer open bucket counts, the coarser open bucket counts. -/
theorem countedIdx_nested (hq : Monotone q) (hstart : ∀ e, W'.startOf e = q (W.startOf e))
    {events : List ε} {bucket : β} {bucket' : β'} (h : W.current events = some bucket)
    (h' : W'.current events = some bucket') {i : Nat}
    (hi : i ∈ W.countedIdx events (W.stamp bucket)) :
    i ∈ W'.countedIdx events (W'.stamp bucket') := by
  obtain ⟨event, hget, hs, htime⟩ := (W.mem_countedIdx).mp hi
  rw [mem_countedIdx]
  refine ⟨event, hget, ?_, ?_⟩
  · rw [hstart, hs, current_stamp_nested hq hstart h h']
  · intro other hother
    rw [hstart, hstart]
    exact hq (htime other hother)

theorem counted_nested (hq : Monotone q) (hstart : ∀ e, W'.startOf e = q (W.startOf e))
    {events : List ε} {bucket : β} {bucket' : β'} (h : W.current events = some bucket)
    (h' : W'.current events = some bucket') :
    (W.counted events (W.stamp bucket)).Sublist (W'.counted events (W'.stamp bucket')) := by
  apply List.Sublist.filterMap
  apply List.monotone_filter_right
  intro i hi
  obtain ⟨event, hget, _⟩ := Option.any_eq_true _ _ |>.mp hi
  have hlt : i < events.length := (List.getElem?_eq_some_iff.mp hget).1
  have hmem : i ∈ W.countedIdx events (W.stamp bucket) :=
    List.mem_filter.mpr ⟨List.mem_range.mpr hlt, hi⟩
  exact (List.mem_filter.mp (countedIdx_nested hq hstart h h' hmem)).2

/-- An event that closes the coarser bucket closes the finer one. -/
theorem closes_nested (hq : Monotone q) (hstart : ∀ e, W'.startOf e = q (W.startOf e))
    {events : List ε} {bucket : β} {bucket' : β'} (h : W.current events = some bucket)
    (h' : W'.current events = some bucket') {event : ε} {old : β'}
    (hclose : W'.closes (some bucket') event = some old) :
    W.closes (some bucket) event = some bucket := by
  have hlt' : W'.stamp bucket' < W'.startOf event := by
    obtain ⟨heq, hlt⟩ := Option.mem_filter_iff.mp hclose
    rw [Option.some.inj heq]
    exact of_decide_eq_true hlt
  have hlt : W.stamp bucket < W.startOf event := by
    by_contra hcontra
    have hle := hq (not_lt.mp hcontra)
    rw [← hstart, ← current_stamp_nested hq hstart h h'] at hle
    exact absurd hlt' (not_lt_of_ge hle)
  simp [closes, hlt]

end Nested

end Tumbling
