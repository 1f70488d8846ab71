/-
  FeatureStore/LateEvents.lean
  ============================
  **Late events of a tumbling-window aggregation.**

  `Tumbling` says which events of a stream its buckets count.  The others are late.
  This file is about them: which events are chosen by what came before them
  (`select`), and what becomes of the stream without the late ones.

    * The aggregation does not tell the stream from its punctual events: the same
      bucket is open, the same ones have closed, and each counts the same events
      (`current_punctual`, `closed_punctual`, `counted_punctual`).
    * So the batches of the buckets, one after another, are the punctual events
      (`flatMap_counted`).
    * What is late for coarser windows is late for finer ones (`late_nested`), and a
      coarse bucket holds what the fine ones inside it hold, with the events that only
      these have passed over (`roll_up`).

  Nothing in this file depends on what the events, times and buckets are.
-/
import Mathlib.Algebra.BigOperators.Group.List.Basic
import FeatureStore.Tumbling

universe u v w

namespace Tumbling

open Grouping (group)

/-! ### Events chosen by what came before them -/

section Select

variable {ε : Type u} (p : List ε → ε → Prop) [∀ past event, Decidable (p past event)]

/-- The events that stand in the relation `p` to those before them. -/
def select : List ε → List ε → List ε
  | _, [] => []
  | past, event :: events =>
      (if p past event then [event] else []) ++ select (past ++ [event]) events

theorem select_append (past events more : List ε) :
    select p past (events ++ more) = select p past events ++ select p (past ++ events) more := by
  induction events generalizing past with
  | nil => simp [select]
  | cons event events ih =>
    rw [List.cons_append, select, ih, select, List.append_assoc, List.append_assoc,
      List.singleton_append]

theorem select_snoc (events : List ε) (event : ε) :
    select p [] (events ++ [event]) =
      select p [] events ++ if p events event then [event] else [] := by
  rw [select_append, List.nil_append, select, select, List.append_nil]

theorem mem_select {past events : List ε} {event : ε} (h : event ∈ select p past events) :
    ∃ before after, events = before ++ event :: after ∧ p (past ++ before) event := by
  induction events generalizing past with
  | nil => cases h
  | cons first events ih =>
    rcases List.mem_append.mp h with hfirst | hrest
    · split at hfirst
      · rename_i hp
        obtain rfl := List.mem_singleton.mp hfirst
        exact ⟨[], events, rfl, by rwa [List.append_nil]⟩
      · cases hfirst
    · obtain ⟨before, after, rfl, hp⟩ := ih hrest
      exact ⟨first :: before, after, rfl, by rwa [List.append_assoc] at hp⟩

theorem select_sublist_of_imp {q : List ε → ε → Prop} [∀ past event, Decidable (q past event)]
    (h : ∀ past event, p past event → q past event) (past events : List ε) :
    (select p past events).Sublist (select q past events) := by
  induction events generalizing past with
  | nil => exact .refl _
  | cons event events ih =>
    refine List.Sublist.append ?_ (ih _)
    by_cases hp : p past event
    · rw [if_pos hp, if_pos (h _ _ hp)]
    · rw [if_neg hp]
      exact List.nil_sublist _

/-- The chosen events and the others make up the stream. -/
theorem sum_select {M : Type w} [AddCommMonoid M] (g : ε → M) (past events : List ε) :
    ((select p past events).map g).sum +
      ((select (fun past event => ¬p past event) past events).map g).sum =
        (events.map g).sum := by
  induction events generalizing past with
  | nil => simp [select]
  | cons event events ih =>
    rw [List.map_cons, List.sum_cons, ← ih (past ++ [event]), select, select, List.map_append,
      List.map_append, List.sum_append, List.sum_append]
    by_cases hp : p past event
    · simp [hp, add_assoc]
    · simp [hp, add_left_comm]

theorem sum_select_of_imp {q : List ε → ε → Prop} [∀ past event, Decidable (q past event)]
    (hpq : ∀ past event, p past event → q past event) {M : Type w} [AddCommMonoid M] (g : ε → M)
    (past events : List ε) :
    ((select p past events).map g).sum +
      ((select (fun past event => q past event ∧ ¬p past event) past events).map g).sum =
        ((select q past events).map g).sum := by
  induction events generalizing past with
  | nil => simp [select]
  | cons event events ih =>
    simp only [select, List.map_append, List.sum_append, ← ih (past ++ [event])]
    by_cases hp : p past event
    · simp [hp, hpq _ _ hp, add_assoc]
    · by_cases hq : q past event <;> simp [hp, hq, add_left_comm]

end Select

/-! ### The stream without its late events -/

variable {ε : Type u} {τ : Type v} {β : Type w} (W : Tumbling ε τ β) [LinearOrder τ]

def punctual (events : List ε) : List ε := select W.OnTime [] events

/-- The events that the aggregation passes over. -/
def late (events : List ε) : List ε := select (fun past event => ¬W.OnTime past event) [] events

theorem punctual_snoc (events : List ε) (event : ε) :
    W.punctual (events ++ [event]) =
      W.punctual events ++ if W.OnTime events event then [event] else [] :=
  select_snoc W.OnTime events event

/-- A late event comes after one of a later window. -/
theorem exists_before_of_mem_late {events : List ε} {event : ε} (h : event ∈ W.late events) :
    ∃ before after, events = before ++ event :: after ∧
      ∃ other ∈ before, W.startOf event < W.startOf other := by
  obtain ⟨before, after, hevents, hlate⟩ := mem_select _ h
  rw [List.nil_append] at hlate
  refine ⟨before, after, hevents, ?_⟩
  simpa [OnTime] using hlate

theorem advance_late {events : List ε} {event : ε} (h : ¬W.OnTime events event) :
    W.advance (W.current events) event = W.current events ∧
      W.closes (W.current events) event = none := by
  cases hcur : W.current events with
  | none => exact absurd (W.onTime_of_current_none hcur event) h
  | some bucket =>
    rw [W.onTime_iff_of_current hcur, not_le] at h
    rcases W.advance_cases bucket event with ⟨hs, _⟩ | ⟨hs, _⟩ | ⟨_, hadv, hclose⟩
    · exact absurd h (by rw [hs]; exact lt_irrefl _)
    · exact absurd h (lt_asymm hs)
    · exact ⟨hadv, hclose⟩

theorem current_punctual (events : List ε) : W.current (W.punctual events) = W.current events := by
  induction events using List.reverseRecOn with
  | nil => rfl
  | append_singleton events event ih =>
    rw [punctual_snoc, current_snoc]
    by_cases h : W.OnTime events event
    · rw [if_pos h, current_snoc, ih]
    · rw [if_neg h, List.append_nil, ih, (W.advance_late h).1]

theorem onTime_punctual_iff (events : List ε) (event : ε) :
    W.OnTime (W.punctual events) event ↔ W.OnTime events event := by
  cases hcur : W.current events with
  | none =>
    have hnil := (W.current_eq_none_iff events).mp hcur
    rw [hnil]
    exact Iff.rfl
  | some bucket =>
    have hpunctual := (W.current_punctual events).trans hcur
    rw [W.onTime_iff_of_current hcur, W.onTime_iff_of_current hpunctual]

theorem closed_punctual (events : List ε) : W.closed (W.punctual events) = W.closed events := by
  induction events using List.reverseRecOn with
  | nil => rfl
  | append_singleton events event ih =>
    rw [punctual_snoc, closed_snoc]
    by_cases h : W.OnTime events event
    · rw [if_pos h, closed_snoc, ih, W.current_punctual]
    · rw [if_neg h, List.append_nil, ih, (W.advance_late h).2, Option.toList_none, List.append_nil]

theorem panes_punctual (events : List ε) : W.panes (W.punctual events) = W.panes events := by
  rw [panes, panes, W.closed_punctual, W.current_punctual]

theorem counted_punctual (events : List ε) (t : τ) :
    W.counted (W.punctual events) t = W.counted events t := by
  induction events using List.reverseRecOn with
  | nil => rfl
  | append_singleton events event ih =>
    rw [punctual_snoc, counted_snoc]
    by_cases h : W.OnTime events event
    · rw [if_pos h, counted_snoc, ih]
      simp only [onTime_punctual_iff]
    · rw [if_neg h, List.append_nil, ih, if_neg (fun hcount => h hcount.2), List.append_nil]

theorem sorted_punctual (events : List ε) : W.Sorted (W.punctual events) := by
  induction events using List.reverseRecOn with
  | nil => exact .nil
  | append_singleton events event ih =>
    rw [punctual_snoc]
    by_cases h : W.OnTime events event
    · rw [if_pos h]
      refine List.pairwise_append.mpr ⟨ih, List.pairwise_singleton _ _, ?_⟩
      intro other hother event' hevent
      rw [List.mem_singleton.mp hevent]
      exact (W.onTime_punctual_iff events event).mpr h other hother
    · rw [if_neg h, List.append_nil]
      exact ih

/-- **What the buckets hold.**  The batches of the buckets, one after another, are the
    punctual events. -/
theorem flatMap_counted (events : List ε) :
    ((W.panes events).flatMap fun bucket => W.counted events (W.stamp bucket)) =
      W.punctual events := by
  have hsorted := W.flatMap_counted_of_sorted (W.sorted_punctual events)
  rw [panes_punctual] at hsorted
  simpa only [counted_punctual] using hsorted

/-- A quantity of the buckets that adds up over their events. -/
theorem sum_panes {M : Type w} [AddCommMonoid M] {g : β → M} {h : ε → M}
    (hg : ∀ t batch, (∀ event ∈ batch, W.startOf event = t) →
      g (W.pane t batch) = (batch.map h).sum) (events : List ε) :
    ((W.panes events).map g).sum = ((W.punctual events).map h).sum := by
  have hpanes : (W.panes events).map g =
      (W.panes events).map fun bucket => ((W.counted events (W.stamp bucket)).map h).sum := by
    refine List.map_congr_left fun bucket hbucket => ?_
    conv_lhs => rw [W.panes_eq_pane hbucket]
    exact hg _ _ fun event hevent => (W.mem_counted hevent).2
  rw [hpanes, ← flatMap_counted, List.map_flatMap, List.flatMap_def, List.sum_flatten,
    List.map_map]
  rfl

theorem sum_filter {α : Type*} {M : Type w} [AddCommMonoid M] (p : α → Prop) [DecidablePred p]
    (g : α → M) (l : List α) :
    ((l.filter p).map g).sum = (l.map fun a => if p a then g a else 0).sum := by
  rw [List.sum_map_ite]
  simp

omit [LinearOrder τ] in
theorem stamp_pane (t : τ) (batch : List ε) : W.stamp (W.pane t batch) = t := by
  induction batch using List.reverseRecOn with
  | nil => exact W.stamp_fresh t
  | append_singleton batch event ih => rw [pane_snoc, stamp_add, ih]

/-- The same of the buckets whose stamps `q` sends to `t`. -/
theorem sum_panes_filter {M : Type w} [AddCommMonoid M] {g : β → M} {h : ε → M}
    (hg : ∀ t batch, g (W.pane t batch) = (batch.map h).sum) (q : τ → τ) (events : List ε) (t : τ) :
    (((W.panes events).filter fun bucket => q (W.stamp bucket) = t).map g).sum =
      ((W.punctual events).map fun event =>
        if q (W.startOf event) = t then h event else 0).sum := by
  rw [sum_filter]
  refine W.sum_panes (fun start batch hbatch => ?_) events
  have hmap : (batch.map fun event => if q (W.startOf event) = t then h event else 0) =
      batch.map fun event => if q start = t then h event else 0 :=
    List.map_congr_left fun event hevent => by rw [hbatch event hevent]
  rw [hmap, stamp_pane, hg]
  by_cases hq : q start = t <;> simp [hq]

/-- **What the buckets lose** are the late events. -/
theorem sum_panes_add_late {M : Type w} [AddCommMonoid M] {g : β → M} {h : ε → M}
    (hg : ∀ t batch, g (W.pane t batch) = (batch.map h).sum) (events : List ε) :
    ((W.panes events).map g).sum + ((W.late events).map h).sum = (events.map h).sum := by
  rw [W.sum_panes fun t batch _ => hg t batch]
  exact sum_select W.OnTime h [] events

/-! ### Coarser windows -/

section Nested

variable {β' : Type w} {W} {W' : Tumbling ε τ β'} {q : τ → τ}

theorem onTime_nested (hq : Monotone q) (hstart : ∀ e, W'.startOf e = q (W.startOf e))
    {past : List ε} {event : ε} (h : W.OnTime past event) : W'.OnTime past event := by
  intro other hother
  rw [hstart, hstart]
  exact hq (h other hother)

/-- A coarser division of time has fewer late events. -/
theorem late_nested (hq : Monotone q) (hstart : ∀ e, W'.startOf e = q (W.startOf e))
    (events : List ε) : (W'.late events).Sublist (W.late events) :=
  select_sublist_of_imp _ (fun _ _ hlate htime => hlate (onTime_nested hq hstart htime)) _ _

/-- The events that `W` passes over and `W'` counts. -/
def lateOnly (W : Tumbling ε τ β) (W' : Tumbling ε τ β') (events : List ε) : List ε :=
  select (fun past event => W'.OnTime past event ∧ ¬W.OnTime past event) [] events

/-- **Roll-up.**  A coarse bucket has the sum of the fine buckets in it and of the events
    that only the fine windows have passed over. -/
theorem roll_up (hq : Monotone q) (hstart : ∀ e, W'.startOf e = q (W.startOf e)) {M : Type w}
    [AddCommMonoid M] {g : β → M} {g' : β' → M} {h : ε → M}
    (hg : ∀ t batch, g (W.pane t batch) = (batch.map h).sum)
    (hg' : ∀ t batch, g' (W'.pane t batch) = (batch.map h).sum) {events : List ε} {bucket : β'}
    (hbucket : bucket ∈ W'.panes events) :
    (((W.panes events).filter fun b => q (W.stamp b) = W'.stamp bucket).map g).sum +
      ((group W'.startOf (W'.stamp bucket) (lateOnly W W' events)).map h).sum = g' bucket := by
  have hcoarse := W'.sum_panes_filter hg' id events (W'.stamp bucket)
  simp only [id_eq] at hcoarse
  have hone := Grouping.group_eq_singleton W'.stamp (W'.panes_stamps_nodup events) hbucket
  rw [group] at hone
  rw [hone, List.map_singleton, List.sum_singleton] at hcoarse
  rw [hcoarse, W.sum_panes_filter hg q, group, sum_filter]
  simp only [← hstart]
  exact sum_select_of_imp W.OnTime (fun _ _ => onTime_nested hq hstart) _ [] events

/-- Every fine bucket lies in a coarse one. -/
theorem exists_pane_nested (hq : Monotone q) (hstart : ∀ e, W'.startOf e = q (W.startOf e))
    {events : List ε} {bucket : β} (h : bucket ∈ W.panes events) :
    ∃ bucket' ∈ W'.panes events, W'.stamp bucket' = q (W.stamp bucket) := by
  have hcounted := (W.mem_stamps_iff events _).mp (List.mem_map_of_mem h)
  obtain ⟨event, hevent⟩ := List.exists_mem_of_ne_nil _ hcounted
  obtain ⟨i, hi, _⟩ := List.mem_filterMap.mp hevent
  obtain ⟨event', hget, hstamp, htime⟩ := W.mem_countedIdx.mp hi
  have hi' : i ∈ W'.countedIdx events (q (W.stamp bucket)) :=
    W'.mem_countedIdx.mpr ⟨event', hget, by rw [hstart, hstamp], onTime_nested hq hstart htime⟩
  exact List.mem_map.mp (W'.mem_stamps_of_mem_countedIdx hi')

theorem lateOnly_of_sorted {events : List ε} (h : W.Sorted events) : lateOnly W W' events = [] := by
  refine List.eq_nil_iff_forall_not_mem.mpr fun event hevent => ?_
  obtain ⟨before, after, rfl, _, hlate⟩ := mem_select _ hevent
  refine hlate fun other hother => ?_
  exact (List.pairwise_append.mp h).2.2 other hother event List.mem_cons_self

end Nested

end Tumbling
