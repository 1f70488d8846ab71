/-
  FeatureStore/Runs.lean
  ======================
  **Runs of a partial step function.**

  `step s a` is the state after action `a`, or `none` where the action is not
  possible.  A run is a list of actions that are possible one after another.
  `run_history` is the induction behind every statement about runs: what holds
  at the start and is preserved by one step holds at the end, and may mention
  the actions taken so far.

  Nothing in this file depends on what the states and actions are.
-/
import Mathlib.Algebra.BigOperators.Group.List.Basic
import Mathlib.Algebra.GroupWithZero.Nat
import Mathlib.Data.List.Basic

universe u v

namespace Runs

variable {σ : Type u} {α : Type v} (step : σ → α → Option σ)

/-- The state after a list of actions. -/
def run (s : σ) : List α → Option σ
  | [] => some s
  | a :: actions =>
      match step s a with
      | none => none
      | some s' => run s' actions

theorem run_cons {s s' : σ} {a : α} {actions : List α} :
    run step s (a :: actions) = some s' ↔
      ∃ mid, step s a = some mid ∧ run step mid actions = some s' := by
  rw [run]
  cases step s a with
  | none => simp
  | some mid => simp

theorem run_append {s s' : σ} {actions more : List α} :
    run step s (actions ++ more) = some s' ↔
      ∃ mid, run step s actions = some mid ∧ run step mid more = some s' := by
  induction actions generalizing s with
  | nil => simp [run]
  | cons a actions ih =>
    rw [List.cons_append, run_cons]
    constructor
    · rintro ⟨mid, hstep, hrest⟩
      obtain ⟨mid', hrun, hmore⟩ := ih.mp hrest
      exact ⟨mid', (run_cons step).mpr ⟨mid, hstep, hrun⟩, hmore⟩
    · rintro ⟨mid', hrun, hmore⟩
      obtain ⟨mid, hstep, hrun⟩ := (run_cons step).mp hrun
      exact ⟨mid, hstep, ih.mpr ⟨mid', hrun, hmore⟩⟩

/-- **Induction over runs**, for a property of the state and the actions that led
    to it. -/
theorem run_history {I : List α → σ → Prop}
    (hstep : ∀ past s a s', I past s → step s a = some s' → I (past ++ [a]) s')
    (past : List α) {actions : List α} {s s' : σ} (hstart : I past s)
    (hrun : run step s actions = some s') : I (past ++ actions) s' := by
  induction actions generalizing past s with
  | nil =>
    rw [run, Option.some.injEq] at hrun
    rw [List.append_nil, ← hrun]
    exact hstart
  | cons a actions ih =>
    obtain ⟨mid, hmid, hrest⟩ := (run_cons step).mp hrun
    have hnext := ih (past ++ [a]) (hstep past s a mid hstart hmid) hrest
    rwa [List.append_assoc, List.singleton_append] at hnext

/-- Induction over runs whose actions all satisfy `p`. -/
theorem run_invariant {I : σ → Prop} {p : α → Prop}
    (hstep : ∀ s a s', p a → I s → step s a = some s' → I s') {actions : List α} {s s' : σ}
    (hp : ∀ a ∈ actions, p a) (hstart : I s) (hrun : run step s actions = some s') : I s' := by
  have hinv := run_history step (I := fun past s => (∀ a ∈ past, p a) → I s)
    (fun past s a s' hs ha hpast =>
      hstep s a s' (hpast a (List.mem_append_right _ (List.mem_singleton.mpr rfl)))
        (hs fun b hb => hpast b (List.mem_append_left _ hb)) ha)
    [] (fun _ => hstart) hrun
  exact hinv hp

/-- Counting after one element of a list has been replaced. -/
theorem countP_set_add {α : Type u} {p : α → Bool} {l : List α} {i : ℕ} {a b : α}
    (h : l[i]? = some a) :
    (l.set i b).countP p + (if p a then 1 else 0) =
      l.countP p + (if p b then 1 else 0) := by
  obtain ⟨hi, hget⟩ := List.getElem?_eq_some_iff.mp h
  have hle := List.boole_getElem_le_countP (p := p) hi
  rw [List.countP_set hi, hget] at *
  omega

/-- Counting by two exclusive cases. -/
theorem countP_eq_add {α : Type u} {p q r : α → Bool}
    (h : ∀ a, (if p a then 1 else 0) = (if q a then 1 else 0) + (if r a then 1 else 0))
    (l : List α) : l.countP p = l.countP q + l.countP r := by
  induction l with
  | nil => rfl
  | cons a l ih =>
    have ha := h a
    simp only [List.countP_cons, ih]
    omega

/-- Counting by position, also past the end. -/
theorem countP_range_getElem? {α : Type u} (p : Option α → Bool) (l : List α) (c : ℕ) :
    (List.range (l.length + c)).countP (fun i => p l[i]?) =
      l.countP (fun a => p (some a)) + if p none then c else 0 := by
  induction l with
  | nil =>
    simp only [List.length_nil, Nat.zero_add, List.getElem?_nil, List.countP_nil]
    by_cases h : p none <;> simp [h]
  | cons a l ih =>
    have hlength : (a :: l).length + c = (l.length + c) + 1 := by
      rw [List.length_cons]
      omega
    rw [hlength, List.range_succ_eq_map, List.countP_cons, List.countP_map, List.countP_cons]
    have hshift : ((fun i => p (a :: l)[i]?) ∘ Nat.succ) = fun i => p l[i]? := by
      funext i
      simp
    rw [hshift, ih, List.getElem?_cons_zero]
    omega

/-- Summing after one element of a list has been replaced. -/
theorem sum_map_set_add {α : Type u} (f : α → ℕ) {l : List α} {i : ℕ} {a : α} (b : α)
    (h : l[i]? = some a) : ((l.set i b).map f).sum + f a = (l.map f).sum + f b := by
  induction l generalizing i with
  | nil => cases h
  | cons c l ih =>
    cases i with
    | zero =>
      rw [List.getElem?_cons_zero, Option.some.injEq] at h
      rw [List.set_cons_zero, List.map_cons, List.sum_cons, List.map_cons, List.sum_cons, h]
      omega
    | succ i =>
      have htail := ih (List.getElem?_cons_succ ▸ h)
      rw [List.set_cons_succ, List.map_cons, List.sum_cons, List.map_cons, List.sum_cons]
      omega

end Runs
