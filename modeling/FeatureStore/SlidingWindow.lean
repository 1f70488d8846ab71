/-
  FeatureStore/SlidingWindow.lean
  ===============================
  **A queue of timed readings that keeps the last of them.**

  A reading is put at the end of the queue, and readings that are older than the
  width are popped from its front, but never the last one.  If no reading is
  earlier than the one before it, the queue holds exactly the readings that are
  within the width of the latest (`window_eq_filter`).

  The rate of a window is what its readings grew by, per unit of time.  It lies
  between any two bounds that hold from each reading to the next
  (`AtLeast.le_rate`, `AtMost.rate_le`).

  Nothing in this file depends on what is read.
-/
import Mathlib.Algebra.Order.Field.Basic
import Mathlib.Data.List.Chain
import Mathlib.Data.List.Induction
import Mathlib.Tactic.Linarith

universe u

namespace SlidingWindow

section Queue

variable {K : Type u} [Field K] [LinearOrder K]

/-- Pop what is too old, down to one reading. -/
def trim (width now : K) : List (K × K) → List (K × K)
  | x :: y :: rest => if now - x.1 > width then trim width now (y :: rest) else x :: y :: rest
  | l => l

def push (width : K) (l : List (K × K)) (x : K × K) : List (K × K) := trim width x.1 (l ++ [x])

/-- The queue after the readings. -/
def window (width : K) (readings : List (K × K)) : List (K × K) :=
  readings.foldl (push width) []

theorem window_snoc (width : K) (readings : List (K × K)) (x : K × K) :
    window width (readings ++ [x]) = push width (window width readings) x := by
  simp [window]

/-- Times do not decrease. -/
def Timed (l : List (K × K)) : Prop := l.Pairwise fun a b => a.1 ≤ b.1

section Ordered

variable [IsStrictOrderedRing K]

theorem trim_eq_filter {width : K} (hwidth : 0 ≤ width) {l : List (K × K)} {x : K × K}
    (h : Timed (l ++ [x])) :
    trim width x.1 (l ++ [x]) = (l ++ [x]).filter fun y => x.1 - y.1 ≤ width := by
  induction l with
  | nil => simp [trim, hwidth]
  | cons y l ih =>
    have htail := ih (List.pairwise_cons.mp h).2
    by_cases hold : x.1 - y.1 > width
    · have hpop : trim width x.1 (y :: l ++ [x]) = trim width x.1 (l ++ [x]) := by
        cases l with
        | nil => exact if_pos hold
        | cons z l => exact if_pos hold
      rw [hpop, htail, List.cons_append]
      refine (List.filter_cons_of_neg ?_).symm
      rwa [decide_eq_true_eq, not_le]
    · -- nothing is popped, and nothing that comes later is older
      have hkeep : trim width x.1 (y :: l ++ [x]) = y :: l ++ [x] := by
        cases l with
        | nil => exact if_neg hold
        | cons z l => exact if_neg hold
      rw [hkeep, eq_comm, List.filter_eq_self]
      intro z hz
      have hle : y.1 ≤ z.1 := by
        rcases List.mem_cons.mp hz with rfl | hz
        · exact le_refl z.1
        · exact (List.pairwise_cons.mp h).1 z hz
      have hnow := not_lt.mp hold
      exact decide_eq_true (by linarith)

/-- **The queue is the window.** -/
theorem window_eq_filter {width : K} (hwidth : 0 ≤ width) {readings : List (K × K)} {x : K × K}
    (h : Timed (readings ++ [x])) :
    window width (readings ++ [x]) =
      (readings ++ [x]).filter fun y => x.1 - y.1 ≤ width := by
  induction readings using List.reverseRecOn generalizing x with
  | nil => exact trim_eq_filter hwidth h
  | append_singleton readings z ih =>
    have hprefix : Timed (readings ++ [z]) := (List.pairwise_append.mp h).1
    have hz : z.1 ≤ x.1 :=
      (List.pairwise_append.mp h).2.2 z (by simp) x (List.mem_singleton.mpr rfl)
    have hsub : ((readings ++ [z]).filter (fun y => z.1 - y.1 ≤ width) ++ [x]).Sublist
        (readings ++ [z] ++ [x]) := List.filter_sublist.append_right _
    -- what is recent for `x` was recent for `z`
    have hrecent : ∀ l : List (K × K), (l.filter fun y => z.1 - y.1 ≤ width).filter
        (fun y => x.1 - y.1 ≤ width) = l.filter fun y => x.1 - y.1 ≤ width := by
      intro l
      rw [List.filter_filter]
      refine List.filter_congr fun y _ => ?_
      by_cases hy : x.1 - y.1 ≤ width
      · have hy' : z.1 - y.1 ≤ width := by linarith
        rw [decide_eq_true hy, decide_eq_true hy', Bool.and_self]
      · rw [decide_eq_false hy, Bool.false_and]
    rw [window_snoc, ih hprefix, push, trim_eq_filter hwidth (h.sublist hsub), List.filter_append,
      hrecent, ← List.filter_append]

end Ordered

/-! ### The rate -/

/-- The mean rate from the first reading to the last, and 0 where there is no time
    between them. -/
def rate (l : List (K × K)) : K :=
  match l.head?, l.getLast? with
  | some first, some last =>
      if l.length > 1 ∧ last.1 > first.1 then (last.2 - first.2) / (last.1 - first.1) else 0
  | _, _ => 0

/-- From each reading to the next the value grows at the rate `c` or faster. -/
def AtLeast (c : K) (l : List (K × K)) : Prop :=
  l.IsChain fun a b => c * (b.1 - a.1) ≤ b.2 - a.2

def AtMost (c : K) (l : List (K × K)) : Prop :=
  l.IsChain fun a b => b.2 - a.2 ≤ c * (b.1 - a.1)

end Queue

/-- A relation from each element to the next holds from the first to the last. -/
theorem rel_getLast {α : Type u} {R : α → α → Prop} (hrefl : ∀ a, R a a)
    (htrans : ∀ a b c, R a b → R b c → R a c) {l : List α} (h : l.IsChain R) {x y : α}
    (hx : l.head? = some x) (hy : l.getLast? = some y) : R x y := by
  induction l generalizing x with
  | nil => cases hx
  | cons z l ih =>
    obtain rfl : z = x := Option.some.inj hx
    cases l with
    | nil =>
      obtain rfl : z = y := Option.some.inj hy
      exact hrefl z
    | cons w l =>
      obtain ⟨hstep, hrest⟩ := List.isChain_cons_cons.mp h
      rw [List.getLast?_cons_cons] at hy
      exact htrans z w y hstep (ih hrest rfl hy)

section Bounds

variable {K : Type u} [Field K] [LinearOrder K] {l : List (K × K)} {first last : K × K} {c : K}

/-- Between readings at different times, the rate times the time is the growth. -/
theorem rate_mul_eq (hfirst : l.head? = some first) (hlast : l.getLast? = some last)
    (h : first.1 < last.1) : rate l * (last.1 - first.1) = last.2 - first.2 := by
  have hlength : l.length > 1 := by
    match l, hfirst, hlast with
    | [x], rfl, rfl => exact absurd h (lt_irrefl _)
    | _ :: _ :: _, _, _ => simp
  rw [rate, hfirst, hlast]
  exact (congrArg (· * (last.1 - first.1)) (if_pos ⟨hlength, h⟩)).trans
    (div_mul_cancel₀ _ (sub_ne_zero.mpr h.ne'))

variable [IsStrictOrderedRing K]

theorem AtLeast.le_rate (hc : AtLeast c l) (hfirst : l.head? = some first)
    (hlast : l.getLast? = some last) (h : first.1 < last.1) : c ≤ rate l := by
  have hgrowth := rel_getLast (fun _ => by linarith) (fun _ _ _ _ _ => by linarith) hc hfirst hlast
  rw [← rate_mul_eq hfirst hlast h] at hgrowth
  exact le_of_mul_le_mul_right hgrowth (sub_pos.mpr h)

theorem AtMost.rate_le (hc : AtMost c l) (hfirst : l.head? = some first)
    (hlast : l.getLast? = some last) (h : first.1 < last.1) : rate l ≤ c := by
  have hgrowth := rel_getLast (fun _ => by linarith) (fun _ _ _ _ _ => by linarith) hc hfirst hlast
  rw [← rate_mul_eq hfirst hlast h] at hgrowth
  exact le_of_mul_le_mul_right hgrowth (sub_pos.mpr h)

/-- The rate of readings that do not decrease is not negative. -/
theorem rate_nonneg (hc : AtLeast 0 l) : 0 ≤ rate l := by
  cases hfirst : l.head? with
  | none => simp [rate, hfirst]
  | some first =>
    cases hlast : l.getLast? with
    | none => simp [rate, hfirst, hlast]
    | some last =>
      by_cases h : first.1 < last.1
      · exact hc.le_rate hfirst hlast h
      · simp [rate, hfirst, hlast, h]

end Bounds

end SlidingWindow
