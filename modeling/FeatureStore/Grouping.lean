/-
  FeatureStore/Grouping.lean
  ==========================
  **Groups of a list by a key.**

  `group key k l` keeps the elements of `l` whose key is `k`, in order: the
  rows a `GROUP BY key` puts together.  The lemmas say how groups grow with the
  list, how two groupings commute, and that summing every group and adding the
  sums up is summing the list (`sum_group`).

  Nothing in this file depends on what the elements and keys are.
-/
import Mathlib.Algebra.BigOperators.Group.Finset.Basic
import Mathlib.Algebra.BigOperators.Group.List.Basic
import Mathlib.Algebra.BigOperators.Group.Finset.Piecewise
import Mathlib.Data.List.Nodup

universe u v w

namespace Grouping

variable {ε : Type u} {κ : Type v} [DecidableEq κ] (key : ε → κ)

/-- The elements of `l` with key `k`. -/
def group (k : κ) (l : List ε) : List ε := l.filter fun e => key e = k

@[simp] theorem group_nil (k : κ) : group key k ([] : List ε) = [] := rfl

theorem group_append (k : κ) (l more : List ε) :
    group key k (l ++ more) = group key k l ++ group key k more :=
  List.filter_append ..

theorem group_append_of_ne {k : κ} {l more : List ε} (h : ∀ e ∈ more, key e ≠ k) :
    group key k (l ++ more) = group key k l := by
  have hnil : group key k more = [] := by
    rw [group, List.filter_eq_nil_iff]
    intro e he hkey
    exact h e he (of_decide_eq_true hkey)
  rw [group_append, hnil, List.append_nil]

theorem group_cons (k : κ) (e : ε) (l : List ε) :
    group key k (e :: l) = if key e = k then e :: group key k l else group key k l := by
  by_cases h : key e = k <;> simp [group, h]

theorem group_snoc (k : κ) (l : List ε) (e : ε) :
    group key k (l ++ [e]) = if key e = k then group key k l ++ [e] else group key k l := by
  rw [group_append, group_cons]
  by_cases h : key e = k <;> simp [h]

theorem mem_group {k : κ} {l : List ε} {e : ε} : e ∈ group key k l ↔ e ∈ l ∧ key e = k := by
  simp [group]

theorem group_ne_nil_iff {k : κ} {l : List ε} : group key k l ≠ [] ↔ ∃ e ∈ l, key e = k := by
  constructor
  · intro h
    obtain ⟨e, he⟩ := List.exists_mem_of_ne_nil _ h
    exact ⟨e, (mem_group key).mp he⟩
  · rintro ⟨e, hmem, hkey⟩
    exact List.ne_nil_of_mem ((mem_group key).mpr ⟨hmem, hkey⟩)

theorem group_sublist (k : κ) (l : List ε) : (group key k l).Sublist l :=
  List.filter_sublist

theorem group_perm {k : κ} {l l' : List ε} (h : l.Perm l') :
    (group key k l).Perm (group key k l') :=
  h.filter _

theorem eq_nil_iff_of_perm {l l' : List ε} (h : l.Perm l') : l = [] ↔ l' = [] :=
  ⟨fun hnil => (hnil ▸ h.symm).eq_nil, fun hnil => (hnil ▸ h).eq_nil⟩

theorem group_group_comm {κ' : Type w} [DecidableEq κ'] (key' : ε → κ') (k : κ) (k' : κ')
    (l : List ε) : group key k (group key' k' l) = group key' k' (group key k l) := by
  simp only [group, List.filter_filter]
  exact List.filter_congr fun e _ => Bool.and_comm ..

/-- Grouping by a key and then by a function of it keeps the group or empties it. -/
theorem group_group_of_factor {κ' : Type w} [DecidableEq κ'] {key' : ε → κ'} {q : κ → κ'}
    (hq : ∀ e, key' e = q (key e)) (k : κ) (k' : κ') (l : List ε) :
    group key k (group key' k' l) = if q k = k' then group key k l else [] := by
  simp only [group, List.filter_filter]
  by_cases h : q k = k'
  · rw [if_pos h]
    apply List.filter_congr
    intro e _
    by_cases hk : key e = k
    · simp [hq, hk, h]
    · simp [hk]
  · rw [if_neg h, List.filter_eq_nil_iff]
    intro e _ hcontra
    simp only [Bool.and_eq_true, decide_eq_true_eq] at hcontra
    exact h (by rw [← hcontra.1, ← hq, hcontra.2])

/-- Labels that do not repeat inside any group do not repeat together with the
    key. -/
theorem nodup_map_of_group {β : Type w} {g : ε → β} {l : List ε}
    (h : ∀ k, ((group key k l).map g).Nodup) : (l.map fun e => (key e, g e)).Nodup := by
  induction l with
  | nil => exact List.nodup_nil
  | cons e l ih =>
    have hl : ∀ k, ((group key k l).map g).Nodup := by
      intro k
      have hk := h k
      rw [group_cons] at hk
      by_cases hkey : key e = k
      · rw [if_pos hkey, List.map_cons] at hk
        exact hk.of_cons
      · rwa [if_neg hkey] at hk
    rw [List.map_cons, List.nodup_cons]
    refine ⟨?_, ih hl⟩
    intro hmem
    obtain ⟨e', he', heq⟩ := List.mem_map.mp hmem
    obtain ⟨hkey, hg⟩ := Prod.mk.inj heq
    have hown := h (key e)
    rw [group_cons, if_pos rfl, List.map_cons, List.nodup_cons] at hown
    exact hown.1 (List.mem_map.mpr ⟨e', (mem_group key).mpr ⟨he', hkey⟩, hg⟩)

/-- Where no key comes twice, a group is one element. -/
theorem group_eq_singleton {l : List ε} (h : (l.map key).Nodup) {e : ε} (he : e ∈ l) :
    group key (key e) l = [e] := by
  induction l with
  | nil => cases he
  | cons x l ih =>
    rw [List.map_cons, List.nodup_cons] at h
    rw [group_cons]
    rcases List.mem_cons.mp he with rfl | hmem
    · rw [if_pos rfl]
      congr 1
      refine List.filter_eq_nil_iff.mpr fun y hy hkey => h.1 ?_
      rw [← of_decide_eq_true hkey]
      exact List.mem_map_of_mem hy
    · have hne : key x ≠ key e := fun heq => h.1 (heq ▸ List.mem_map_of_mem hmem)
      rw [if_neg hne]
      exact ih h.2 hmem

/-- **Summing by groups.**  Over any finite set of keys that covers the list,
    the group sums add up to the sum of the list. -/
theorem sum_group {M : Type w} [AddCommMonoid M] (g : ε → M) (S : Finset κ) (l : List ε)
    (hS : ∀ e ∈ l, key e ∈ S) :
    ∑ k ∈ S, ((group key k l).map g).sum = (l.map g).sum := by
  induction l with
  | nil => simp
  | cons e l ih =>
    have hl := ih fun e' he' => hS e' (List.mem_cons_of_mem _ he')
    have hsplit : ∀ k, ((group key k (e :: l)).map g).sum =
        (if key e = k then g e else 0) + ((group key k l).map g).sum := by
      intro k
      rw [group_cons]
      by_cases h : key e = k <;> simp [h]
    simp only [hsplit, Finset.sum_add_distrib, Finset.sum_ite_eq, hl,
      if_pos (hS e List.mem_cons_self), List.map_cons, List.sum_cons]

/-- A quantity to which every step adds the event's share adds up the shares. -/
theorem measure_foldl {σ : Type*} {M : Type w} [AddCommMonoid M] {step : σ → ε → σ} {g : σ → M}
    {h : ε → M} (hstep : ∀ s e, g (step s e) = g s + h e) (s : σ) (l : List ε) :
    g (l.foldl step s) = g s + (l.map h).sum := by
  induction l generalizing s with
  | nil => simp
  | cons e l ih => rw [List.foldl_cons, ih, hstep, List.map_cons, List.sum_cons, add_assoc]

end Grouping
