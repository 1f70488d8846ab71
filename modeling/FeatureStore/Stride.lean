/-
  FeatureStore/Stride.lean
  ========================
  **Sharding a list by stride.**

  Share `w` of `n` has the elements at the positions `w`, `w + n`, `w + 2n` and so
  on.  Taking off its head is the same as dropping `n` elements of the list
  (`stride_eq_cons`), and everything else follows from that equation: which
  position an element of a share has, how long a share is, and that the shares,
  read round robin, are the list again.

  Nothing in this file depends on what the elements are.
-/
import Mathlib.Data.List.Basic
import Mathlib.Data.List.Perm.Basic
import Mathlib.Data.List.Range

universe u v

namespace Stride

variable {α : Type u} {β : Type v} {n w : ℕ}

/-- The elements whose index, counted from `i`, is `w` modulo `n`. -/
def strideFrom (n w i : ℕ) (l : List α) : List α :=
  ((l.zipIdx i).filter fun entry => entry.2 % n = w).map Prod.fst

def stride (n w : ℕ) (l : List α) : List α := strideFrom n w 0 l

@[simp] theorem strideFrom_nil (n w i : ℕ) : strideFrom n w i ([] : List α) = [] := rfl

theorem strideFrom_cons (n w i : ℕ) (x : α) (l : List α) :
    strideFrom n w i (x :: l) =
      if i % n = w then x :: strideFrom n w (i + 1) l else strideFrom n w (i + 1) l := by
  unfold strideFrom
  rw [List.zipIdx_cons, List.filter_cons]
  by_cases h : i % n = w
  · simp [h]
  · simp [h]

theorem strideFrom_append (n w i : ℕ) (l l' : List α) :
    strideFrom n w i (l ++ l') = strideFrom n w i l ++ strideFrom n w (i + l.length) l' := by
  simp only [strideFrom, List.zipIdx_append, List.filter_append, List.map_append]

theorem map_strideFrom (f : α → β) (n w i : ℕ) (l : List α) :
    strideFrom n w i (l.map f) = (strideFrom n w i l).map f := by
  induction l generalizing i with
  | nil => rfl
  | cons x l ih =>
    rw [List.map_cons, strideFrom_cons, strideFrom_cons, ih]
    split <;> rfl

/-- Only the index modulo `n` matters. -/
theorem strideFrom_add (n w i : ℕ) (l : List α) :
    strideFrom n w (i + n) l = strideFrom n w i l := by
  induction l generalizing i with
  | nil => rfl
  | cons x l ih =>
    rw [strideFrom_cons, strideFrom_cons, Nat.add_mod_right, Nat.add_right_comm, ih]

/-- A stretch without a hit is dropped. -/
theorem strideFrom_skip {i k : ℕ} (h : ∀ j, i ≤ j → j < i + k → j % n ≠ w) (l : List α) :
    strideFrom n w i l = strideFrom n w (i + k) (l.drop k) := by
  induction k generalizing i l with
  | zero => rfl
  | succ k ih =>
    cases l with
    | nil => rfl
    | cons x l =>
      have hrest := ih (i := i + 1) (fun j hle hlt => h j (by omega) (by omega)) l
      rw [strideFrom_cons, if_neg (h i (le_refl i) (by omega)), hrest, List.drop_succ_cons,
        Nat.add_assoc, Nat.add_comm 1 k]

theorem stride_eq_drop (hw : w < n) (l : List α) :
    stride n w l = strideFrom n w w (l.drop w) := by
  have hskip := strideFrom_skip (n := n) (w := w) (i := 0) (k := w)
    (fun j _ hlt => by rw [Nat.mod_eq_of_lt (by omega)]; omega) l
  rwa [Nat.zero_add] at hskip

/-- A list that is too short leaves nothing to the share. -/
theorem stride_eq_nil (hw : w < n) {l : List α} (h : l.length ≤ w) : stride n w l = [] := by
  rw [stride_eq_drop hw, List.drop_eq_nil_of_le h, strideFrom_nil]

/-- **A share is the element at `w` and the share of what is left without the
    first `n`.** -/
theorem stride_eq_cons (hw : w < n) {l : List α} (h : w < l.length) :
    stride n w l = l[w] :: stride n w (l.drop n) := by
  have hdrop : (l.drop (w + 1)).drop (n - (w + 1)) = l.drop n := by
    rw [List.drop_drop]
    congr 1
    omega
  have hindex : w + 1 + (n - (w + 1)) = 0 + n := by omega
  have hskip := strideFrom_skip (n := n) (w := w) (i := w + 1) (k := n - (w + 1))
    (fun j hle hlt => by rw [Nat.mod_eq_of_lt (by omega)]; omega) (l.drop (w + 1))
  have hafter : strideFrom n w (w + 1) (l.drop (w + 1)) = stride n w (l.drop n) := by
    rw [hskip, hdrop, hindex, strideFrom_add, stride]
  rw [stride_eq_drop hw, List.drop_eq_getElem_cons h, strideFrom_cons,
    if_pos (Nat.mod_eq_of_lt hw), hafter]

/-! ### One share -/

/-- **Where the elements of a share come from.** -/
theorem getElem?_stride (hw : w < n) (l : List α) (k : ℕ) :
    (stride n w l)[k]? = l[w + k * n]? := by
  induction k generalizing l with
  | zero =>
    rcases Nat.lt_or_ge w l.length with h | h
    · simp [stride_eq_cons hw h, h]
    · simp [stride_eq_nil hw h, h]
  | succ k ih =>
    have hindex : w + (k + 1) * n = n + (w + k * n) := by
      rw [Nat.succ_mul]
      omega
    rcases Nat.lt_or_ge w l.length with h | h
    · rw [stride_eq_cons hw h, List.getElem?_cons_succ, ih, List.getElem?_drop, hindex]
    · have hle : l.length ≤ w + (k + 1) * n := h.trans (Nat.le_add_right w _)
      rw [stride_eq_nil hw h, List.getElem?_nil, List.getElem?_eq_none hle]

theorem strideFrom_sublist (n w i : ℕ) (l : List α) : (strideFrom n w i l).Sublist l := by
  induction l generalizing i with
  | nil => exact List.Sublist.refl []
  | cons x l ih =>
    rw [strideFrom_cons]
    split
    · exact (ih _).cons_cons x
    · exact (ih _).cons x

theorem length_stride (hw : w < n) (l : List α) :
    (stride n w l).length = (l.length + (n - 1 - w)) / n := by
  have hn : 0 < n := by omega
  induction hlen : l.length using Nat.strong_induction_on generalizing l with
  | _ len ih =>
    subst hlen
    rcases Nat.lt_or_ge w l.length with hwl | hwl
    · have hrest := ih (l.drop n).length (by rw [List.length_drop]; omega) (l.drop n) rfl
      rw [stride_eq_cons hw hwl, List.length_cons, hrest, List.length_drop]
      rcases Nat.lt_or_ge l.length n with hlt | hge
      · have hdiv : (l.length + (n - 1 - w)) / n = 1 := Nat.div_eq_of_lt_le (by omega) (by omega)
        rw [hdiv, Nat.div_eq_of_lt (by omega)]
      · have hsum : l.length + (n - 1 - w) = l.length - n + (n - 1 - w) + n := by omega
        rw [hsum, Nat.add_div_right _ hn]
    · rw [stride_eq_nil hw hwl, List.length_nil, Nat.div_eq_of_lt (by omega)]

/-! ### All shares -/

/-- One element of every list in turn, for `k` rounds. -/
def rounds : ℕ → List (List α) → List α
  | 0, _ => []
  | k + 1, lists => lists.filterMap List.head? ++ rounds k (lists.map List.tail)

/-- Rounds until every list is used up. -/
def roundRobin (lists : List (List α)) : List α :=
  rounds ((lists.map List.length).foldr max 0) lists

theorem length_le_rounds {lists : List (List α)} {l : List α} (h : l ∈ lists) :
    l.length ≤ (lists.map List.length).foldr max 0 := by
  induction lists with
  | nil => exact absurd h List.not_mem_nil
  | cons l' lists ih =>
    rw [List.map_cons, List.foldr_cons]
    rcases List.mem_cons.mp h with rfl | h
    · exact le_max_left _ _
    · exact (ih h).trans (le_max_right _ _)

theorem heads_append_tails_perm (lists : List (List α)) :
    (lists.filterMap List.head? ++ (lists.map List.tail).flatten).Perm lists.flatten := by
  induction lists with
  | nil => exact List.Perm.refl []
  | cons l lists ih =>
    cases l with
    | nil => exact ih
    | cons x l =>
      refine List.Perm.cons x ?_
      calc lists.filterMap List.head? ++ (l ++ (lists.map List.tail).flatten)
          = lists.filterMap List.head? ++ l ++ (lists.map List.tail).flatten := by
            rw [List.append_assoc]
        List.Perm _ (l ++ lists.filterMap List.head? ++ (lists.map List.tail).flatten) :=
            List.perm_append_comm.append_right _
        List.Perm _ (l ++ (lists.filterMap List.head? ++ (lists.map List.tail).flatten)) := by
            rw [List.append_assoc]
        List.Perm _ (l ++ lists.flatten) := ih.append_left l

theorem rounds_perm {k : ℕ} {lists : List (List α)} (h : ∀ l ∈ lists, l.length ≤ k) :
    (rounds k lists).Perm lists.flatten := by
  induction k generalizing lists with
  | zero =>
    have hnil : lists.flatten = [] :=
      List.flatten_eq_nil_iff.mpr fun l hl => List.length_eq_zero_iff.mp (Nat.le_zero.mp (h l hl))
    rw [hnil]
    rfl
  | succ k ih =>
    have htails : ∀ l ∈ lists.map List.tail, l.length ≤ k := by
      intro l hl
      obtain ⟨l', hl', rfl⟩ := List.mem_map.mp hl
      rw [List.length_tail]
      exact Nat.sub_le_of_le_add (h l' hl')
    exact ((ih htails).append_left _).trans (heads_append_tails_perm lists)

/-- Round robin reads every element of every list once. -/
theorem roundRobin_perm (lists : List (List α)) : (roundRobin lists).Perm lists.flatten :=
  rounds_perm fun _ hl => length_le_rounds hl

theorem stride_head? (hw : w < n) (l : List α) : (stride n w l).head? = l[w]? := by
  simpa [List.head?_eq_getElem?] using getElem?_stride hw l 0

theorem stride_tail (hw : w < n) (l : List α) : (stride n w l).tail = stride n w (l.drop n) := by
  rcases Nat.lt_or_ge w l.length with h | h
  · rw [stride_eq_cons hw h, List.tail_cons]
  · have hdrop : (l.drop n).length ≤ w := by
      rw [List.length_drop]
      omega
    rw [stride_eq_nil hw h, stride_eq_nil hw hdrop, List.tail_nil]

/-- The heads of all shares are the first `n` elements. -/
theorem filterMap_getElem? (l : List α) (n : ℕ) :
    (List.range n).filterMap (fun w => l[w]?) = l.take n := by
  induction n with
  | zero => rfl
  | succ n ih =>
    rw [List.range_succ, List.filterMap_append, ih, List.take_add_one]
    cases h : l[n]? with
    | none => simp [h]
    | some x => simp [h]

/-- **`k` rounds over the shares** give the first `k * n` elements. -/
theorem rounds_stride (n k : ℕ) (l : List α) :
    rounds k ((List.range n).map fun w => stride n w l) = l.take (k * n) := by
  induction k generalizing l with
  | zero => rw [Nat.zero_mul]; rfl
  | succ k ih =>
    have hheads : ((List.range n).map fun w => stride n w l).filterMap List.head? = l.take n := by
      rw [List.filterMap_map, ← filterMap_getElem?]
      refine List.filterMap_congr fun w hw => ?_
      exact stride_head? (List.mem_range.mp hw) l
    have htails : ((List.range n).map fun w => stride n w l).map List.tail =
        (List.range n).map fun w => stride n w (l.drop n) := by
      rw [List.map_map]
      refine List.map_congr_left fun w hw => ?_
      exact stride_tail (List.mem_range.mp hw) l
    have hsplit : (k + 1) * n = n + k * n := by rw [Nat.succ_mul, Nat.add_comm]
    rw [rounds, hheads, htails, ih, hsplit, List.take_add]

/-- **Read round robin, the shares are the list.** -/
theorem roundRobin_stride (hn : 0 < n) (l : List α) :
    roundRobin ((List.range n).map fun w => stride n w l) = l := by
  rw [roundRobin, rounds_stride]
  refine List.take_of_length_le ?_
  have hfirst : (l.length + (n - 1)) / n ≤
      (((List.range n).map fun w => stride n w l).map List.length).foldr max 0 := by
    rw [← Nat.sub_zero (n - 1), ← length_stride hn l]
    exact length_le_rounds (List.mem_map_of_mem (List.mem_range.mpr hn))
  have hdiv := Nat.lt_div_mul_add (a := l.length + (n - 1)) hn
  have hmul := Nat.mul_le_mul_right n hfirst
  omega

/-! ### Shardings -/

/-- The lists are the shares of `all` among `n`. -/
structure Sharding (n : ℕ) (share : ℕ → List α) (all : List α) : Prop where
  position : ∀ w < n, ∀ k, (share w)[k]? = all[w + k * n]?
  cover : ∀ i < all.length, ∃! entry : ℕ × ℕ,
    entry.1 < n ∧ entry.2 < (share entry.1).length ∧ entry.1 + entry.2 * n = i
  order : ∀ w < n, (share w).Sublist all
  perm : ((List.range n).map share).flatten.Perm all
  balanced : ∀ w < n, ∀ w' < n, (share w).length ≤ (share w').length + 1
  interleaved : roundRobin ((List.range n).map share) = all

theorem stride_balanced {w' : ℕ} (hw : w < n) (hw' : w' < n) (l : List α) :
    (stride n w l).length ≤ (stride n w' l).length + 1 := by
  have hn : 0 < n := by omega
  rw [length_stride hw, length_stride hw', ← Nat.add_div_right _ hn]
  exact Nat.div_le_div_right (by omega)

/-- The position `i` of the list is the position `i / n` of share `i % n`. -/
theorem existsUnique_position (hn : 0 < n) {l : List α} {i : ℕ} (hi : i < l.length) :
    ∃! entry : ℕ × ℕ,
      entry.1 < n ∧ entry.2 < (stride n entry.1 l).length ∧ entry.1 + entry.2 * n = i := by
  have hmod : i % n + i / n * n = i := by rw [Nat.mul_comm]; exact Nat.mod_add_div i n
  refine ⟨(i % n, i / n), ⟨Nat.mod_lt i hn, ?_, hmod⟩, ?_⟩
  · have hsome : (stride n (i % n) l)[i / n]? = some l[i] := by
      rw [getElem?_stride (Nat.mod_lt i hn), hmod, List.getElem?_eq_getElem hi]
    exact (List.getElem?_eq_some_iff.mp hsome).1
  · rintro ⟨w, k⟩ ⟨hw, _, rfl⟩
    rw [Nat.add_mul_mod_self_right, Nat.mod_eq_of_lt hw, Nat.add_mul_div_right _ _ hn,
      Nat.div_eq_of_lt hw, Nat.zero_add]

/-- **Sharding by stride.** -/
theorem sharding_stride (hn : 0 < n) (l : List α) : Sharding n (fun w => stride n w l) l where
  position _ hw := getElem?_stride hw l
  cover _ hi := existsUnique_position hn hi
  order w _ := strideFrom_sublist n w 0 l
  perm := by
    have hperm := (roundRobin_perm ((List.range n).map fun w => stride n w l)).symm
    rwa [roundRobin_stride hn] at hperm
  balanced _ hw _ hw' := stride_balanced hw hw' l
  interleaved := roundRobin_stride hn l

end Stride
