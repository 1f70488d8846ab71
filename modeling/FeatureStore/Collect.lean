/-
  FeatureStore/Collect.lean
  =========================
  **A dictionary that is copied one key at a time.**

  Writers assign to the keys of a dictionary.  A reader copies it: it takes the keys,
  and then looks up one after another, while the writers go on.  The copy need not be
  what the dictionary was at any one time.  But each of its values, missing ones
  included, was in the dictionary at some time since the copy began (`Since.finish`),
  and no lookup fails (`Since.exists_fetch`).  So where the value of a key only grows,
  a copy is no smaller than what there was when it began (`Growing.le`).  A writer that
  assigns the same keys in rounds gives each key the value of a known round
  (`get?_dict_rounds`).

  Nothing in this file depends on what the keys and values are.
-/
import FeatureStore.Dict
import Mathlib.Data.List.Basic

universe u v w

namespace Collect

variable {κ : Type u} {ν : Type v} [DecidableEq κ]

/-! ### What has been assigned -/

/-- The dictionary after the assignments. -/
def dict (written : List (κ × ν)) : Dict κ ν := written.foldl (fun d a => d.set a.1 a.2) .empty

theorem get?_dict_snoc (written : List (κ × ν)) (a : κ × ν) (k : κ) :
    (dict (written ++ [a])).get? k = if a.1 = k then some a.2 else (dict written).get? k := by
  rw [dict, List.foldl_append, List.foldl_cons, List.foldl_nil, Dict.get?_set]
  rfl

theorem get?_dict_append_map (before : List (κ × ν)) (ks : List κ) (g : κ → ν) (k : κ) :
    (dict (before ++ ks.map fun k' => (k', g k'))).get? k =
      if k ∈ ks then some (g k) else (dict before).get? k := by
  induction ks using List.reverseRecOn with
  | nil => simp
  | append_singleton ks k' ih =>
    rw [List.map_append, List.map_singleton, ← List.append_assoc, get?_dict_snoc, ih]
    by_cases hk : k' = k
    · simp [hk]
    · have hmem : k ∈ ks ++ [k'] ↔ k ∈ ks := by simp [Ne.symm hk]
      rw [if_neg hk, if_congr hmem rfl rfl]

/-- **A writer that assigns the same keys in rounds.**  After `t` assignments the key
    with index `i` has the value of round `(t + (n - 1 - i)) / n`, counted from one. -/
theorem get?_dict_rounds {α : Type w} {keys : List κ} (hkeys : keys.Nodup) (value : α → κ → ν)
    {i : ℕ} {k : κ} (hk : keys[i]? = some k) (before : List (κ × ν)) (rounds : List α) {t : ℕ}
    (ht : t ≤ keys.length * rounds.length) :
    (dict (before ++
        (rounds.flatMap fun r => keys.map fun k' => (k', value r k')).take t)).get? k =
      match (t + (keys.length - 1 - i)) / keys.length with
      | 0 => (dict before).get? k
      | v + 1 => rounds[v]?.map fun r => value r k := by
  obtain ⟨hi, hget⟩ := List.getElem?_eq_some_iff.mp hk
  induction rounds generalizing before t with
  | nil =>
    obtain rfl : t = 0 := by simpa using ht
    rw [Nat.div_eq_of_lt (by omega)]
    simp
  | cons r rounds ih =>
    have hmem : ∀ s, k ∈ keys.take s ↔ i < s := by
      intro s
      rw [List.mem_take_iff_getElem]
      constructor
      · rintro ⟨j, hj, hjk⟩
        have hij : j = i := hkeys.getElem_inj_iff.mp (hjk.trans hget.symm)
        omega
      · intro his
        exact ⟨i, by omega, hget⟩
    rw [List.flatMap_cons]
    rcases Nat.lt_or_ge keys.length t with hlong | hshort
    · -- the first round is complete
      have htake : ((keys.map fun k' => (k', value r k')) ++
          rounds.flatMap fun r => keys.map fun k' => (k', value r k')).take t =
          (keys.map fun k' => (k', value r k')) ++
            (rounds.flatMap fun r => keys.map fun k' => (k', value r k')).take
              (t - keys.length) := by
        rw [List.take_append, List.take_of_length_le (by simp; omega), List.length_map]
      have hround : (t + (keys.length - 1 - i)) / keys.length =
          (t - keys.length + (keys.length - 1 - i)) / keys.length + 1 := by
        rw [← Nat.add_div_right _ (by omega)]
        congr 1
        omega
      rw [htake, ← List.append_assoc, ih _ (by rw [List.length_cons, Nat.mul_succ] at ht; omega),
        hround]
      cases (t - keys.length + (keys.length - 1 - i)) / keys.length with
      | zero =>
        have hmem' : k ∈ keys := List.mem_of_getElem? hk
        simp [get?_dict_append_map, hmem']
      | succ v => simp
    · rw [List.take_append_of_le_length (by simpa using hshort), ← List.map_take,
        get?_dict_append_map, if_congr (hmem t) rfl rfl]
      by_cases his : i < t
      · have hround : (t + (keys.length - 1 - i)) / keys.length = 1 :=
          Nat.div_eq_of_lt_le (by omega) (by omega)
        rw [if_pos his, hround]
        simp
      · rw [if_neg his, Nat.div_eq_of_lt (by omega)]

/-- A measure of the values grows with every assignment. -/
def Growing {M : Type w} [Preorder M] (m : Option ν → M) (written : List (κ × ν)) : Prop :=
  ∀ k i j, i ≤ j →
    m ((dict (written.take i)).get? k) ≤ m ((dict (written.take j)).get? k)

theorem Growing.assign {M : Type w} [Preorder M] {m : Option ν → M} {written : List (κ × ν)}
    (h : Growing m written) {k : κ} {v : ν} (hv : m ((dict written).get? k) ≤ m (some v)) :
    Growing m (written ++ [(k, v)]) := by
  have hlast : ∀ k', m ((dict written).get? k') ≤
      m ((dict (written ++ [(k, v)])).get? k') := by
    intro k'
    rw [get?_dict_snoc]
    by_cases hk : k = k'
    · subst hk
      rwa [if_pos rfl]
    · rw [if_neg hk]
  intro k' i j hij
  rcases Nat.lt_or_ge written.length j with hj | hj
  · rw [List.take_of_length_le (i := j) (by simp; omega)]
    rcases Nat.lt_or_ge written.length i with hi | hi
    · rw [List.take_of_length_le (i := i) (by simp; omega)]
    · rw [List.take_append_of_le_length hi]
      have hprefix := h k' i written.length hi
      rw [List.take_length] at hprefix
      exact hprefix.trans (hlast k')
  · rw [List.take_append_of_le_length hj, List.take_append_of_le_length (hij.trans hj)]
    exact h k' i j hij

/-! ### A copy under way -/

/-- The keys that are still to be looked up, and what has been copied. -/
structure Copy (κ : Type u) (ν : Type v) where
  pending : List κ
  got : Dict κ ν := .empty

structure State (κ : Type u) (ν : Type v) where
  written : List (κ × ν) := []
  copy : Option (Copy κ ν) := none

namespace State

def shared (s : State κ ν) : Dict κ ν := dict s.written

def assign (s : State κ ν) (k : κ) (v : ν) : State κ ν :=
  { s with written := s.written ++ [(k, v)] }

/-- Take the keys. -/
def start (s : State κ ν) : Option (State κ ν) :=
  match s.copy with
  | none => some { s with copy := some { pending := s.shared.keys } }
  | some _ => none

/-- Look up the next key. -/
def fetch (s : State κ ν) : Option (State κ ν) :=
  match s.copy with
  | some ⟨k :: pending, got⟩ =>
      (s.shared.get? k).map fun v => { s with copy := some { pending, got := got.set k v } }
  | _ => none

/-- The copy, when all keys have been looked up. -/
def finish (s : State κ ν) : Option (Dict κ ν × State κ ν) :=
  match s.copy with
  | some ⟨[], got⟩ => some (got, { s with copy := none })
  | _ => none

theorem written_start {s s' : State κ ν} (h : s.start = some s') : s'.written = s.written := by
  rw [start] at h
  split at h
  · obtain rfl := Option.some.inj h
    rfl
  · cases h

theorem written_fetch {s s' : State κ ν} (h : s.fetch = some s') : s'.written = s.written := by
  rw [fetch] at h
  split at h
  · obtain ⟨v, _, rfl⟩ := Option.map_eq_some_iff.mp h
    rfl
  · cases h

omit [DecidableEq κ] in
theorem copy_finish {s s' : State κ ν} {got : Dict κ ν} (h : s.finish = some (got, s')) :
    s'.copy = none := by
  rw [finish] at h
  split at h
  · obtain ⟨_, rfl⟩ := Prod.mk.inj (Option.some.inj h)
    rfl
  · cases h

end State

/-- What has been copied was in the dictionary at `time`, not before `mark`. -/
structure Copied (written : List (κ × ν)) (mark : ℕ) (c : Copy κ ν) (time : κ → ℕ) : Prop where
  mark_le : ∀ k, mark ≤ time k
  le : ∀ k, time k ≤ written.length
  present : ∀ k ∈ c.pending, (dict written).get? k ≠ none
  got : ∀ k, k ∉ c.pending → c.got.get? k = (dict (written.take (time k))).get? k

/-- A copy that is under way has begun after the first `mark` assignments. -/
def Since (mark : ℕ) (s : State κ ν) : Prop :=
  mark ≤ s.written.length ∧ ∀ c, s.copy = some c → ∃ time, Copied s.written mark c time

namespace Since

variable {mark : ℕ} {s s' : State κ ν}

theorem of_idle (h : s.copy = none) : Since s.written.length s :=
  ⟨le_refl _, fun c hc => by rw [h] at hc; cases hc⟩

theorem assign (h : Since mark s) (k : κ) (v : ν) : Since mark (s.assign k v) := by
  have hlength : s.written.length ≤ (s.assign k v).written.length := by
    simp [State.assign]
  refine ⟨h.1.trans hlength, fun c hc => ?_⟩
  obtain ⟨time, htime⟩ := h.2 c hc
  refine ⟨time, htime.mark_le, fun k' => (htime.le k').trans hlength, fun k' hk' => ?_,
    fun k' hk' => ?_⟩
  · rw [State.assign, get?_dict_snoc]
    by_cases hk : k = k'
    · simp [hk]
    · rw [if_neg hk]
      exact htime.present k' hk'
  · rw [State.assign, List.take_append_of_le_length (htime.le k')]
    exact htime.got k' hk'

theorem start (h : Since mark s) (hstart : s.start = some s') : Since mark s' := by
  rw [State.start] at hstart
  split at hstart
  · obtain rfl := Option.some.inj hstart
    refine ⟨h.1, fun c hc => ?_⟩
    obtain rfl := Option.some.inj hc
    refine ⟨fun _ => s.written.length, fun _ => h.1, fun _ => le_refl _, fun k hk => ?_,
      fun k hk => ?_⟩
    · exact mt (Dict.get?_eq_none_iff _ _).mp (not_not_intro hk)
    · rw [List.take_length]
      exact ((Dict.get?_eq_none_iff _ _).mpr hk).symm
  · cases hstart

theorem fetch (h : Since mark s) (hfetch : s.fetch = some s') : Since mark s' := by
  rw [State.fetch] at hfetch
  split at hfetch
  · rename_i k pending got hcopy
    obtain ⟨v, hv, rfl⟩ := Option.map_eq_some_iff.mp hfetch
    refine ⟨h.1, fun c hc => ?_⟩
    obtain rfl := Option.some.inj hc
    obtain ⟨time, htime⟩ := h.2 _ hcopy
    -- this key is looked up now
    refine ⟨Function.update time k s.written.length, fun k' => ?_, fun k' => ?_, fun k' hk' => ?_,
      fun k' hk' => ?_⟩
    · by_cases hk : k' = k
      · subst hk
        rw [Function.update_self]
        exact h.1
      · rw [Function.update_of_ne hk]
        exact htime.mark_le k'
    · by_cases hk : k' = k
      · subst hk
        rw [Function.update_self]
      · rw [Function.update_of_ne hk]
        exact htime.le k'
    · exact htime.present k' (List.mem_cons_of_mem k hk')
    · rw [Dict.get?_set]
      by_cases hk : k' = k
      · subst hk
        rw [if_pos rfl, Function.update_self, List.take_length]
        exact hv.symm
      · rw [if_neg (Ne.symm hk), Function.update_of_ne hk]
        exact htime.got k' (List.not_mem_cons_of_ne_of_not_mem hk hk')
  · cases hfetch

/-- No lookup fails. -/
theorem exists_fetch (h : Since mark s) {k : κ} {pending : List κ} {got : Dict κ ν}
    (hcopy : s.copy = some ⟨k :: pending, got⟩) : ∃ s', s.fetch = some s' := by
  obtain ⟨time, htime⟩ := h.2 _ hcopy
  obtain ⟨v, hv⟩ := Option.ne_none_iff_exists'.mp (htime.present k List.mem_cons_self)
  have hshared : s.shared.get? k = some v := hv
  refine ⟨{ s with copy := some ⟨pending, got.set k v⟩ }, ?_⟩
  simp only [State.fetch, hcopy, hshared, Option.map_some]

/-- **What a copy holds**, and that the next one begins after it. -/
theorem finish (h : Since mark s) {got : Dict κ ν} (hfinish : s.finish = some (got, s')) :
    (∃ time : κ → ℕ, (∀ k, mark ≤ time k ∧ time k ≤ s.written.length) ∧
      ∀ k, got.get? k = (dict (s.written.take (time k))).get? k) ∧
    s'.written = s.written ∧ Since s.written.length s' := by
  rw [State.finish] at hfinish
  split at hfinish
  · rename_i got' hcopy
    obtain ⟨rfl, rfl⟩ := Prod.mk.inj (Option.some.inj hfinish)
    obtain ⟨time, htime⟩ := h.2 _ hcopy
    exact ⟨⟨time, fun k => ⟨htime.mark_le k, htime.le k⟩,
      fun k => htime.got k List.not_mem_nil⟩, rfl, of_idle (s := { s with copy := none }) rfl⟩
  · cases hfinish

end Since

/-- A copy is no smaller than what there was when it began. -/
theorem Growing.le {M : Type w} [Preorder M] {m : Option ν → M} {written : List (κ × ν)}
    (h : Growing m written) {got : Dict κ ν} {mark : ℕ} {time : κ → ℕ}
    (htime : ∀ k, mark ≤ time k ∧ time k ≤ written.length)
    (hgot : ∀ k, got.get? k = (dict (written.take (time k))).get? k) (k : κ) :
    m ((dict (written.take mark)).get? k) ≤ m (got.get? k) ∧
      m (got.get? k) ≤ m ((dict written).get? k) := by
  rw [hgot]
  refine ⟨h k _ _ (htime k).1, ?_⟩
  have hend := h k _ _ (htime k).2
  rwa [List.take_length] at hend

end Collect
