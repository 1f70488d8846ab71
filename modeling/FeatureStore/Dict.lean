/-
  FeatureStore/Dict.lean
  ======================
  **Insertion-ordered dictionaries.**

  A dictionary is the list of its items together with a proof that no key
  occurs twice.  Assigning to a present key replaces the value where the item
  stands, and assigning to a new key appends an item, so iteration follows the
  order of first insertion.  `AList` of Mathlib keeps the same well-formedness
  but moves an updated key to the front, which is why it is not used here.

  The second half is about dictionaries built by a stream of events, each of
  which updates the entry of one key (`Dict.feed`): the entry of a key is then
  the fold of that key's own events, and of nothing else (`get?_feed_empty`).

  Nothing in this file depends on what the keys, values and events are.
-/
import Mathlib.Data.List.Nodup
import Mathlib.Data.List.Dedup
import FeatureStore.Grouping

universe u v w

/-- A dictionary: its items in insertion order, with pairwise distinct keys. -/
structure Dict (κ : Type u) (ν : Type v) where
  items : List (κ × ν)
  nodup_keys : (items.map Prod.fst).Nodup

namespace Dict

open Grouping (group group_snoc group_ne_nil_iff)

variable {κ : Type u} {ν : Type v}

@[ext] theorem ext {d e : Dict κ ν} (h : d.items = e.items) : d = e := by
  cases d
  cases e
  simp only at h
  subst h
  rfl

/-- The dictionary without items. -/
def empty : Dict κ ν := ⟨[], List.nodup_nil⟩

def keys (d : Dict κ ν) : List κ := d.items.map Prod.fst

def values (d : Dict κ ν) : List ν := d.items.map Prod.snd

/-- The number of items. -/
def size (d : Dict κ ν) : Nat := d.items.length

theorem keys_nodup (d : Dict κ ν) : d.keys.Nodup := d.nodup_keys

@[simp] theorem length_keys (d : Dict κ ν) : d.keys.length = d.size := by
  simp [keys, size]

/-! ### Lookup and assignment on the item list -/

section Items

variable [DecidableEq κ]

/-- The value of the first item with key `k`. -/
def lookupItems (k : κ) : List (κ × ν) → Option ν
  | [] => none
  | (k', v) :: rest => if k' = k then some v else lookupItems k rest

/-- Replace the value at `k` where it stands, or append a new item. -/
def setItems (k : κ) (v : ν) : List (κ × ν) → List (κ × ν)
  | [] => [(k, v)]
  | (k', v') :: rest =>
      if k' = k then (k', v) :: rest else (k', v') :: setItems k v rest

theorem keys_setItems (k : κ) (v : ν) (l : List (κ × ν)) :
    (setItems k v l).map Prod.fst =
      if k ∈ l.map Prod.fst then l.map Prod.fst else l.map Prod.fst ++ [k] := by
  induction l with
  | nil => simp [setItems]
  | cons item rest ih =>
    obtain ⟨k', v'⟩ := item
    by_cases h : k' = k
    · simp [setItems, h]
    · have h' : k ≠ k' := fun heq => h heq.symm
      simp only [setItems, if_neg h, List.map_cons, ih, List.mem_cons, h', false_or]
      split <;> simp

theorem lookupItems_setItems (k k' : κ) (v : ν) (l : List (κ × ν)) :
    lookupItems k' (setItems k v l) = if k = k' then some v else lookupItems k' l := by
  induction l with
  | nil => simp [setItems, lookupItems]
  | cons item rest ih =>
    obtain ⟨j, w⟩ := item
    by_cases hj : j = k
    · subst hj
      by_cases hk : j = k' <;> simp [setItems, lookupItems, hk]
    · by_cases hk : k = k'
      · subst hk
        simp [setItems, lookupItems, hj, ih]
      · simp [setItems, lookupItems, hj, ih, hk]

theorem lookupItems_eq_none_iff (k : κ) (l : List (κ × ν)) :
    lookupItems k l = none ↔ k ∉ l.map Prod.fst := by
  induction l with
  | nil => simp [lookupItems]
  | cons item rest ih =>
    obtain ⟨j, w⟩ := item
    by_cases hj : j = k
    · simp [lookupItems, hj]
    · have hj' : k ≠ j := fun heq => hj heq.symm
      simp only [lookupItems, if_neg hj, ih, List.map_cons, List.mem_cons, hj', false_or]

theorem lookupItems_eq_some_iff {k : κ} {v : ν} {l : List (κ × ν)}
    (hl : (l.map Prod.fst).Nodup) : lookupItems k l = some v ↔ (k, v) ∈ l := by
  induction l with
  | nil => simp [lookupItems]
  | cons item rest ih =>
    obtain ⟨j, w⟩ := item
    rw [List.map_cons, List.nodup_cons] at hl
    by_cases hj : j = k
    · subst hj
      have hrest : (j, v) ∉ rest := fun hmem =>
        hl.1 (List.mem_map.mpr ⟨(j, v), hmem, rfl⟩)
      simp [lookupItems, hrest, eq_comm]
    · have hj' : k ≠ j := fun heq => hj heq.symm
      simp [lookupItems, hj, hj', ih hl.2]

theorem filter_lookupItems {k : κ} {l : List (κ × ν)} (hl : (l.map Prod.fst).Nodup) :
    (l.filter fun item => item.1 = k).map Prod.snd = (lookupItems k l).toList := by
  induction l with
  | nil => rfl
  | cons item rest ih =>
    obtain ⟨j, v⟩ := item
    rw [List.map_cons, List.nodup_cons] at hl
    by_cases hj : j = k
    · subst hj
      have hrest : rest.filter (fun item => item.1 = j) = [] := by
        rw [List.filter_eq_nil_iff]
        intro item hitem hkey
        exact hl.1 (List.mem_map.mpr ⟨item, hitem, of_decide_eq_true hkey⟩)
      simp [lookupItems, hrest]
    · simp [lookupItems, hj, ih hl.2]

end Items

/-! ### Lookup and assignment -/

section Lookup

variable [DecidableEq κ]

/-- `d.get(k)`. -/
def get? (d : Dict κ ν) (k : κ) : Option ν := lookupItems k d.items

/-- `d[k] = v`. -/
def set (d : Dict κ ν) (k : κ) (v : ν) : Dict κ ν where
  items := setItems k v d.items
  nodup_keys := by
    rw [keys_setItems]
    split
    · exact d.nodup_keys
    · rename_i hk
      exact List.nodup_append.mpr ⟨d.nodup_keys, List.nodup_singleton k, by
        intro a ha b hb heq
        rw [List.mem_singleton] at hb
        exact hk (hb ▸ heq ▸ ha)⟩

@[simp] theorem get?_empty (k : κ) : (empty : Dict κ ν).get? k = none := rfl

@[simp] theorem get?_set (d : Dict κ ν) (k k' : κ) (v : ν) :
    (d.set k v).get? k' = if k = k' then some v else d.get? k' :=
  lookupItems_setItems k k' v d.items

theorem get?_set_self (d : Dict κ ν) (k : κ) (v : ν) : (d.set k v).get? k = some v := by
  simp

theorem get?_eq_none_iff (d : Dict κ ν) (k : κ) : d.get? k = none ↔ k ∉ d.keys :=
  lookupItems_eq_none_iff k d.items

theorem mem_items_iff (d : Dict κ ν) (k : κ) (v : ν) :
    (k, v) ∈ d.items ↔ d.get? k = some v :=
  (lookupItems_eq_some_iff d.nodup_keys).symm

theorem mem_keys_iff (d : Dict κ ν) (k : κ) : k ∈ d.keys ↔ ∃ v, d.get? k = some v := by
  constructor
  · intro hk
    obtain ⟨⟨j, v⟩, hmem, rfl⟩ := List.mem_map.mp hk
    exact ⟨v, (d.mem_items_iff j v).mp hmem⟩
  · rintro ⟨v, hv⟩
    exact List.mem_map.mpr ⟨(k, v), (d.mem_items_iff k v).mpr hv, rfl⟩

/-- At most one item has a given key. -/
theorem filter_items_key (d : Dict κ ν) (k : κ) :
    (d.items.filter fun item => item.1 = k).map Prod.snd = (d.get? k).toList :=
  filter_lookupItems d.nodup_keys

/-- The items are the keys in order, each with the value stored at it. -/
theorem items_eq_keys_map (d : Dict κ ν) (dflt : ν) :
    d.items = d.keys.map fun k => (k, (d.get? k).getD dflt) := by
  rw [keys, List.map_map]
  conv_lhs => rw [← List.map_id d.items]
  apply List.map_congr_left
  intro item hitem
  have hget : d.get? item.1 = some item.2 := (d.mem_items_iff _ _).mp hitem
  simp [hget]

/-- A sum over the items is a sum over the set of keys. -/
theorem sum_items {M : Type w} [AddCommMonoid M] (d : Dict κ ν) (g : κ → ν → M) (dflt : ν) :
    (d.items.map fun item => g item.1 item.2).sum =
      ∑ k ∈ d.keys.toFinset, g k ((d.get? k).getD dflt) := by
  rw [List.sum_toFinset _ d.keys_nodup]
  conv_lhs => rw [d.items_eq_keys_map dflt]
  rw [List.map_map]
  rfl

end Lookup

/-! ### Applying a function to every value -/

section MapVal

variable {μ : Type w}

def mapVal (g : ν → μ) (d : Dict κ ν) : Dict κ μ where
  items := d.items.map fun item => (item.1, g item.2)
  nodup_keys := by
    rw [List.map_map]
    exact d.nodup_keys

@[simp] theorem size_mapVal (g : ν → μ) (d : Dict κ ν) : (d.mapVal g).size = d.size := by
  simp [size, mapVal]

variable [DecidableEq κ]

@[simp] theorem get?_mapVal (g : ν → μ) (d : Dict κ ν) (k : κ) :
    (d.mapVal g).get? k = (d.get? k).map g := by
  simp only [get?, mapVal]
  induction d.items with
  | nil => rfl
  | cons item rest ih =>
    by_cases h : item.1 = k
    · simp [lookupItems, h]
    · simpa [lookupItems, h] using ih

theorem mapVal_set (g : ν → μ) (d : Dict κ ν) (k : κ) (v : ν) :
    (d.set k v).mapVal g = (d.mapVal g).set k (g v) := by
  apply ext
  simp only [mapVal, set]
  induction d.items with
  | nil => rfl
  | cons item rest ih =>
    by_cases h : item.1 = k
    · simp [setItems, h]
    · simpa [setItems, h] using ih

end MapVal

/-! ### Dictionaries fed by a stream of events

`feed key start step d events` runs the loop that, for each event, looks the
event's key up, starts from `start` if it is absent, and stores the stepped
value. -/

section Feed

variable {ε : Type w} [DecidableEq κ] (key : ε → κ) (start : ν) (step : ν → ε → ν)

/-- One turn of the loop. -/
def feedOne (d : Dict κ ν) (event : ε) : Dict κ ν :=
  d.set (key event) (step ((d.get? (key event)).getD start) event)

def feed (d : Dict κ ν) (events : List ε) : Dict κ ν :=
  events.foldl (feedOne key start step) d

@[simp] theorem feed_nil (d : Dict κ ν) : feed key start step d [] = d := rfl

theorem feed_append (d : Dict κ ν) (events more : List ε) :
    feed key start step d (events ++ more) =
      feed key start step (feed key start step d events) more :=
  List.foldl_append

theorem feed_snoc (d : Dict κ ν) (events : List ε) (event : ε) :
    feed key start step d (events ++ [event]) =
      feedOne key start step (feed key start step d events) event :=
  feed_append key start step d events [event]

/-- **Key separation.**  The entry of `k` is the fold of `k`'s own events; it is
    absent when there are none. -/
theorem get?_feed_empty (events : List ε) (k : κ) :
    (feed key start step empty events).get? k =
      if group key k events = [] then none
      else some ((group key k events).foldl step start) := by
  induction events using List.reverseRecOn with
  | nil => simp
  | append_singleton events event ih =>
    rw [feed_snoc, feedOne, get?_set, group_snoc]
    by_cases h : key event = k
    · subst h
      rw [if_pos rfl, if_pos rfl, ih, if_neg (List.append_ne_nil_of_right_ne_nil _ (by simp)),
        List.foldl_append]
      by_cases hnil : group key (key event) events = []
      · simp [hnil]
      · simp [hnil]
    · rw [if_neg h, if_neg h, ih]

theorem mem_keys_feed_empty {events : List ε} {k : κ} :
    k ∈ (feed key start step empty events).keys ↔ ∃ event ∈ events, key event = k := by
  rw [mem_keys_iff, ← group_ne_nil_iff]
  rw [get?_feed_empty]
  by_cases h : group key k events = [] <;> simp [h]

theorem get?_feed_getD (events : List ε) (k : κ) :
    ((feed key start step empty events).get? k).getD start =
      (group key k events).foldl step start := by
  rw [get?_feed_empty]
  by_cases h : group key k events = [] <;> simp [h]

theorem get?_feed_some {events : List ε} {k : κ} {v : ν}
    (h : (feed key start step empty events).get? k = some v) :
    v = (group key k events).foldl step start := by
  rw [← get?_feed_getD, h, Option.getD_some]

/-- **Sums over the entries.**  If every step adds the event's share to `g`, the
    sum of `g` over the entries whose key is mapped to `k'` is the sum of the
    shares of the events whose key is. -/
theorem sum_feed_empty {M κ' : Type*} [AddCommMonoid M] [DecidableEq κ'] {g : ν → M}
    {share : ε → M} (hstart : g start = 0) (hstep : ∀ v e, g (step v e) = g v + share e)
    (q : κ → κ') (k' : κ') (events : List ε) :
    (((feed key start step empty events).items.filter fun item => q item.1 = k').map
      fun item => g item.2).sum = ((group (fun e => q (key e)) k' events).map share).sum := by
  have hentry : ∀ k, g (((feed key start step empty events).get? k).getD start) =
      ((group key k events).map share).sum := by
    intro k
    rw [get?_feed_getD, Grouping.measure_foldl hstep, hstart, zero_add]
  have hsplit : ∀ l : List (κ × ν), ((l.filter fun item => q item.1 = k').map
      fun item => g item.2).sum = (l.map fun item => if q item.1 = k' then g item.2 else 0).sum := by
    intro l
    induction l with
    | nil => rfl
    | cons item l ih => by_cases h : q item.1 = k' <;> simp [h, ih]
  rw [hsplit, sum_items _ (fun k v => if q k = k' then g v else 0) start,
    ← Grouping.sum_group key share (feed key start step empty events).keys.toFinset]
  · apply Finset.sum_congr rfl
    intro k _
    rw [Grouping.group_group_of_factor key (fun _ => rfl), hentry]
    by_cases h : q k = k' <;> simp [h]
  · intro e he
    rw [List.mem_toFinset, mem_keys_feed_empty]
    exact ⟨e, ((Grouping.mem_group _).mp he).1, rfl⟩

end Feed

end Dict
