/-
  FeatureStore/LastWriter.lean
  ============================
  **A last-writer-wins store.**

  Rows are written under their key, and each write carries the stamp of its
  issue.  A cell keeps the write with the larger stamp, so that it does not
  matter in which order writes arrive.  A writer that issues `rows` one after
  another stamps them `base`, `base + 1`, ... (`stampFrom`).

    * If every write arrives, in any order, over an older store, each cell ends
      with the last row that was issued for its key (`Drained.rowAt_eq`).
    * Whatever arrives, and however often and late, a cell of a store that was
      empty holds an issued row, and moves to later issued rows only
      (`rowAt_mem`, `rowAt_mono`).
    * A cell is up to date but for writes that have not arrived (`exists_cut`).

  Nothing in this file depends on what the keys and rows are.
-/
import Mathlib.Data.List.Nodup
import Mathlib.Data.List.Perm.Basic
import Mathlib.Data.Set.Card
import FeatureStore.Grouping

universe u v w

/-- A write: the row and the stamp of its issue. -/
structure Write (ν : Type v) where
  stamp : ℕ
  row : ν

namespace LastWriter

open Grouping (group)

variable {κ : Type u} {ν : Type v} [DecidableEq κ] (key : ν → κ)

/-! ### The last row of a key -/

/-- The last of the rows issued for a key. -/
def lastFor (rows : List ν) (k : κ) : Option ν := (group key k rows).getLast?

theorem lastFor_append (rows more : List ν) (k : κ) :
    lastFor key (rows ++ more) k = (lastFor key more k).or (lastFor key rows k) := by
  rw [lastFor, Grouping.group_append, List.getLast?_append]
  rfl

theorem lastFor_eq_none_iff {rows : List ν} {k : κ} :
    lastFor key rows k = none ↔ ∀ row ∈ rows, key row ≠ k := by
  rw [lastFor, List.getLast?_eq_none_iff, group, List.filter_eq_nil_iff]
  simp

theorem lastFor_append_of_ne {rows more : List ν} {k : κ} (h : ∀ row ∈ more, key row ≠ k) :
    lastFor key (rows ++ more) k = lastFor key rows k := by
  rw [lastFor_append, (lastFor_eq_none_iff key).mpr h, Option.none_or]

theorem mem_of_lastFor {rows : List ν} {k : κ} {row : ν} (h : lastFor key rows k = some row) :
    row ∈ rows ∧ key row = k :=
  (Grouping.mem_group key).mp (List.mem_of_getLast? h)

/-- When keys do not repeat, every row is the last of its key. -/
theorem lastFor_of_nodup {rows : List ν} (hnodup : (rows.map key).Nodup) {row : ν}
    (hrow : row ∈ rows) : lastFor key rows (key row) = some row := by
  cases hlast : lastFor key rows (key row) with
  | none => exact absurd rfl ((lastFor_eq_none_iff key).mp hlast row hrow)
  | some row' =>
    obtain ⟨hrow', hkey⟩ := mem_of_lastFor key hlast
    rw [List.inj_on_of_nodup_map hnodup hrow' hrow hkey]

/-- The last row of rows made from events is made from the last event. -/
theorem lastFor_map {ε : Type*} (g : ε → ν) (l : List ε) (k : κ) :
    lastFor key (l.map g) k = (lastFor (fun e => key (g e)) l k).map g := by
  rw [lastFor, group, List.filter_map, List.getLast?_map]
  rfl

/-- Of a last row that belongs to a part of the rows, that part has it as its
    last row as well. -/
theorem lastFor_group {κ' : Type*} [DecidableEq κ'] (part : ν → κ') {rows : List ν} {k : κ}
    {row : ν} (h : lastFor key rows k = some row) :
    lastFor key (group part (part row) rows) k = some row := by
  obtain ⟨before, hbefore⟩ := List.getLast?_eq_some_iff.mp h
  rw [lastFor, Grouping.group_group_comm, hbefore, Grouping.group_snoc, if_pos rfl]
  exact List.getLast?_concat

/-- The rows that are the last of their key. -/
def lasts (rows : List ν) : Set ν := {row | lastFor key rows (key row) = some row}

theorem mem_lasts {rows : List ν} {row : ν} :
    row ∈ lasts key rows ↔ lastFor key rows (key row) = some row := Iff.rfl

theorem mem_of_mem_lasts {rows : List ν} {row : ν} (h : row ∈ lasts key rows) : row ∈ rows :=
  (mem_of_lastFor key h).1

theorem lasts_injOn (rows : List ν) : Set.InjOn key (lasts key rows) := by
  intro row hrow row' hrow' hkey
  rw [mem_lasts] at hrow hrow'
  rw [hkey, hrow'] at hrow
  exact (Option.some.inj hrow).symm

/-- Every key that was issued has one last row. -/
theorem ncard_lasts (rows : List ν) : (lasts key rows).ncard = (rows.map key).toFinset.card := by
  have himage : key '' lasts key rows = ((rows.map key).toFinset : Set κ) := by
    ext k
    simp only [Set.mem_image, Finset.mem_coe, List.mem_toFinset, List.mem_map]
    constructor
    · rintro ⟨row, hrow, rfl⟩
      exact ⟨row, mem_of_mem_lasts key hrow, rfl⟩
    · rintro ⟨row, hrow, rfl⟩
      obtain ⟨last, hlast⟩ := Option.ne_none_iff_exists'.mp fun hnone =>
        (lastFor_eq_none_iff key).mp hnone row hrow rfl
      have hkey := (mem_of_lastFor key hlast).2
      exact ⟨last, (mem_lasts key).mpr (by rw [hkey, hlast]), hkey⟩
  rw [← (lasts_injOn key rows).ncard_image, himage, Set.ncard_coe_finset]

/-- The last rows are as many as the rows exactly when no key repeats. -/
theorem ncard_lasts_eq_length_iff (rows : List ν) :
    (lasts key rows).ncard = rows.length ↔ (rows.map key).Nodup := by
  have hcard := Multiset.toFinset_card_eq_card_iff_nodup (m := (rows.map key : Multiset κ))
  rw [Multiset.coe_card, List.length_map] at hcard
  rw [ncard_lasts]
  exact hcard

/-- Rows made from events, one key for one key: the last rows are those of the
    last events. -/
theorem lasts_map {ε : Type*} {κ' : Type*} [DecidableEq κ'] {g : ε → ν} {key' : ε → κ'}
    (hkey : ∀ e e', key (g e) = key (g e') ↔ key' e = key' e') (l : List ε) :
    lasts key (l.map g) = g '' lasts key' l := by
  have hlast : ∀ e, lastFor key (l.map g) (key (g e)) = (lastFor key' l (key' e)).map g := by
    intro e
    rw [lastFor_map, lastFor, lastFor, group, group]
    congr 2
    apply List.filter_congr
    intro e' _
    exact decide_eq_decide.mpr (hkey e' e)
  ext row
  constructor
  · intro hrow
    obtain ⟨e, _, rfl⟩ := List.mem_map.mp (mem_of_mem_lasts key hrow)
    have hmap : lastFor key (l.map g) (key (g e)) = some (g e) := hrow
    rw [hlast] at hmap
    obtain ⟨e', he', heq⟩ := Option.map_eq_some_iff.mp hmap
    have hkey' := (mem_of_lastFor key' he').2
    exact ⟨e', (mem_lasts key').mpr (by rw [hkey', he']), heq⟩
  · rintro ⟨e, he, rfl⟩
    have hown : lastFor key' l (key' e) = some e := he
    rw [mem_lasts, hlast, hown, Option.map_some]

/-! ### The store -/

/-- The write that each cell holds. -/
abbrev Store (κ : Type u) (ν : Type v) := κ → Option (Write ν)

/-- A write arrives at a cell. -/
def merge (cell : Option (Write ν)) (w : Write ν) : Option (Write ν) :=
  match cell with
  | none => some w
  | some old => if old.stamp ≤ w.stamp then some w else some old

/-- A write arrives at the store. -/
def apply (s : Store κ ν) (w : Write ν) : Store κ ν := fun k =>
  if key w.row = k then merge (s k) w else s k

def applyAll (s : Store κ ν) (ws : List (Write ν)) : Store κ ν := ws.foldl (apply key) s

/-- The store without rows. -/
def emptyStore : Store κ ν := fun _ => none

/-- The row that the store holds under a key. -/
def rowAt (s : Store κ ν) (k : κ) : Option ν := (s k).map Write.row

theorem applyAll_append (s : Store κ ν) (ws more : List (Write ν)) :
    applyAll key s (ws ++ more) = applyAll key (applyAll key s ws) more :=
  List.foldl_append

/-- A cell is changed by the writes of its key only. -/
theorem applyAll_cell (s : Store κ ν) (ws : List (Write ν)) (k : κ) :
    applyAll key s ws k = (group (fun w => key w.row) k ws).foldl merge (s k) := by
  induction ws generalizing s with
  | nil => rfl
  | cons w ws ih =>
    rw [applyAll, List.foldl_cons, ← applyAll, ih, Grouping.group_cons]
    by_cases h : key w.row = k <;> simp [apply, h]

/-- **A cell ends with the largest stamp.**  What a cell holds after any writes
    is one of them or what it held before, and nothing that came to it has a
    larger stamp. -/
theorem foldl_merge_spec (cell : Option (Write ν)) (ws : List (Write ν)) :
    match ws.foldl merge cell with
    | none => cell = none ∧ ws = []
    | some w => (w ∈ ws ∨ cell = some w) ∧ (∀ w' ∈ ws, w'.stamp ≤ w.stamp) ∧
        ∀ old, cell = some old → old.stamp ≤ w.stamp := by
  induction ws generalizing cell with
  | nil =>
    cases cell with
    | none => exact ⟨rfl, rfl⟩
    | some old => simp
  | cons w ws ih =>
    have hmerge : ∃ w₁, merge cell w = some w₁ ∧ (w₁ = w ∨ cell = some w₁) ∧
        w.stamp ≤ w₁.stamp ∧ ∀ old, cell = some old → old.stamp ≤ w₁.stamp := by
      cases cell with
      | none => exact ⟨w, rfl, Or.inl rfl, le_refl _, by simp⟩
      | some old =>
        by_cases h : old.stamp ≤ w.stamp
        · refine ⟨w, by simp [merge, h], Or.inl rfl, le_refl _, ?_⟩
          intro old' hold
          cases hold
          exact h
        · refine ⟨old, by simp [merge, h], Or.inr rfl, by omega, ?_⟩
          intro old' hold
          cases hold
          exact le_refl _
    obtain ⟨w₁, hw₁, hfrom, hle, hold⟩ := hmerge
    rw [List.foldl_cons, hw₁]
    have hrest := ih (some w₁)
    cases hres : ws.foldl merge (some w₁) with
    | none =>
      rw [hres] at hrest
      cases hrest.1
    | some res =>
      rw [hres] at hrest
      obtain ⟨hmem, hmax, hprev⟩ := hrest
      have hle₁ : w₁.stamp ≤ res.stamp := hprev w₁ rfl
      refine ⟨?_, ?_, ?_⟩
      · rcases hmem with hmem | hmem
        · exact Or.inl (List.mem_cons_of_mem _ hmem)
        · cases hmem
          rcases hfrom with rfl | hcell
          · exact Or.inl List.mem_cons_self
          · exact Or.inr hcell
      · intro w' hw'
        rcases List.mem_cons.mp hw' with rfl | hw'
        · exact le_trans hle hle₁
        · exact hmax w' hw'
      · intro old hcell
        exact le_trans (hold old hcell) hle₁

/-- What the store holds under a key after any writes. -/
theorem applyAll_spec (s : Store κ ν) (ws : List (Write ν)) (k : κ) :
    match applyAll key s ws k with
    | none => s k = none ∧ ∀ w ∈ ws, key w.row ≠ k
    | some w => ((w ∈ ws ∧ key w.row = k) ∨ s k = some w) ∧
        (∀ w' ∈ ws, key w'.row = k → w'.stamp ≤ w.stamp) ∧
        ∀ old, s k = some old → old.stamp ≤ w.stamp := by
  have hspec := foldl_merge_spec (s k) (group (fun w => key w.row) k ws)
  rw [← applyAll_cell] at hspec
  cases hcell : applyAll key s ws k with
  | none =>
    rw [hcell] at hspec
    refine ⟨hspec.1, ?_⟩
    intro w hw hkey
    have hmem : w ∈ group (fun w => key w.row) k ws := (Grouping.mem_group _).mpr ⟨hw, hkey⟩
    rw [hspec.2] at hmem
    cases hmem
  | some w =>
    rw [hcell] at hspec
    obtain ⟨hfrom, hmax, hold⟩ := hspec
    refine ⟨hfrom.imp_left (Grouping.mem_group _).mp, ?_, hold⟩
    intro w' hw' hkey
    exact hmax w' ((Grouping.mem_group _).mpr ⟨hw', hkey⟩)

/-- A store that was empty holds arrived writes, each under its key. -/
theorem applyAll_emptyStore {ws : List (Write ν)} {k : κ} {w : Write ν}
    (h : applyAll key emptyStore ws k = some w) : w ∈ ws ∧ key w.row = k := by
  have hspec := applyAll_spec key emptyStore ws k
  rw [h] at hspec
  rcases hspec.1 with hmem | hmem
  · exact hmem
  · cases hmem

/-! ### Issued rows -/

/-- The writes of a writer that issues `rows` in order, from stamp `base` on. -/
def stampFrom (base : ℕ) (rows : List ν) : List (Write ν) :=
  (rows.zipIdx base).map fun entry => ⟨entry.2, entry.1⟩

theorem mem_stampFrom {base : ℕ} {rows : List ν} {w : Write ν} :
    w ∈ stampFrom base rows ↔ ∃ i, w.stamp = base + i ∧ rows[i]? = some w.row := by
  obtain ⟨stamp, row⟩ := w
  simp only [stampFrom, List.mem_map, Prod.exists, Write.mk.injEq]
  constructor
  · rintro ⟨row', stamp', hmem, rfl, rfl⟩
    obtain ⟨hle, hget⟩ := List.mem_zipIdx_iff_le_and_getElem?_sub.mp hmem
    exact ⟨stamp' - base, by simp only at hle ⊢; omega, hget⟩
  · rintro ⟨i, rfl, hget⟩
    refine ⟨row, base + i, ?_, rfl, rfl⟩
    rw [List.mem_zipIdx_iff_le_and_getElem?_sub]
    exact ⟨Nat.le_add_right base i, by simpa using hget⟩

/-- Later stamps belong to later rows. -/
theorem rel_of_stamp_le {base : ℕ} {rows : List ν} {r : ν → ν → Prop} (hr : rows.Pairwise r)
    {w w' : Write ν} (hw : w ∈ stampFrom base rows) (hw' : w' ∈ stampFrom base rows)
    (hle : w.stamp ≤ w'.stamp) : w.row = w'.row ∨ r w.row w'.row := by
  obtain ⟨i, hi, hget⟩ := mem_stampFrom.mp hw
  obtain ⟨j, hj, hget'⟩ := mem_stampFrom.mp hw'
  obtain ⟨hilt, hrow⟩ := List.getElem?_eq_some_iff.mp hget
  obtain ⟨hjlt, hrow'⟩ := List.getElem?_eq_some_iff.mp hget'
  by_cases hij : i = j
  · subst hij
    exact Or.inl (hrow.symm.trans hrow')
  · have hlt : i < j := by omega
    rw [← hrow, ← hrow']
    exact Or.inr (List.pairwise_iff_getElem.mp hr i j hilt hjlt hlt)

/-- The last write of a key is stamped after every other write of the key. -/
theorem exists_last_write (base : ℕ) {rows : List ν} {k : κ} {row : ν}
    (h : lastFor key rows k = some row) :
    ∃ w ∈ stampFrom base rows, w.row = row ∧
      ∀ w' ∈ stampFrom base rows, key w'.row = k → w'.stamp ≤ w.stamp := by
  induction rows using List.reverseRecOn with
  | nil => cases h
  | append_singleton rows last ih =>
    have hmem : ∀ w', w' ∈ stampFrom base (rows ++ [last]) ↔
        w' ∈ stampFrom base rows ∨ w' = ⟨base + rows.length, last⟩ := by
      intro w'
      simp [stampFrom, List.zipIdx_append]
    rw [lastFor_append] at h
    by_cases hkey : key last = k
    · have hlast : lastFor key [last] k = some last := by simp [lastFor, group, hkey]
      rw [hlast, Option.some_or, Option.some.injEq] at h
      subst h
      refine ⟨⟨base + rows.length, last⟩, (hmem _).mpr (Or.inr rfl), rfl, ?_⟩
      intro w' hw' _
      obtain ⟨i, hi, hget⟩ := mem_stampFrom.mp hw'
      have hlt := (List.getElem?_eq_some_iff.mp hget).1
      rw [List.length_append, List.length_singleton] at hlt
      simp only [hi]
      omega
    · have hlast : lastFor key [last] k = none := by simp [lastFor, group, hkey]
      rw [hlast, Option.none_or] at h
      obtain ⟨w, hw, hrow, hmax⟩ := ih h
      refine ⟨w, (hmem w).mpr (Or.inl hw), hrow, ?_⟩
      intro w' hw' hkey'
      rcases (hmem w').mp hw' with hw' | rfl
      · exact hmax w' hw' hkey'
      · exact absurd hkey' hkey

/-! ### Everything arrives -/

/-- Every write of `rows`, issued from stamp `base` on, has arrived at the store
    `before`, in some order; what `before` held is older. -/
structure Drained (base : ℕ) (rows : List ν) (before after : Store κ ν) : Prop where
  older : ∀ k w, before k = some w → w.stamp < base
  arrived : ∃ ws, ws.Perm (stampFrom base rows) ∧ after = applyAll key before ws

theorem drained_emptyStore {base : ℕ} {rows : List ν} {ws : List (Write ν)}
    (hws : ws.Perm (stampFrom base rows)) :
    Drained key base rows emptyStore (applyAll key emptyStore ws) where
  older := by
    intro k w hw
    cases hw
  arrived := ⟨ws, hws, rfl⟩

/-- **The last issued row of every key wins**, whatever the order of arrival and
    whatever the store held before. -/
theorem Drained.rowAt_eq {base : ℕ} {rows : List ν} {before after : Store κ ν}
    (h : Drained key base rows before after) (k : κ) :
    rowAt after k = (lastFor key rows k).or (rowAt before k) := by
  obtain ⟨ws, hperm, rfl⟩ := h.arrived
  cases hlast : lastFor key rows k with
  | none =>
    have hnil : group (fun w : Write ν => key w.row) k ws = [] := by
      rw [group, List.filter_eq_nil_iff]
      intro w hw hkey
      obtain ⟨i, _, hget⟩ := mem_stampFrom.mp (hperm.mem_iff.mp hw)
      exact (lastFor_eq_none_iff key).mp hlast w.row (List.mem_of_getElem? hget)
        (of_decide_eq_true hkey)
    rw [rowAt, applyAll_cell, hnil, Option.none_or]
    rfl
  | some row =>
    obtain ⟨w, hw, rfl, hmax⟩ := exists_last_write key base hlast
    have hkey := (mem_of_lastFor key hlast).2
    have hspec := applyAll_spec key before ws k
    cases hcell : applyAll key before ws k with
    | none =>
      rw [hcell] at hspec
      exact absurd hkey (hspec.2 w (hperm.mem_iff.mpr hw))
    | some res =>
      rw [hcell] at hspec
      obtain ⟨hfrom, hbound, hold⟩ := hspec
      have hle : w.stamp ≤ res.stamp := hbound w (hperm.mem_iff.mpr hw) hkey
      have hres : res ∈ stampFrom base rows ∧ key res.row = k := by
        rcases hfrom with ⟨hmem, hkey'⟩ | hfrom
        · exact ⟨hperm.mem_iff.mp hmem, hkey'⟩
        · -- a row of the old store is older than every write
          obtain ⟨i, hi, _⟩ := mem_stampFrom.mp hw
          have hlt := h.older k res hfrom
          omega
      have heq : res.stamp = w.stamp := le_antisymm (hmax res hres.1 hres.2) hle
      obtain ⟨i, hi, hget⟩ := mem_stampFrom.mp hw
      obtain ⟨j, hj, hget'⟩ := mem_stampFrom.mp hres.1
      obtain rfl : i = j := by omega
      rw [hget, Option.some.injEq] at hget'
      rw [rowAt, hcell, Option.map_some, Option.some_or, hget']

/-- A store that was older than the writes before they arrived is older than
    the writes issued next. -/
theorem Drained.again {base : ℕ} {rows more : List ν} {before after : Store κ ν}
    (h : Drained key base rows before after) {ws : List (Write ν)}
    (hws : ws.Perm (stampFrom (base + rows.length) more)) :
    Drained key (base + rows.length) more after (applyAll key after ws) where
  older := by
    obtain ⟨arrived, hperm, rfl⟩ := h.arrived
    intro k w hw
    have hspec := applyAll_spec key before arrived k
    rw [hw] at hspec
    rcases hspec.1 with ⟨hmem, _⟩ | hmem
    · obtain ⟨i, hi, hget⟩ := mem_stampFrom.mp (hperm.mem_iff.mp hmem)
      have hlt := (List.getElem?_eq_some_iff.mp hget).1
      omega
    · have hlt := h.older k w hmem
      omega
  arrived := ⟨ws, hws, rfl⟩

/-! ### Some writes arrive -/

/-- A store that was empty holds issued rows, each under its key. -/
theorem rowAt_mem {base : ℕ} {rows : List ν} {ws : List (Write ν)}
    (hws : ∀ w ∈ ws, w ∈ stampFrom base rows) {k : κ} {row : ν}
    (h : rowAt (applyAll key emptyStore ws) k = some row) : row ∈ rows ∧ key row = k := by
  obtain ⟨w, hw, rfl⟩ := Option.map_eq_some_iff.mp h
  obtain ⟨hmem, hkey⟩ := applyAll_emptyStore key hw
  obtain ⟨i, _, hget⟩ := mem_stampFrom.mp (hws w hmem)
  exact ⟨List.mem_of_getElem? hget, hkey⟩

/-- **A cell only moves on.**  When more writes arrive, a cell keeps its row or
    takes one that was issued later. -/
theorem rowAt_mono {base : ℕ} {rows : List ν} {r : ν → ν → Prop} (hr : rows.Pairwise r)
    {ws more : List (Write ν)} (hws : ∀ w ∈ ws ++ more, w ∈ stampFrom base rows) {k : κ} {row : ν}
    (h : rowAt (applyAll key emptyStore ws) k = some row) :
    ∃ row', rowAt (applyAll key emptyStore (ws ++ more)) k = some row' ∧
      (row = row' ∨ r row row') := by
  obtain ⟨w, hw, rfl⟩ := Option.map_eq_some_iff.mp h
  have hstamp : w ∈ stampFrom base rows :=
    hws w (List.mem_append_left _ (applyAll_emptyStore key hw).1)
  have hspec := applyAll_spec key (applyAll key emptyStore ws) more k
  rw [← applyAll_append, hw] at hspec
  cases hw' : applyAll key emptyStore (ws ++ more) k with
  | none =>
    rw [hw'] at hspec
    cases hspec.1
  | some w' =>
    have hstamp' : w' ∈ stampFrom base rows := hws w' (applyAll_emptyStore key hw').1
    rw [hw'] at hspec
    refine ⟨w'.row, by rw [rowAt, hw', Option.map_some], ?_⟩
    exact rel_of_stamp_le hr hstamp hstamp' (hspec.2.2 w rfl)

/-! ### Writes of the past -/

/-- Of two writes the older one may as well arrive first. -/
theorem apply_comm_of_lt {w w' : Write ν} (h : w.stamp < w'.stamp) (s : Store κ ν) :
    apply key (apply key s w) w' = apply key (apply key s w') w := by
  have hmerge : ∀ cell : Option (Write ν), merge (merge cell w) w' = merge (merge cell w') w := by
    intro cell
    cases cell with
    | none => simp only [merge, if_pos h.le, if_neg h.not_ge]
    | some old =>
      by_cases hold : old.stamp ≤ w.stamp
      · simp only [merge, if_pos hold, if_pos h.le, if_pos (hold.trans h.le), if_neg h.not_ge]
      · by_cases hold' : old.stamp ≤ w'.stamp
        · simp only [merge, if_neg hold, if_pos hold', if_neg h.not_ge]
        · simp only [merge, if_neg hold, if_neg hold']
  funext k
  by_cases hw : key w.row = k <;> by_cases hw' : key w'.row = k <;> simp [apply, hw, hw', hmerge]

theorem applyAll_apply_of_lt {w : Write ν} {ws : List (Write ν)}
    (h : ∀ w' ∈ ws, w.stamp < w'.stamp) (s : Store κ ν) :
    applyAll key (apply key s w) ws = apply key (applyAll key s ws) w := by
  induction ws generalizing s with
  | nil => rfl
  | cons w' ws ih =>
    change applyAll key (apply key (apply key s w) w') ws = _
    rw [apply_comm_of_lt key (h w' List.mem_cons_self),
      ih fun w'' hw'' => h w'' (List.mem_cons_of_mem _ hw'')]
    rfl

/-- **Writes of the past**: whenever they arrive, it is as if they had arrived first. -/
theorem applyAll_past_first (base : ℕ) (s : Store κ ν) (ws : List (Write ν)) :
    applyAll key s ws =
      applyAll key (applyAll key s (ws.filter fun w => w.stamp < base))
        (ws.filter fun w => base ≤ w.stamp) := by
  induction ws using List.reverseRecOn with
  | nil => rfl
  | append_singleton ws w ih =>
    rw [applyAll_append, ih, List.filter_append, List.filter_append]
    by_cases hw : w.stamp < base
    · have hnone : [w].filter (fun w => base ≤ w.stamp) = [] := by simp [hw]
      rw [List.filter_cons_of_pos (by simpa using hw), List.filter_nil, hnone, List.append_nil,
        applyAll_append]
      refine (applyAll_apply_of_lt key (fun w' hw' => ?_) _).symm
      exact hw.trans_le (of_decide_eq_true (List.mem_filter.mp hw').2)
    · have hnone : [w].filter (fun w => w.stamp < base) = [] := by simpa using hw
      rw [hnone, List.append_nil, List.filter_cons_of_pos (by simpa using hw), List.filter_nil,
        applyAll_append]

/-! ### Missing writes -/

/-- Issued writes have their row from their stamp. -/
theorem row_eq_of_stamp {base : ℕ} {rows : List ν} {w : Write ν} (h : w ∈ stampFrom base rows)
    {i : ℕ} {row : ν} (hrow : rows[i]? = some row) (hstamp : w.stamp = base + i) : w.row = row := by
  obtain ⟨j, hj, hget⟩ := mem_stampFrom.mp h
  obtain rfl : i = j := by omega
  rw [hrow, Option.some.injEq] at hget
  exact hget.symm

/-- **A cell is up to date but for missing writes.**  It holds what it would if
    exactly the first `j` rows had arrived, and every later row of its key is
    missing. -/
theorem exists_cut {base : ℕ} {rows : List ν} {ws : List (Write ν)} {before : Store κ ν}
    (holder : ∀ k w, before k = some w → w.stamp < base)
    (hws : ∀ w ∈ ws, w ∈ stampFrom base rows) (k : κ) :
    ∃ j, rowAt (applyAll key before ws) k = (lastFor key (rows.take j) k).or (rowAt before k) ∧
      ∀ i row, j ≤ i → rows[i]? = some row → key row = k → base + i ∉ ws.map Write.stamp := by
  by_cases hne : ∀ w ∈ ws, key w.row ≠ k
  · have hnil : group (fun w : Write ν => key w.row) k ws = [] := by
      rw [group, List.filter_eq_nil_iff]
      intro w hw hkey
      exact hne w hw (of_decide_eq_true hkey)
    refine ⟨0, ?_, ?_⟩
    · rw [rowAt, applyAll_cell, hnil]
      rfl
    · intro i row _ hrow hkey hstamp
      obtain ⟨w, hw, hstamp⟩ := List.mem_map.mp hstamp
      exact hne w hw (by rw [row_eq_of_stamp (hws w hw) hrow hstamp, hkey])
  · push Not at hne
    obtain ⟨w₀, hw₀, hkey₀⟩ := hne
    have hspec := applyAll_spec key before ws k
    cases hcell : applyAll key before ws k with
    | none =>
      rw [hcell] at hspec
      exact absurd hkey₀ (hspec.2 w₀ hw₀)
    | some w =>
      rw [hcell] at hspec
      obtain ⟨hfrom, hmax, _⟩ := hspec
      have hw : w ∈ ws ∧ key w.row = k := by
        rcases hfrom with hmem | hbefore
        · exact hmem
        · -- what was there before is older than the write that has arrived
          obtain ⟨i, hi, _⟩ := mem_stampFrom.mp (hws w₀ hw₀)
          have hle := hmax w₀ hw₀ hkey₀
          have hlt := holder k w hbefore
          omega
      obtain ⟨j, hj, hget⟩ := mem_stampFrom.mp (hws w hw.1)
      refine ⟨j + 1, ?_, ?_⟩
      · have hlast : lastFor key (rows.take (j + 1)) k = some w.row := by
          rw [List.take_add_one, hget, Option.toList_some, lastFor, Grouping.group_snoc, if_pos hw.2]
          exact List.getLast?_concat
        rw [rowAt, hcell, hlast]
        rfl
      · intro i row hi hrow hkey hstamp
        obtain ⟨w', hw', hstamp⟩ := List.mem_map.mp hstamp
        have hle := hmax w' hw' (by rw [row_eq_of_stamp (hws w' hw') hrow hstamp, hkey])
        omega

/-- The position of the last row of a key. -/
theorem exists_last_index {rows : List ν} {k : κ} {row : ν} (h : lastFor key rows k = some row) :
    ∃ i : ℕ, rows[i]? = some row ∧
      ∀ (i' : ℕ) (row' : ν), i < i' → rows[i']? = some row' → key row' ≠ k := by
  obtain ⟨w, hw, rfl, hmax⟩ := exists_last_write key 0 h
  obtain ⟨i, hi, hget⟩ := mem_stampFrom.mp hw
  refine ⟨i, hget, fun i' row' hlt hget' hkey => ?_⟩
  have hle := hmax ⟨0 + i', row'⟩ (mem_stampFrom.mpr ⟨i', rfl, hget'⟩) hkey
  simp only at hle
  omega

theorem lastFor_of_last {rows : List ν} {i : ℕ} {row : ν} (hget : rows[i]? = some row)
    (hlast : ∀ (i' : ℕ) (row' : ν), i < i' → rows[i']? = some row' → key row' ≠ key row) :
    lastFor key rows (key row) = some row := by
  obtain ⟨hi, hrow⟩ := List.getElem?_eq_some_iff.mp hget
  have hsplit : rows = rows.take i ++ [row] ++ rows.drop (i + 1) := by
    rw [← hrow, List.append_assoc, List.singleton_append, ← List.drop_eq_getElem_cons hi,
      List.take_append_drop]
  have hrest : ∀ row' ∈ rows.drop (i + 1), key row' ≠ key row := by
    intro row' hrow'
    obtain ⟨n, hn⟩ := List.getElem?_of_mem hrow'
    rw [List.getElem?_drop] at hn
    exact hlast (i + 1 + n) row' (by omega) hn
  rw [hsplit, lastFor_append_of_ne key hrest, lastFor, Grouping.group_snoc, if_pos rfl]
  exact List.getLast?_concat

/-- **A last write is final**: once it has arrived, the cell holds its row. -/
theorem rowAt_of_last {base : ℕ} {rows : List ν} {ws : List (Write ν)} {before : Store κ ν}
    (holder : ∀ k w, before k = some w → w.stamp < base)
    (hws : ∀ w ∈ ws, w ∈ stampFrom base rows) {i : ℕ} {row : ν} (hget : rows[i]? = some row)
    (hlast : ∀ (i' : ℕ) (row' : ν), i < i' → rows[i']? = some row' → key row' ≠ key row)
    (harrived : base + i ∈ ws.map Write.stamp) :
    rowAt (applyAll key before ws) (key row) = some row := by
  obtain ⟨j, hrow, hmissing⟩ := exists_cut key holder hws (key row)
  have hij : i < j := not_le.mp fun hle => hmissing i row hle hget rfl harrived
  have hget' : (rows.take j)[i]? = some row := by rw [List.getElem?_take_of_lt hij, hget]
  have htake : lastFor key (rows.take j) (key row) = some row := by
    refine lastFor_of_last key hget' fun i' row' hlt hrow' => ?_
    rw [List.getElem?_take] at hrow'
    split at hrow'
    · exact hlast i' row' hlt hrow'
    · cases hrow'
  rw [hrow, htake, Option.some_or]

/-- The rows of a key from row `j` on, counted by their positions. -/
theorem length_group_drop_le {rows : List ν} {k : κ} {j : ℕ} {p : ℕ → Prop} [DecidablePred p]
    (h : ∀ i row, j ≤ i → rows[i]? = some row → key row = k → p i) :
    (group key k (rows.drop j)).length ≤
      rows.zipIdx.countP fun entry => key entry.1 = k ∧ p entry.2 := by
  have hrest : rows.drop j = ((rows.zipIdx).drop j).map Prod.fst := by
    rw [List.map_drop, List.zipIdx_map_fst]
  rw [hrest, group, ← List.countP_eq_length_filter, List.countP_map]
  refine le_trans (List.countP_mono_left ?_) (List.drop_sublist j rows.zipIdx).countP_le
  rintro ⟨row, i⟩ hmem hkey
  obtain ⟨n, hn, hget⟩ := List.mem_drop_iff_getElem.mp hmem
  rw [List.getElem_zipIdx, Nat.zero_add, Prod.mk.injEq] at hget
  obtain ⟨hrow, rfl⟩ := hget
  simp only [Function.comp_apply, decide_eq_true_eq] at hkey ⊢
  exact ⟨hkey, h _ row (Nat.le_add_right j n) (List.getElem?_eq_some_iff.mpr ⟨_, hrow⟩) hkey⟩

end LastWriter
