/-
  FeatureStore/Clustered.lean
  ===========================
  **Tables with a clustering column.**

  A partition keeps its cells in the descending order of a clustering column,
  one cell for each position.  A write goes to the cell of its position and wins
  there by its stamp, as in `LastWriter`; the first row of a partition is the one
  at its greatest position.

    * Cell by cell, a clustered table is a last-writer-wins store
      (`get?_applyAll`), so that what is known of such stores holds of it.
    * The first row of a partition only moves to greater positions
      (`first?_applyAll`).

  Nothing in this file depends on what the rows and columns are.
-/
import FeatureStore.Dict
import FeatureStore.LastWriter

universe u v w

namespace Clustered

open LastWriter (merge emptyStore rowAt)

variable {γ : Type u} [LinearOrder γ] {ν : Type v}

/-! ### Partitions -/

/-- The cells of a partition, each under its position. -/
structure Partition (γ : Type u) [LinearOrder γ] (ν : Type v) where
  cells : List (γ × Write ν)
  sorted : cells.Pairwise fun cell cell' => cell'.1 < cell.1

/-- A write arrives at a position. -/
def upsertCells (c : γ) (w : Write ν) : List (γ × Write ν) → List (γ × Write ν)
  | [] => [(c, w)]
  | (d, old) :: rest =>
      if d < c then (c, w) :: (d, old) :: rest
      else if d = c then (d, if old.stamp ≤ w.stamp then w else old) :: rest
      else (d, old) :: upsertCells c w rest

theorem mem_upsertCells {c : γ} {w : Write ν} {cells : List (γ × Write ν)} {cell : γ × Write ν}
    (h : cell ∈ upsertCells c w cells) : cell.1 = c ∨ cell ∈ cells := by
  induction cells with
  | nil =>
    rw [List.mem_singleton.mp h]
    exact Or.inl rfl
  | cons head rest ih =>
    obtain ⟨d, old⟩ := head
    unfold upsertCells at h
    split at h
    · rcases List.mem_cons.mp h with rfl | h
      · exact Or.inl rfl
      · exact Or.inr h
    · split at h
      · rename_i heq
        rcases List.mem_cons.mp h with rfl | h
        · exact Or.inl heq
        · exact Or.inr (List.mem_cons_of_mem _ h)
      · rcases List.mem_cons.mp h with rfl | h
        · exact Or.inr List.mem_cons_self
        · exact (ih h).imp_right (List.mem_cons_of_mem _)

theorem sorted_upsertCells (c : γ) (w : Write ν) {cells : List (γ × Write ν)}
    (h : cells.Pairwise fun cell cell' => cell'.1 < cell.1) :
    (upsertCells c w cells).Pairwise fun cell cell' => cell'.1 < cell.1 := by
  induction cells with
  | nil => exact List.pairwise_singleton _ _
  | cons head rest ih =>
    obtain ⟨d, old⟩ := head
    obtain ⟨hhead, hrest⟩ := List.pairwise_cons.mp h
    unfold upsertCells
    split
    · rename_i hlt
      refine List.pairwise_cons.mpr ⟨?_, h⟩
      intro cell hcell
      rcases List.mem_cons.mp hcell with rfl | hcell
      · exact hlt
      · exact (hhead cell hcell).trans hlt
    · rename_i hlt
      split
      · exact List.pairwise_cons.mpr ⟨hhead, hrest⟩
      · rename_i hne
        refine List.pairwise_cons.mpr ⟨?_, ih hrest⟩
        intro cell hcell
        rcases mem_upsertCells hcell with hpos | hcell
        · exact hpos ▸ lt_of_le_of_ne (not_lt.mp hlt) (Ne.symm hne)
        · exact hhead cell hcell

namespace Partition

def empty : Partition γ ν := ⟨[], List.Pairwise.nil⟩

def upsert (p : Partition γ ν) (c : γ) (w : Write ν) : Partition γ ν :=
  ⟨upsertCells c w p.cells, sorted_upsertCells c w p.sorted⟩

/-- The cell at a position. -/
def get? (p : Partition γ ν) (c : γ) : Option (Write ν) := Dict.lookupItems c p.cells

/-- The first row in the order of the partition. -/
def first? (p : Partition γ ν) : Option ν := p.cells.head?.map fun cell => cell.2.row

theorem positions_nodup (p : Partition γ ν) : (p.cells.map Prod.fst).Nodup := by
  rw [List.nodup_iff_pairwise_ne, List.pairwise_map]
  exact p.sorted.imp fun hlt => ne_of_gt hlt

theorem get?_eq_some_iff {p : Partition γ ν} {c : γ} {w : Write ν} :
    p.get? c = some w ↔ (c, w) ∈ p.cells :=
  Dict.lookupItems_eq_some_iff p.positions_nodup

/-- **A write goes to its cell**, and leaves the others alone. -/
theorem get?_upsert (p : Partition γ ν) (c c' : γ) (w : Write ν) :
    (p.upsert c w).get? c' = if c = c' then merge (p.get? c') w else p.get? c' := by
  obtain ⟨cells, hsorted⟩ := p
  change Dict.lookupItems c' (upsertCells c w cells) =
    if c = c' then merge (Dict.lookupItems c' cells) w else Dict.lookupItems c' cells
  induction cells with
  | nil =>
    by_cases hc : c = c' <;> simp [upsertCells, Dict.lookupItems, merge, hc]
  | cons head rest ih =>
    obtain ⟨d, old⟩ := head
    obtain ⟨hhead, hrest⟩ := List.pairwise_cons.mp hsorted
    have htail := ih hrest
    by_cases hlt : d < c
    · -- a new greatest position: there is no cell for it yet
      have hnone : Dict.lookupItems c ((d, old) :: rest) = none := by
        rw [Dict.lookupItems_eq_none_iff, List.mem_map]
        rintro ⟨cell, hcell, rfl⟩
        rcases List.mem_cons.mp hcell with rfl | hcell
        · exact lt_irrefl _ hlt
        · exact lt_asymm hlt (hhead cell hcell)
      by_cases hc : c = c'
      · subst hc
        rw [if_pos rfl, hnone, upsertCells, if_pos hlt, Dict.lookupItems, if_pos rfl]
        rfl
      · rw [if_neg hc, upsertCells, if_pos hlt, Dict.lookupItems, if_neg hc]
    · by_cases hd : d = c
      · subst hd
        rw [upsertCells, if_neg hlt, if_pos rfl, Dict.lookupItems, Dict.lookupItems]
        by_cases hc : d = c'
        · rw [if_pos hc, if_pos hc, if_pos hc, merge]
          split <;> rfl
        · rw [if_neg hc, if_neg hc, if_neg hc]
      · rw [upsertCells, if_neg hlt, if_neg hd, Dict.lookupItems, Dict.lookupItems, htail]
        by_cases hc : d = c'
        · subst hc
          rw [if_pos rfl, if_neg (Ne.symm hd)]
          simp
        · rw [if_neg hc, if_neg hc]

/-- **The first row is the one at the greatest position.** -/
theorem first?_eq_some_iff {p : Partition γ ν} {row : ν} :
    p.first? = some row ↔
      ∃ c w, p.get? c = some w ∧ w.row = row ∧ ∀ c' w', p.get? c' = some w' → c' ≤ c := by
  obtain ⟨cells, hsorted⟩ := p
  simp only [get?_eq_some_iff, first?]
  cases cells with
  | nil => simp
  | cons head rest =>
    obtain ⟨hhead, _⟩ := List.pairwise_cons.mp hsorted
    rw [List.head?_cons, Option.map_some, Option.some.injEq]
    constructor
    · rintro rfl
      refine ⟨head.1, head.2, List.mem_cons_self, rfl, ?_⟩
      intro c' w' hmem
      rcases List.mem_cons.mp hmem with rfl | hmem
      · exact le_refl _
      · exact le_of_lt (hhead _ hmem)
    · rintro ⟨c, w, hmem, rfl, hmax⟩
      rcases List.mem_cons.mp hmem with rfl | hmem
      · rfl
      · exact absurd (hhead _ hmem) (not_lt.mpr (hmax head.1 head.2 List.mem_cons_self))

theorem exists_first? {p : Partition γ ν} {c : γ} {w : Write ν} (h : p.get? c = some w) :
    ∃ row, p.first? = some row := by
  obtain ⟨cells, hsorted⟩ := p
  cases cells with
  | nil => cases h
  | cons head rest => exact ⟨head.2.row, rfl⟩

end Partition

/-! ### Tables -/

variable {π : Type w} [DecidableEq π]

/-- A table: the partition of every partition key. -/
abbrev Table (π : Type w) (γ : Type u) [LinearOrder γ] (ν : Type v) := π → Partition γ ν

/-- The table without rows. -/
def emptyTable : Table π γ ν := fun _ => Partition.empty

variable (place : ν → Option (π × γ))

/-- A write arrives at the table. `place` says where a row goes, and is `none` for
    the rows of other tables. -/
def apply (t : Table π γ ν) (w : Write ν) : Table π γ ν := fun p =>
  match place w.row with
  | none => t p
  | some (p', c) => if p' = p then (t p).upsert c w else t p

def applyAll (t : Table π γ ν) (ws : List (Write ν)) : Table π γ ν := ws.foldl (apply place) t

theorem applyAll_append (t : Table π γ ν) (ws more : List (Write ν)) :
    applyAll place t (ws ++ more) = applyAll place (applyAll place t ws) more :=
  List.foldl_append

theorem get?_apply (t : Table π γ ν) (w : Write ν) (p : π) (c : γ) :
    (apply place t w p).get? c =
      if place w.row = some (p, c) then merge ((t p).get? c) w else (t p).get? c := by
  unfold apply
  cases hplace : place w.row with
  | none => rfl
  | some pos =>
    obtain ⟨p', c'⟩ := pos
    by_cases hp : p' = p
    · subst hp
      simp only [if_true, Partition.get?_upsert, Option.some.injEq, Prod.mk.injEq, true_and]
    · have hne : ¬some (p', c') = some (p, c) := fun heq =>
        hp (Prod.mk.inj (Option.some.inj heq)).1
      simp only [if_neg hp, if_neg hne]

/-- A cell that is occupied stays so. -/
theorem exists_get?_applyAll {t : Table π γ ν} {p : π} {c : γ} {w : Write ν}
    (h : (t p).get? c = some w) (ws : List (Write ν)) :
    ∃ w', (applyAll place t ws p).get? c = some w' := by
  induction ws generalizing t w with
  | nil => exact ⟨w, h⟩
  | cons next ws ih =>
    have hstep : ∃ w', (apply place t next p).get? c = some w' := by
      rw [get?_apply, h]
      split
      · unfold merge
        simp only
        split <;> exact ⟨_, rfl⟩
      · exact ⟨w, rfl⟩
    obtain ⟨w', hw'⟩ := hstep
    exact ih hw'

/-- **The first row only moves to greater positions.** -/
theorem first?_applyAll {t : Table π γ ν} {p : π} {c : γ} {w : Write ν}
    (h : (t p).get? c = some w) (ws : List (Write ν)) :
    ∃ row c' w', (applyAll place t ws p).first? = some row ∧
      (applyAll place t ws p).get? c' = some w' ∧ w'.row = row ∧ c ≤ c' := by
  obtain ⟨w₁, hw₁⟩ := exists_get?_applyAll place h ws
  obtain ⟨row, hrow⟩ := Partition.exists_first? hw₁
  obtain ⟨c', w', hget, heq, hmax⟩ := Partition.first?_eq_some_iff.mp hrow
  exact ⟨row, c', w', hrow, hget, heq, hmax c w₁ hw₁⟩

/-! ### Tables are last-writer-wins stores -/

section Refines

variable {κ : Type*} [DecidableEq κ] {place} {key : ν → κ} {keyAt : π → γ → κ}

/-- **Cell by cell a table is a last-writer-wins store**, under any keys that
    tell its places apart. -/
theorem get?_applyAll (hplace : ∀ row p c, place row = some (p, c) ↔ key row = keyAt p c)
    (ws : List (Write ν)) (p : π) (c : γ) :
    (applyAll place emptyTable ws p).get? c =
      LastWriter.applyAll key emptyStore ws (keyAt p c) := by
  induction ws using List.reverseRecOn with
  | nil => rfl
  | append_singleton ws w ih =>
    rw [applyAll_append, LastWriter.applyAll_append]
    change (apply place _ w p).get? c = LastWriter.apply key _ w (keyAt p c)
    rw [get?_apply, LastWriter.apply, ih]
    simp only [hplace]

/-- The first row of a partition, in terms of the store. -/
theorem first?_applyAll_eq_some (hplace : ∀ row p c, place row = some (p, c) ↔ key row = keyAt p c)
    {ws : List (Write ν)} {p : π} {c : γ} {row : ν}
    (hrow : rowAt (LastWriter.applyAll key emptyStore ws) (keyAt p c) = some row)
    (hmax : ∀ c' row', rowAt (LastWriter.applyAll key emptyStore ws) (keyAt p c') = some row' →
      c' ≤ c) :
    (applyAll place emptyTable ws p).first? = some row := by
  obtain ⟨w, hw, rfl⟩ := Option.map_eq_some_iff.mp hrow
  refine Partition.first?_eq_some_iff.mpr ⟨c, w, ?_, rfl, ?_⟩
  · rw [get?_applyAll hplace, hw]
  · intro c' w' hw'
    rw [get?_applyAll hplace] at hw'
    exact hmax c' w'.row (by rw [rowAt, hw', Option.map_some])

/-- A partition is empty when the store holds nothing under its keys. -/
theorem first?_applyAll_eq_none (hplace : ∀ row p c, place row = some (p, c) ↔ key row = keyAt p c)
    {ws : List (Write ν)} {p : π}
    (hnone : ∀ c, rowAt (LastWriter.applyAll key emptyStore ws) (keyAt p c) = none) :
    (applyAll place emptyTable ws p).first? = none := by
  cases hfirst : (applyAll place emptyTable ws p).first? with
  | none => rfl
  | some row =>
    obtain ⟨c, w, hget, _⟩ := Partition.first?_eq_some_iff.mp hfirst
    have hcell := hnone c
    rw [rowAt, ← get?_applyAll hplace, hget] at hcell
    cases hcell

end Refines

end Clustered
