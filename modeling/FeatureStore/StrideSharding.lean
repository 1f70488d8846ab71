/-
  FeatureStore/StrideSharding.lean
  ================================
  **Every row is loaded by one worker.**

  Each worker of the load generator, and each write blaster, scans all the files
  and keeps every row whose running index falls to it.  The loops are the stride
  of the concatenated files (`rows_load`, `blasterRows_eq`), so the lists that the
  workers load are a sharding of it.
-/
import FeatureStore.Loadgen
import FeatureStore.Stride

namespace FeatureStore

open Stride (stride strideFrom strideFrom_cons map_strideFrom Sharding sharding_stride)

/-- The entry of `rows` that is made of a row. -/
def loadRow (row : RawRow) : BlastRow := BlastRow.load row.fill

theorem Loading.step_eq (wid procs : ℕ) (self : Loading) (row : RawRow) :
    (step wid procs self row).gi = self.gi + 1 ∧
    (step wid procs self row).rows =
      if self.gi % procs = wid then self.rows ++ [loadRow row] else self.rows := by
  unfold step
  by_cases h : self.gi % procs = wid
  · simp only [if_pos h]
    split <;> exact ⟨rfl, rfl⟩
  · simp only [if_neg h]
    exact ⟨trivial, trivial⟩

/-- **The loop over any rows.** -/
theorem Loading.rows_foldl (wid procs : ℕ) (self : Loading) (rows : List RawRow) :
    (rows.foldl (step wid procs) self).rows =
      self.rows ++ strideFrom procs wid self.gi (rows.map loadRow) := by
  induction rows generalizing self with
  | nil => exact (List.append_nil _).symm
  | cons row rows ih =>
    obtain ⟨hgi, hrows⟩ := step_eq wid procs self row
    rw [List.foldl_cons, ih, hgi, hrows, List.map_cons, strideFrom_cons]
    split
    · rw [List.append_assoc, List.singleton_append]
    · rfl

theorem rows_load (wid procs : ℕ) (files : List (List RawRow)) :
    (load wid procs files).rows = stride procs wid (files.flatten.map loadRow) := by
  rw [load, ← List.foldl_flatten, Loading.rows_foldl, List.nil_append]
  rfl

theorem blasterRows_eq (wid nblast : ℕ) (files : List (List RawRow)) :
    blasterRows wid nblast (files.map fun file => file.map RawRow.fill) =
      stride nblast wid (files.flatten.map loadRow) := by
  have hflat : (files.map fun file => file.map RawRow.fill).flatten =
      files.flatten.map RawRow.fill := List.map_flatten.symm
  have hload : files.flatten.map loadRow = (files.flatten.map RawRow.fill).map BlastRow.load := by
    rw [List.map_map]
    rfl
  rw [blasterRows, hflat, hload, stride, map_strideFrom, strideFrom, List.map_map]
  rfl

/-- **Stride sharding is a balanced exact partition.**  The lists that workers
    `0` to `procs - 1` load are the shares of all rows of all files, for the load
    generator and for the write blasters. -/
theorem stride_sharding (files : List (List RawRow)) (procs : ℕ) (h : 1 ≤ procs) :
    Sharding procs (fun wid => (load wid procs files).rows) (files.flatten.map loadRow) ∧
    Sharding procs
      (fun wid => blasterRows wid procs (files.map fun file => file.map RawRow.fill))
      (files.flatten.map loadRow) := by
  constructor
  · simpa only [rows_load] using sharding_stride h (files.flatten.map loadRow)
  · simpa only [blasterRows_eq] using sharding_stride h (files.flatten.map loadRow)

/-- Two workers, and three rows in two files. -/
theorem stride_sharding_two_workers :
    let row := fun (coin : String) => (⟨"v", coin, 1, 1, .B, 0, none, none⟩ : RawRow)
    let files := [[row "A"], [], [row "B", row "C"]]
    Stride.roundRobin [(load 0 2 files).rows, (load 1 2 files).rows] =
      [loadRow (row "A"), loadRow (row "B"), loadRow (row "C")] :=
  (stride_sharding _ 2 (by decide)).1.interleaved

end FeatureStore
