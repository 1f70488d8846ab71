/-
  FeatureStore/Firehose.lean
  ==========================
  **The firehose** (`day_files`, `iter_fills` and `replay` of
  `src/feature_store/replay.py`).

  A directory of day files is listed in any order, and `sort("time")` returns the
  rows of a file in one of the orders that its timestamps allow.  `iter_fills` is
  a nested loop that returns early when `max_fills` is reached; whatever the two
  loops have left is then not read.  `replay` takes the same fills through a loop
  that sleeps, whose clock readings are inputs.

  `iterFills_eq` says what the nested loop yields, and `fills_replay` that the
  paced loop yields what it is given.
-/
import FeatureStore.Replay
import Mathlib.Data.List.Perm.Basic
import Mathlib.Data.List.Sort
import Mathlib.Data.String.Basic
import Mathlib.Algebra.Order.Field.Basic
import Mathlib.Tactic.Linarith

namespace FeatureStore

/-! ### Day files -/

/-- A row of a day file, with a null where the file has one. -/
structure RawRow where
  addr : String
  coin : String
  px : ℚ
  sz : ℚ
  side : Side
  time : ℤ
  closedPnl : Option ℚ
  crossed : Option ℤ -- a boolean is an integer
deriving DecidableEq, Repr

/-- `Fill(addr, coin, px, sz, side, ts, cpnl or 0.0, bool(crossed))` -/
def RawRow.fill (row : RawRow) : Fill where
  addr := row.addr
  coin := row.coin
  px := row.px
  sz := row.sz
  side := row.side
  tsMs := row.time
  closedPnl := row.closedPnl.getD 0
  crossed := row.crossed.getD 0 != 0

/-- The files that `glob` finds, with the order of their rows that `sort("time")`
    returns. -/
structure DayDirectory where
  glob : List String
  rows : String → List RawRow
  sortTime : String → List RawRow
  sortTime_perm : ∀ path, (sortTime path).Perm (rows path)
  sortTime_sorted : ∀ path, (sortTime path).Pairwise fun row row' => row.time ≤ row'.time

/-- `files[:stop]` -/
def slice {α : Type} (files : List α) (stop : ℤ) : List α :=
  if 0 ≤ stop then files.take stop.toNat else files.take (files.length - (-stop).toNat)

/-- `if max_fills and n >= max_fills` -/
def reached (maxFills : Option ℤ) (n : ℕ) : Bool :=
  match maxFills with
  | none => false
  | some m => m ≠ 0 ∧ n ≥ m

namespace DayDirectory

variable (dir : DayDirectory)

/-- `sorted(glob.glob(DATA_GLOB))` -/
def sortedFiles : List String := dir.glob.insertionSort fun path path' => path ≤ path'

def dayFiles (limitDays : Option ℤ) : List String :=
  match limitDays with
  | none => dir.sortedFiles
  | some k => if k ≠ 0 then slice dir.sortedFiles k else dir.sortedFiles

/-- The time ranges of the files, in the order of their names, do not overlap and
    increase. -/
def Increasing : Prop :=
  dir.sortedFiles.Pairwise fun path path' =>
    ∀ row ∈ dir.rows path, ∀ row' ∈ dir.rows path', row.time ≤ row'.time

instance : Decidable dir.Increasing := inferInstanceAs (Decidable (List.Pairwise _ _))

end DayDirectory

/-! ### `iter_fills` -/

/-- The generator: its counter, the fills that it has yielded, and whether it has
    returned. -/
structure IterFills where
  n : ℕ := 0
  yielded : List Fill := []
  returned : Bool := false

def IterFills.step (maxFills : Option ℤ) (self : IterFills) (row : RawRow) : IterFills :=
  if self.returned then self
  else
    let n := self.n + 1
    { n, yielded := self.yielded ++ [row.fill], returned := reached maxFills n }

def DayDirectory.iterFills (dir : DayDirectory) (limitDays maxFills : Option ℤ) : List Fill :=
  ((dir.dayFiles limitDays).foldl (fun gen path =>
    (dir.sortTime path).foldl (IterFills.step maxFills) gen) {}).yielded

/-! ### `replay` -/

/-- The paced loop: the first timestamp, the fills that it has yielded, and for
    each the sleep before it. -/
structure Paced where
  dataStart : Option ℤ := none
  yielded : List Fill := []
  sleeps : List (Option ℚ) := []

def Paced.step (speed wallStart : ℚ) (self : Paced) (input : Fill × ℚ) : Paced :=
  let (fill, reading) := input
  let dataStart := self.dataStart.getD fill.tsMs
  -- target wall-clock offset for this event
  let target : ℚ := (fill.tsMs - dataStart : ℤ) / 1000 / speed
  let now := reading - wallStart
  { dataStart := some dataStart
    yielded := self.yielded ++ [fill]
    sleeps := self.sleeps ++ [if target > now then some (target - now) else none] }

/-- The loop over the given fills, each with the reading of the clock. -/
def Paced.run (speed wallStart : ℚ) (inputs : List (Fill × ℚ)) : Paced :=
  inputs.foldl (step speed wallStart) {}

/-- `replay`, when the clock is read as `clock`. -/
def DayDirectory.replay (dir : DayDirectory) (speed : ℚ) (limitDays maxFills : Option ℤ)
    (clock : ℕ → ℚ) : List Fill :=
  if speed ≤ 0 then dir.iterFills limitDays maxFills
  else
    (Paced.run speed (clock 0) ((dir.iterFills limitDays maxFills).zipIdx.map fun entry =>
      (entry.1, clock (entry.2 + 1)))).yielded

theorem Paced.yielded_run (speed wallStart : ℚ) (inputs : List (Fill × ℚ)) :
    (run speed wallStart inputs).yielded = inputs.map Prod.fst := by
  have h : ∀ self : Paced,
      (inputs.foldl (step speed wallStart) self).yielded = self.yielded ++ inputs.map Prod.fst := by
    induction inputs with
    | nil => exact fun self => (List.append_nil _).symm
    | cons input inputs ih =>
      intro self
      rw [List.foldl_cons, ih, List.map_cons]
      simp [step]
  exact h {}

namespace DayDirectory

variable (dir : DayDirectory)

/-- **Pacing changes nothing but the time.** -/
theorem replay_eq (speed : ℚ) (limitDays maxFills : Option ℤ) (clock : ℕ → ℚ) :
    dir.replay speed limitDays maxFills clock = dir.iterFills limitDays maxFills := by
  unfold replay
  split
  · rfl
  · rw [Paced.yielded_run, List.map_map]
    exact List.zipIdx_map_fst 0 _

/-! ### What the nested loop yields -/

/-- How many of `total` rows are yielded. -/
def quota (maxFills : Option ℤ) (total : ℕ) : ℕ :=
  match maxFills with
  | none => total
  | some m => min m.toNat total

end DayDirectory

theorem IterFills.foldl_of_returned {maxFills : Option ℤ} {gen : IterFills}
    (h : gen.returned = true) (rows : List RawRow) :
    rows.foldl (step maxFills) gen = gen := by
  induction rows with
  | nil => rfl
  | cons row rows ih =>
    have hstep : step maxFills gen row = gen := by simp only [step, h, if_true]
    rw [List.foldl_cons, hstep, ih]

theorem IterFills.step_eq {maxFills : Option ℤ} {gen : IterFills} (h : gen.returned = false)
    (row : RawRow) :
    step maxFills gen row =
      ⟨gen.n + 1, gen.yielded ++ [row.fill], reached maxFills (gen.n + 1)⟩ := by
  simp [step, h]

theorem IterFills.yielded_foldl_none {gen : IterFills} (h : gen.returned = false)
    (rows : List RawRow) :
    (rows.foldl (step none) gen).yielded = gen.yielded ++ rows.map RawRow.fill := by
  induction rows generalizing gen with
  | nil => simp
  | cons row rows ih =>
    rw [List.foldl_cons, step_eq h, ih (by rfl)]
    simp

/-- **The loop over any rows**, with `m` fills left of the quota. -/
theorem IterFills.yielded_foldl_some {gen : IterFills} (h : gen.returned = false) {m : ℕ}
    (hm : 0 < m) {maxFills : ℤ} (hmax : maxFills = gen.n + m) (rows : List RawRow) :
    (rows.foldl (step (some maxFills)) gen).yielded =
      gen.yielded ++ (rows.take m).map RawRow.fill := by
  induction rows generalizing gen m with
  | nil => simp
  | cons row rows ih =>
    obtain ⟨m, rfl⟩ := Nat.exists_eq_succ_of_ne_zero hm.ne'
    rw [List.foldl_cons, step_eq h]
    cases m with
    | zero =>
      -- the quota is reached with this row
      have hreached : reached (some maxFills) (gen.n + 1) = true := by
        simp [reached]
        omega
      rw [foldl_of_returned hreached]
      simp
    | succ m =>
      have hmore : reached (some maxFills) (gen.n + 1) = false := by
        simp [reached]
        omega
      rw [ih hmore (Nat.succ_pos m) (by simp; omega)]
      simp

namespace DayDirectory

variable (dir : DayDirectory)

theorem iterFills_eq (limitDays : Option ℤ) {maxFills : Option ℤ}
    (hmax : ∀ m ∈ maxFills, 1 ≤ m) :
    let rows := (dir.dayFiles limitDays).flatMap dir.sortTime
    dir.iterFills limitDays maxFills =
      (rows.take (quota maxFills rows.length)).map RawRow.fill := by
  intro rows
  have hfold : dir.iterFills limitDays maxFills =
      (rows.foldl (IterFills.step maxFills) {}).yielded := by
    rw [iterFills, List.foldl_flatMap]
  rw [hfold]
  cases maxFills with
  | none =>
    rw [IterFills.yielded_foldl_none rfl, quota, List.take_length]
    rfl
  | some m =>
    have hm : 1 ≤ m := hmax m rfl
    rw [IterFills.yielded_foldl_some (m := m.toNat) rfl (by omega) (by simp; omega), quota,
      ← List.take_take, List.take_length]
    rfl

/-- The files that are read: the first ones in the order of their names. -/
def firstFiles (limitDays : Option ℤ) : List String :=
  match limitDays with
  | none => dir.sortedFiles
  | some k => dir.sortedFiles.take k.toNat

theorem dayFiles_eq {limitDays : Option ℤ} (hlimit : ∀ k ∈ limitDays, 1 ≤ k) :
    dir.dayFiles limitDays = dir.firstFiles limitDays := by
  cases limitDays with
  | none => rfl
  | some k =>
    have hk : 1 ≤ k := hlimit k rfl
    rw [dayFiles, if_pos (by omega), slice, if_pos (by omega), firstFiles]

theorem firstFiles_sublist (limitDays : Option ℤ) :
    (dir.firstFiles limitDays).Sublist dir.sortedFiles := by
  cases limitDays with
  | none => exact List.Sublist.refl _
  | some k => exact List.take_sublist _ _

/-- Days in order, each in the order of time, are in the order of time. -/
theorem Increasing.sorted {dir : DayDirectory} (h : dir.Increasing) (limitDays : Option ℤ) :
    ((dir.firstFiles limitDays).flatMap dir.sortTime).Pairwise
      fun row row' => row.time ≤ row'.time := by
  refine List.pairwise_flatMap.mpr ⟨fun path _ => dir.sortTime_sorted path, ?_⟩
  refine (h.sublist (dir.firstFiles_sublist limitDays)).imp ?_
  intro path path' hle row hrow row' hrow'
  exact hle row ((dir.sortTime_perm path).subset hrow) row' ((dir.sortTime_perm path').subset hrow')

/-- Two days, of which the first is listed last. -/
def twoDays : DayDirectory where
  glob := ["b", "a"]
  rows path := if path = "a" then [⟨"v", "BTC", 1, 1, .B, 1, none, some 1⟩] else
    [⟨"w", "BTC", 1, 1, .A, 3, some 2, none⟩, ⟨"v", "BTC", 1, 1, .B, 2, none, some 0⟩]
  sortTime path := if path = "a" then [⟨"v", "BTC", 1, 1, .B, 1, none, some 1⟩] else
    [⟨"v", "BTC", 1, 1, .B, 2, none, some 0⟩, ⟨"w", "BTC", 1, 1, .A, 3, some 2, none⟩]
  sortTime_perm path := by
    split
    · exact List.Perm.refl _
    · exact List.Perm.swap _ _ _
  sortTime_sorted path := by split <;> decide

end DayDirectory

end FeatureStore
