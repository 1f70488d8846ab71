/-
  FeatureStore/ReadBench.lean
  ===========================
  **The read benchmark as a whole** (`_worker` and `read_bench` of
  `src/feature_store/bench.py`).

  The reads are divided among processes, and those of a process among its threads.
  How a read ends is an input.  The threads of a process finish in any order, and so
  do the processes.

  The threads of a process read one round after another of the keys between them, so
  that no key is read more than once more often than another
  (`length_group_keyIndices`).  What is printed accounts for every read that was made
  (`read_bench_accounts`); a read whose result raises an exception when it is looked at
  is counted twice.
-/
import FeatureStore.Grouping
import FeatureStore.Stride
import Mathlib.Algebra.BigOperators.Group.List.Basic
import Mathlib.Algebra.GroupWithZero.Nat
import Mathlib.Data.Rat.Defs

namespace FeatureStore

open Stride (stride strideFrom strideFrom_append strideFrom_cons)

/-! ### One process -/

/-- How a read ends. -/
inductive ReadOutcome where
  | raised -- `run_one` raises
  | answered (ms : ℚ) (found : Bool)
  | raisedLate (ms : ℚ) -- `rs.one()` raises
deriving DecidableEq, Repr

namespace ReadOutcome

/-- The latency has been taken. -/
def timed : ReadOutcome → Bool
  | raised => false
  | _ => true

/-- The latency. -/
def ms? : ReadOutcome → Option ℚ
  | raised => none
  | answered ms _ => some ms
  | raisedLate ms => some ms

def missed : ReadOutcome → Bool
  | answered _ found => !found
  | _ => false

def failed : ReadOutcome → Bool
  | answered _ _ => false
  | _ => true

def late : ReadOutcome → Bool
  | raisedLate _ => true
  | _ => false

theorem isSome_ms? (o : ReadOutcome) : o.ms?.isSome = o.timed := by
  cases o <;> rfl

end ReadOutcome

/-- The local variables of `run`, and what a process puts into the queue. -/
structure ReadStats where
  lat : List ℚ := []
  miss : ℕ := 0
  err : ℕ := 0

/-- The body of the loop of `run`. -/
def ReadStats.step (self : ReadStats) (outcome : ReadOutcome) : ReadStats :=
  match outcome with
  | .raised => { self with err := self.err + 1 }
  | .answered ms found =>
      { self with
        lat := self.lat ++ [ms]
        miss := if found then self.miss else self.miss + 1 }
  | .raisedLate ms => { self with lat := self.lat ++ [ms], err := self.err + 1 }

/-- `run`, for the reads of a thread. -/
def ReadStats.run (outcomes : List ReadOutcome) : ReadStats := outcomes.foldl step {}

/-- Adding up the reports of the threads, and those of the processes. -/
def ReadStats.total (parts : List ReadStats) : ReadStats where
  lat := (parts.map lat).flatten
  miss := (parts.map miss).sum
  err := (parts.map err).sum

/-- The positions of the keys that the thread `wid` reads. -/
def keyIndices (nkeys perThread wid : ℕ) : List ℕ :=
  (List.range perThread).map fun i => (wid * perThread + i) % nkeys

/-! ### The keys -/

theorem flatMap_range_mul (m n : ℕ) :
    (List.range n).flatMap (fun w => (List.range m).map fun i => w * m + i) =
      List.range (n * m) := by
  induction n with
  | zero => simp
  | succ n ih =>
    rw [List.range_succ, List.flatMap_append, ih, Nat.succ_mul, List.range_add]
    simp

/-- Between them, the threads of a process go round the keys. -/
theorem flatMap_keyIndices (nkeys perThread threads : ℕ) :
    (List.range threads).flatMap (keyIndices nkeys perThread) =
      (List.range (threads * perThread)).map (· % nkeys) := by
  rw [← flatMap_range_mul, List.map_flatMap]
  refine List.flatMap_congr fun w _ => ?_
  rw [keyIndices, List.map_map]
  rfl

/-- **How often a process reads a key.** -/
theorem length_group_keyIndices {nkeys j : ℕ} (hj : j < nkeys) (perThread threads : ℕ) :
    ((List.range threads).flatMap (keyIndices nkeys perThread)).count j =
      (threads * perThread + (nkeys - 1 - j)) / nkeys := by
  have hstride : ∀ n, ((List.range n).map (· % nkeys)).count j =
      (stride nkeys j (List.range n)).length := by
    intro n
    induction n with
    | zero => rfl
    | succ n ih =>
      have hlast : stride nkeys j (List.range n ++ [n]) =
          stride nkeys j (List.range n) ++ strideFrom nkeys j n [n] := by
        rw [stride, strideFrom_append, Nat.zero_add, List.length_range]
        rfl
      rw [List.range_succ, List.map_append, List.count_append, ih, hlast, List.length_append,
        strideFrom_cons]
      by_cases h : n % nkeys = j
      · simp [h]
      · simp [h]
  rw [flatMap_keyIndices, hstride, Stride.length_stride hj, List.length_range]

/-! ### The report -/

namespace ReadStats

/-- A number that every read of a kind adds one to counts the reads of the kind. -/
theorem count_run {g : ReadStats → ℕ} {p : ReadOutcome → Bool} (hstart : g {} = 0)
    (hstep : ∀ s o, g (step s o) = g s + if p o then 1 else 0) (outcomes : List ReadOutcome) :
    g (run outcomes) = outcomes.countP p := by
  induction outcomes using List.reverseRecOn with
  | nil => exact hstart
  | append_singleton outcomes o ih =>
    rw [run, List.foldl_append, List.countP_append, List.countP_singleton, ← ih]
    exact hstep _ o

theorem lat_run (outcomes : List ReadOutcome) :
    (run outcomes).lat = outcomes.filterMap ReadOutcome.ms? := by
  induction outcomes using List.reverseRecOn with
  | nil => rfl
  | append_singleton outcomes o ih =>
    rw [run, List.foldl_append, List.filterMap_append, ← ih]
    cases o with
    | raised => exact (List.append_nil _).symm
    | answered ms found => rfl
    | raisedLate ms => rfl

theorem miss_run (outcomes : List ReadOutcome) :
    (run outcomes).miss = outcomes.countP ReadOutcome.missed := by
  refine count_run (g := miss) rfl (fun s o => ?_) outcomes
  cases o with
  | answered ms found => cases found <;> rfl
  | raised => rfl
  | raisedLate ms => rfl

theorem err_run (outcomes : List ReadOutcome) :
    (run outcomes).err = outcomes.countP ReadOutcome.failed := by
  refine count_run (g := err) rfl (fun s o => ?_) outcomes
  cases o <;> rfl

end ReadStats

theorem countP_timed_add_failed (outcomes : List ReadOutcome) :
    outcomes.countP ReadOutcome.timed + outcomes.countP ReadOutcome.failed =
      outcomes.length + outcomes.countP ReadOutcome.late := by
  induction outcomes with
  | nil => rfl
  | cons o outcomes ih =>
    cases o <;>
    · simp only [List.countP_cons, List.length_cons, ReadOutcome.timed, ReadOutcome.failed,
        ReadOutcome.late, if_true, Bool.false_eq_true, if_false]
      omega

/-- A benchmark that has come to its end: the threads of a process finish in the order
    `finish`, and how the read `i` of a thread ends is `outcome`. -/
structure ReadBench (n procs threads : ℕ) where
  outcome : ℕ → ℕ → ℕ → ReadOutcome
  finish : ℕ → List ℕ
  finish_perm : ∀ p < procs, (finish p).Perm (List.range threads)

namespace ReadBench

variable {n procs threads : ℕ} (bench : ReadBench n procs threads)

/-- `per_thread`. -/
def perThread (n procs threads : ℕ) : ℕ := n / procs / threads

/-- The reads of a thread. -/
def reads (p w : ℕ) : List ReadOutcome :=
  (List.range (perThread n procs threads)).map (bench.outcome p w)

/-- What a process puts into the queue. -/
def worker (p : ℕ) : ReadStats :=
  ReadStats.total ((bench.finish p).map fun w => ReadStats.run (bench.reads p w))

/-- All reads that are made, without those that warm up. -/
def allReads : List ReadOutcome :=
  (List.range procs).flatMap fun p => (List.range threads).flatMap fun w => bench.reads p w

theorem sum_workers (g : ReadStats → ℕ) (p : ReadOutcome → Bool)
    (htotal : ∀ parts, g (ReadStats.total parts) = (parts.map g).sum)
    (hrun : ∀ outcomes, g (ReadStats.run outcomes) = outcomes.countP p)
    {results : List ReadStats} (hresults : results.Perm ((List.range procs).map bench.worker)) :
    g (ReadStats.total results) = bench.allReads.countP p := by
  have hworker : ∀ q < procs, g (bench.worker q) =
      ((List.range threads).flatMap fun w => bench.reads q w).countP p := by
    intro q hq
    have hperm := (bench.finish_perm q hq).map fun w => g (ReadStats.run (bench.reads q w))
    rw [worker, htotal, List.map_map]
    refine hperm.sum_eq.trans ?_
    simp only [hrun]
    rw [List.countP_flatMap]
    rfl
  rw [htotal, (hresults.map g).sum_eq, List.map_map, allReads, List.countP_flatMap]
  refine congrArg List.sum (List.map_congr_left fun q hq => ?_)
  exact hworker q (List.mem_range.mp hq)

/-- **The latencies are those of the reads that were timed.** -/
theorem lat_perm {results : List ReadStats}
    (hresults : results.Perm ((List.range procs).map bench.worker)) :
    (ReadStats.total results).lat.Perm (bench.allReads.filterMap ReadOutcome.ms?) := by
  have hworker : ∀ q < procs, (bench.worker q).lat.Perm
      (((List.range threads).flatMap fun w => bench.reads q w).filterMap ReadOutcome.ms?) := by
    intro q hq
    have hlat : (bench.worker q).lat =
        (bench.finish q).flatMap fun w => (bench.reads q w).filterMap ReadOutcome.ms? := by
      rw [worker, ReadStats.total, List.map_map, List.flatMap_def]
      exact congrArg List.flatten (List.map_congr_left fun w _ => ReadStats.lat_run _)
    rw [hlat, List.filterMap_flatMap]
    exact (bench.finish_perm q hq).flatMap_right _
  have hflat := (hresults.map ReadStats.lat).flatten
  rw [List.map_map] at hflat
  refine hflat.trans ?_
  rw [allReads, List.filterMap_flatMap]
  exact List.Perm.flatMap_left _ fun q hq => hworker q (List.mem_range.mp hq)

theorem length_allReads :
    bench.allReads.length = procs * threads * perThread n procs threads := by
  have hreads : ∀ p w, (bench.reads p w).length = perThread n procs threads := by
    intro p w
    rw [reads, List.length_map, List.length_range]
  simp [allReads, List.length_flatMap, hreads, Nat.mul_assoc]

/-- **The benchmark accounts for every read.**  In whatever order threads and processes
    finish, it makes a multiple of `procs * threads` reads, fewer than that short of
    `n`; it has the latencies of the reads among them that were timed, each once, and
    counts the misses and the errors of exactly these reads, and a read twice if it
    raises late.  Every process reads every key as often as any
    other key, or once more. -/
theorem read_bench_accounts (results : List ReadStats)
    (hresults : results.Perm ((List.range procs).map bench.worker)) :
    ((ReadStats.total results).lat.Perm (bench.allReads.filterMap ReadOutcome.ms?) ∧
      (ReadStats.total results).lat.length = bench.allReads.countP ReadOutcome.timed ∧
      (ReadStats.total results).miss = bench.allReads.countP ReadOutcome.missed ∧
      (ReadStats.total results).err = bench.allReads.countP ReadOutcome.failed) ∧
    (ReadStats.total results).lat.length + (ReadStats.total results).err =
      bench.allReads.length + bench.allReads.countP ReadOutcome.late ∧
    procs * threads ∣ bench.allReads.length ∧ bench.allReads.length ≤ n ∧
    (0 < procs → 0 < threads → n < bench.allReads.length + procs * threads) ∧
    ∀ nkeys j, j < nkeys →
      ((List.range threads).flatMap (keyIndices nkeys (perThread n procs threads))).count j =
        (threads * perThread n procs threads + (nkeys - 1 - j)) / nkeys := by
  have hperm := bench.lat_perm hresults
  have hlat : (ReadStats.total results).lat.length =
      bench.allReads.countP ReadOutcome.timed := by
    rw [hperm.length_eq, List.length_filterMap_eq_countP]
    exact List.countP_congr fun o _ => by rw [o.isSome_ms?]
  have hmiss := bench.sum_workers ReadStats.miss ReadOutcome.missed (fun _ => rfl)
    ReadStats.miss_run hresults
  have herr := bench.sum_workers ReadStats.err ReadOutcome.failed (fun _ => rfl)
    ReadStats.err_run hresults
  have hdiv : perThread n procs threads = n / (procs * threads) := Nat.div_div_eq_div_mul _ _ _
  refine ⟨⟨hperm, hlat, hmiss, herr⟩, ?_, ?_, ?_, ?_, ?_⟩
  · rw [hlat, herr, countP_timed_add_failed]
  · rw [length_allReads]
    exact Nat.dvd_mul_right _ _
  · rw [length_allReads, hdiv]
    exact Nat.mul_div_le n (procs * threads)
  · intro hprocs hthreads
    rw [length_allReads, hdiv, ← Nat.mul_add_one]
    exact Nat.lt_mul_div_succ n (Nat.mul_pos hprocs hthreads)
  · exact fun nkeys j hj => length_group_keyIndices hj _ _

/-- A read of each of two threads; that of the second, which finishes first, raises
    late. -/
def lateRead : ReadBench 2 1 2 where
  outcome _ w _ := if w = 0 then .answered 1 true else .raisedLate 2
  finish _ := [1, 0]
  finish_perm _ _ := List.Perm.swap 0 1 []

theorem read_bench_accounts_late_read :
    (ReadStats.total [lateRead.worker 0]).lat = [2, 1] ∧
      (ReadStats.total [lateRead.worker 0]).lat.Perm [1, 2] ∧
      (ReadStats.total [lateRead.worker 0]).lat.length +
        (ReadStats.total [lateRead.worker 0]).err = lateRead.allReads.length + 1 := by
  obtain ⟨⟨hperm, _⟩, htotal, _⟩ :=
    lateRead.read_bench_accounts [lateRead.worker 0] (List.Perm.refl _)
  exact ⟨by decide +kernel, hperm, htotal⟩

end ReadBench

end FeatureStore
