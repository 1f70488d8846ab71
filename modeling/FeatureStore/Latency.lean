/-
  FeatureStore/Latency.lean
  =========================
  **The latency percentiles of the reports.**

  Four places of the source compute a percentile of a list of latencies: the
  summary of `consumer.py`, those of `loadgen.py` and `bench.py` over the lists of
  all their workers, and the reader of `dashboard.py` over its last reads.  All of
  them sort and take the element at `int(n * q)`; three of them clamp this index
  to the list, the first does not.

  `Sorting.lean` says which element that is, for `q` from zero to one.  An
  index is then never clamped (`min_index`), so that the four agree.
-/
import FeatureStore.Rounding
import FeatureStore.Sorting
import FeatureStore.Writer

namespace FeatureStore

/-! ### Python -/

/-- `sorted(l)`. -/
def sorted (l : List ℚ) : List ℚ := Sorting.sortBy id l

/-- `int(x)`, which rounds towards zero. -/
def int (x : ℚ) : ℤ := if 0 ≤ x then ⌊x⌋ else ⌈x⌉

/-- `l[i]`: a negative index counts from the end; `none` is an `IndexError`. -/
def item (l : List ℚ) (i : ℤ) : Option ℚ :=
  if 0 ≤ i then l[i.toNat]?
  else if 0 ≤ l.length + i then l[(l.length + i).toNat]?
  else none

theorem sorted_perm (l : List ℚ) : (sorted l).Perm l := Sorting.sortBy_perm id l

theorem length_sorted (l : List ℚ) : (sorted l).length = l.length := (sorted_perm l).length_eq

theorem sorted_congr {l l' : List ℚ} (h : l.Perm l') : sorted l = sorted l' :=
  Sorting.sortBy_congr id Function.injective_id h

theorem item_natCast (l : List ℚ) (k : ℕ) : item l k = l[k]? := if_pos (Int.natCast_nonneg k)

theorem int_mul {q : ℚ} (hq : 0 ≤ q) (n : ℕ) : int (n * q) = Sorting.rank q n := by
  have hnonneg : 0 ≤ (n : ℚ) * q := mul_nonneg (Nat.cast_nonneg n) hq
  rw [int, if_pos hnonneg]
  exact (Int.natCast_floor_eq_floor hnonneg).symm

/-! ### The expressions -/

/-- `lat[min(len(lat) - 1, int(len(lat) * q))]`. -/
def clamped (lat : List ℚ) (q : ℚ) : Option ℚ :=
  item lat (min (lat.length - 1) (int (lat.length * q)))

/-- `write_latency_ms`. -/
def Pipeline.writeLatencyMs (self : Pipeline) : List ℚ := sorted self.latencies

/-- The function `p` of `run`, on the pipeline at the end of the run. -/
def Consumer.p (pipe : Pipeline) (q : ℚ) : Option ℚ :=
  let lat := pipe.writeLatencyMs
  if lat ≠ [] then item lat (int (lat.length * q)) else some 0

/-- The function `qf` of `main`, on the lists `r["lat"]` of the results. -/
def Loadgen.qf (results : List (List ℚ)) (p : ℚ) : Option ℚ :=
  let lat := sorted results.flatten
  if lat ≠ [] then clamped lat p else some 0

/-- The list `lat` that a `_worker` reports, from the lists of its threads. -/
def Bench.workerLat (parts : List (List ℚ)) : List ℚ := parts.flatten

/-- The function `qf` of `read_bench`, on the lists `r["lat"]` of the results. -/
def Bench.qf (results : List (List ℚ)) (p : ℚ) : Option ℚ :=
  let lat := sorted results.flatten
  let n := lat.length
  if n ≠ 0 then clamped lat p else some 0

/-- What `_reader_thread` makes of `STATS["read_p99_ms"]`. -/
def readP99Ms (stat : ℚ) (lat : List ℚ) : Option ℚ :=
  let s := sorted lat
  if s ≠ [] then (clamped s 0.99).map (Rounding.roundTo 3) else some stat

/-! ### The index -/

section Index

variable {l : List ℚ} {q : ℚ}

theorem sorted_ne_nil (h : l ≠ []) : sorted l ≠ [] := fun heq =>
  h (List.Perm.nil_eq (heq ▸ sorted_perm l)).symm

theorem int_mul_lt (hq : 0 ≤ q) (hq1 : q < 1) (h : l ≠ []) :
    0 ≤ int (l.length * q) ∧ int (l.length * q) < l.length := by
  have hlt := Sorting.rank_lt hq hq1 (List.length_pos_of_ne_nil h)
  rw [int_mul hq]
  omega

/-- **The clamp does nothing.** -/
theorem min_index (hq : 0 ≤ q) (hq1 : q < 1) (h : l ≠ []) :
    min ((l.length : ℤ) - 1) (int (l.length * q)) = int (l.length * q) := by
  have hlt := (int_mul_lt hq hq1 h).2
  exact min_eq_right (by omega)

theorem clamped_eq (hq : 0 ≤ q) (hq1 : q < 1) (h : l ≠ []) :
    clamped l q = item l (int (l.length * q)) :=
  congrArg (item l) (min_index hq hq1 h)

theorem exists_item_sorted (hq : 0 ≤ q) (hq1 : q < 1) (h : l ≠ []) :
    ∃ v, item (sorted l) (int ((sorted l).length * q)) = some v ∧
      Sorting.IsPercentile q l v := by
  have hlt : Sorting.rank q (sorted l).length < (sorted l).length :=
    Sorting.rank_lt hq hq1 (List.length_pos_of_ne_nil (sorted_ne_nil h))
  refine ⟨(sorted l)[Sorting.rank q (sorted l).length], ?_, ?_⟩
  · rw [int_mul hq, item_natCast]
    exact List.getElem?_eq_getElem hlt
  · exact (Sorting.isPercentile_getElem hq (Sorting.pairwise_sortBy id l) hlt).perm (sorted_perm l)

end Index

/-! ### Agreement -/

section Agreement

variable {l : List ℚ} {q : ℚ}

theorem Consumer.p_eq {pipe : Pipeline} (hperm : pipe.latencies.Perm l) (h : l ≠ []) :
    Consumer.p pipe q = item (sorted l) (int ((sorted l).length * q)) := by
  have hlat : pipe.writeLatencyMs = sorted l := sorted_congr hperm
  simp only [Consumer.p, hlat]
  exact if_pos (sorted_ne_nil h)

theorem Loadgen.qf_eq {results : List (List ℚ)} (hperm : results.flatten.Perm l) (h : l ≠ []) :
    Loadgen.qf results q = clamped (sorted l) q := by
  simp only [Loadgen.qf, sorted_congr hperm]
  exact if_pos (sorted_ne_nil h)

theorem Bench.qf_eq {results : List (List ℚ)} (hperm : results.flatten.Perm l) (h : l ≠ []) :
    Bench.qf results q = clamped (sorted l) q := by
  simp only [Bench.qf, sorted_congr hperm]
  exact if_pos (List.length_pos_of_ne_nil (sorted_ne_nil h)).ne'

theorem readP99Ms_eq {stat : ℚ} {lat : List ℚ} (hperm : lat.Perm l) (h : l ≠ []) :
    readP99Ms stat lat = (clamped (sorted l) 0.99).map (Rounding.roundTo 3) := by
  simp only [readP99Ms, sorted_congr hperm]
  exact if_pos (sorted_ne_nil h)

/-- **All reports show the nearest-rank percentile.**  For a list of samples that is
    not empty, the index `int(n * 0.99)` is in the sorted list, so that the clamp
    does nothing and all reports select the same element.  More than 99% of the
    samples are at most this element, and at most 99% are less.  It depends on the
    samples only: the lists of the workers and of their threads may come in any
    order. -/
theorem p99_nearest_rank (samples : List ℚ) (h : samples ≠ []) :
    (0 ≤ int (samples.length * 0.99) ∧ int (samples.length * 0.99) < samples.length ∧
      min ((samples.length : ℤ) - 1) (int (samples.length * 0.99)) =
        int (samples.length * 0.99)) ∧
    ∃ v, item (sorted samples) (int (samples.length * 0.99)) = some v ∧
      Sorting.IsPercentile 0.99 samples v ∧
      (∀ pipe : Pipeline, pipe.latencies.Perm samples → Consumer.p pipe 0.99 = some v) ∧
      (∀ results : List (List ℚ), results.flatten.Perm samples →
        Loadgen.qf results 0.99 = some v) ∧
      (∀ workers : List (List (List ℚ)), (workers.map Bench.workerLat).flatten.Perm samples →
        Bench.qf (workers.map Bench.workerLat) 0.99 = some v) ∧
      (∀ (stat : ℚ) (lat : List ℚ), lat.Perm samples →
        readP99Ms stat lat = some (Rounding.roundTo 3 v)) := by
  have hq : (0 : ℚ) ≤ 0.99 := by norm_num
  have hq1 : (0.99 : ℚ) < 1 := by norm_num
  obtain ⟨hk, hlt⟩ := int_mul_lt hq hq1 h
  obtain ⟨v, hitem, hv⟩ := exists_item_sorted hq hq1 h
  have hclamped : clamped (sorted samples) 0.99 = some v :=
    (clamped_eq hq hq1 (sorted_ne_nil h)).trans hitem
  refine ⟨⟨hk, hlt, min_index hq hq1 h⟩, v, ?_, hv, ?_, ?_, ?_, ?_⟩
  · rwa [length_sorted] at hitem
  · exact fun pipe hperm => (Consumer.p_eq hperm h).trans hitem
  · exact fun results hperm => (Loadgen.qf_eq hperm h).trans hclamped
  · exact fun workers hperm => (Bench.qf_eq hperm h).trans hclamped
  · intro stat lat hperm
    rw [readP99Ms_eq hperm h, hclamped, Option.map_some]

/-- Four samples with a tie, from two workers. -/
theorem p99_nearest_rank_tie :
    ∃ v, Loadgen.qf [[2, 1], [3, 2]] 0.99 = some v ∧ Loadgen.qf [[3, 2], [2, 1]] 0.99 = some v := by
  obtain ⟨_, v, _, _, _, hload, _⟩ := p99_nearest_rank [2, 1, 3, 2] (by decide)
  exact ⟨v, hload _ (List.Perm.refl _), hload _ (by decide)⟩

end Agreement

end FeatureStore
