/-
  FeatureStore/ClosedRows.lean
  ============================
  **Rows of closed buckets are final.**

  The row of a bucket is written at every flush while the bucket is open, and once more
  when it closes.  After that nothing writes to it: neither a fill, nor a flush, nor the
  final one (`Consumer.exists_spares`).  The closing write has the last stamp of its
  key, so that it stands in the table from its arrival on, even if earlier writes of the
  row arrive late or fail (`Consumer.closed_rows_final`).
-/
import FeatureStore.EndToEnd

namespace FeatureStore

open FeatureEngine (after emitted emitted_snoc after_snoc)
open LastWriter (Store rowAt emptyStore)

/-! ### What is issued leaves closed buckets alone -/

/-- No row is one of a bucket that the fills have closed. -/
def Spares (fs : List Fill) (rows : List Row) : Prop :=
  ∀ c ∈ emitted fs, ∀ row ∈ rows, row.key ≠ (coinWindowRow c).key

namespace Spares

variable {fs fs' : List Fill} {rows more : List Row}

theorem append (h : Spares fs rows) (hmore : Spares fs more) : Spares fs (rows ++ more) := by
  intro c hc row hrow
  rcases List.mem_append.mp hrow with hrow | hrow
  · exact h c hc row hrow
  · exact hmore c hc row hrow

theorem emitted_mono (hfs : fs <+: fs') : emitted fs <+: emitted fs' := by
  obtain ⟨tail, rfl⟩ := hfs
  induction tail using List.reverseRecOn with
  | nil => rw [List.append_nil]
  | append_singleton tail f ih =>
    rw [← List.append_assoc, emitted_snoc]
    exact ih.trans (List.prefix_append _ _)

/-- Fewer fills have closed fewer buckets. -/
theorem anti (h : Spares fs' rows) (hfs : fs <+: fs') : Spares fs rows :=
  fun c hc row hrow => h c ((emitted_mono hfs).subset hc) row hrow

theorem fillRows (fs : List Fill) (f : Fill) : Spares fs (fillRows (after fs) f) := by
  intro c hc row hrow heq
  rcases List.mem_append.mp hrow with hrow | hrow
  · rw [List.mem_singleton.mp hrow] at heq
    cases heq
  · -- a bucket that closes now has not closed before
    have hkeys := (finalSnapshots_key_parts (fs ++ [f])).1
    rw [emitted_snoc, List.map_append, List.map_append] at hkeys
    exact (List.nodup_append.mp hkeys).2.2 _ (List.mem_map_of_mem (List.mem_map_of_mem hc)) _
      (List.mem_map_of_mem hrow) heq.symm

theorem openWindowRows (fs : List Fill) : Spares fs (openWindowRows (after fs)) :=
  (finalSnapshots_key_parts fs).2.2

theorem walletRows (fs : List Fill) (engine : FeatureEngine) : Spares fs (walletRows engine) :=
  fun _ _ => key_ne_of_wallet (fun _ => RowKey.noConfusion) engine

theorem of_isRaw (fs : List Fill) (h : ∀ row ∈ rows, row.key.IsRaw) : Spares fs rows :=
  fun _ _ row hrow => (h row hrow).ne_coinWindow _ _ _

theorem flush (fs : List Fill) : Spares fs (flushWalletsAndOpenWindows (after fs)) :=
  (openWindowRows fs).append (walletRows fs _)

end Spares

namespace Consumer

variable (args : Args) (start : ℚ) (inputs : List (Fill × ℚ))

/-- What one step issues. -/
theorem exists_spares_step (input : Fill × ℚ) :
    ∃ rows, (loop args start (inputs ++ [input])).issued =
        (loop args start inputs).issued ++ rows ∧
      Spares (inputs.map Prod.fst) rows := by
  obtain ⟨f, now⟩ := input
  have hengine := loop_engine args start inputs
  have hrows : Spares (inputs.map Prod.fst)
      (fillRows (after (inputs.map Prod.fst)) f ++ rawRows args.rawSink f) :=
    (Spares.fillRows _ f).append (.of_isRaw _ (rawRows_isRaw args.rawSink f))
  by_cases hdue : now - (loop args start inputs).lastFlush ≥ args.flushSecs
  · refine ⟨_ ++ flushWalletsAndOpenWindows (after (inputs.map Prod.fst ++ [f])), ?_,
      hrows.append ((Spares.flush _).anti (List.prefix_append _ _))⟩
    rw [loop_snoc, after_snoc]
    simp only [step, if_pos hdue, hengine, fillRows, List.append_assoc]
  · refine ⟨_, ?_, hrows⟩
    rw [loop_snoc]
    simp only [step, if_neg hdue, hengine, fillRows, List.append_assoc]

/-- **What is issued after the first inputs**, up to the end of the run. -/
theorem exists_spares (more : List (Fill × ℚ)) :
    ∃ rows, run args start (inputs ++ more) = (loop args start inputs).issued ++ rows ∧
      Spares (inputs.map Prod.fst) rows := by
  have hloop : ∃ rows, (loop args start (inputs ++ more)).issued =
      (loop args start inputs).issued ++ rows ∧ Spares (inputs.map Prod.fst) rows := by
    induction more using List.reverseRecOn with
    | nil => exact ⟨[], by simp, fun _ _ row hrow => absurd hrow List.not_mem_nil⟩
    | append_singleton more input ih =>
      obtain ⟨rows, hrows, hspares⟩ := ih
      obtain ⟨new, hnew, hspares'⟩ := exists_spares_step args start (inputs ++ more) input
      refine ⟨rows ++ new, ?_, hspares.append (hspares'.anti ?_)⟩
      · rw [← List.append_assoc, hnew, hrows, List.append_assoc]
      · rw [List.map_append]
        exact List.prefix_append _ _
  obtain ⟨rows, hrows, hspares⟩ := hloop
  refine ⟨rows ++ flushWalletsAndOpenWindows (after ((inputs ++ more).map Prod.fst)), ?_,
    hspares.append ((Spares.flush _).anti ?_)⟩
  · rw [run, hrows, loop_engine, List.append_assoc]
  · rw [List.map_append]
    exact List.prefix_append _ _

/-- The position of the closing write. -/
theorem exists_closing_write (more : List (Fill × ℚ)) {c : WindowSnapshot}
    (hc : c ∈ emitted (inputs.map Prod.fst)) :
    ∃ i < (loop args start inputs).issued.length,
      (run args start (inputs ++ more))[i]? = some (coinWindowRow c) ∧
      ∀ i' row, i < i' → (run args start (inputs ++ more))[i']? = some row →
        row.key ≠ (coinWindowRow c).key := by
  obtain ⟨rows, hrows, hspares⟩ := exists_spares args start inputs more
  obtain ⟨i, hget, hlast⟩ := LastWriter.exists_last_index Row.key
    ((loop_issues args start inputs).last_emitted c hc)
  have hi := (List.getElem?_eq_some_iff.mp hget).1
  rw [hrows]
  refine ⟨i, hi, (List.getElem?_append_left hi).trans hget, fun i' row hlt hget' => ?_⟩
  rw [List.getElem?_append] at hget'
  split at hget'
  · exact hlast i' row hlt hget'
  · exact hspares c hc row (List.mem_of_getElem? hget')

end Consumer

/-! ### In the table -/

/-- What has arrived stays. -/
theorem Delivery.arrived_mono {maxInflight base : ℕ} {self self' : Delivery}
    {events : List Delivery.Event}
    (hrun : Runs.run (Delivery.step maxInflight base) self events = some self') :
    self.arrived <+: self'.arrived := by
  refine Runs.run_invariant (Delivery.step maxInflight base) (p := fun _ => True)
    (I := fun d => self.arrived <+: d.arrived) (fun d e d' _ hd hstep => ?_) (fun _ _ => trivial)
    (List.prefix_refl _) hrun
  cases Delivery.moves_of_step hstep with
  | arrive i row h => exact hd.trans (List.prefix_append _ _)
  | _ => exact hd

/-- Once the last write of a key has arrived, the store holds its row. -/
theorem Delivering.rowAt_of_last {maxInflight base : ℕ} {rows : List Row} {d : Delivery}
    (h : Delivering maxInflight base rows d) {before : Store RowKey Row}
    (holder : ∀ k w, before k = some w → w.stamp < base) {i : ℕ} {row : Row}
    (hget : rows[i]? = some row)
    (hlast : ∀ (i' : ℕ) (row' : Row), i < i' → rows[i']? = some row' → row'.key ≠ row.key)
    (harrived : base + i ∈ d.arrived.map Write.stamp) :
    rowAt (d.store before) row.key = some row :=
  LastWriter.rowAt_of_last Row.key holder (fun _ => h.arrived_rows) hget hlast harrived

namespace Consumer

/-- **The row of a closed bucket is final.**  The first fills have closed the bucket:

    * it is among the rows that they give, and no later row of the run has its key;
    * once its request is acknowledged, or has only arrived, the table holds it, now
      and ever after, over any older rows and whatever else is sent, arrives, fails
      or is reported, in whatever order. -/
theorem closed_rows_final (args : Args) (start : ℚ) (inputs more : List (Fill × ℚ))
    (maxInflight base : ℕ) (before : Store RowKey Row)
    (holder : ∀ k w, before k = some w → w.stamp < base) (c : WindowSnapshot)
    (hc : c ∈ emitted (inputs.map Prod.fst)) :
    let rows := run args start (inputs ++ more)
    ∃ i < (loop args start inputs).issued.length,
      rows[i]? = some (coinWindowRow c) ∧
      (∀ i' row, i < i' → rows[i']? = some row → row.key ≠ (coinWindowRow c).key) ∧
      ∀ events d, Delivery.run maxInflight 256 base rows events = some d →
        (d.sys.reported i = some .done ∨ base + i ∈ d.arrived.map Write.stamp) →
        ∀ later d', Delivery.run maxInflight 256 base rows (events ++ later) = some d' →
          rowAt (d'.store before) (coinWindowRow c).key = some (coinWindowRow c) := by
  intro rows
  obtain ⟨i, hi, hget, hlast⟩ := exists_closing_write args start inputs more hc
  refine ⟨i, hi, hget, hlast, fun events d hrun hdone later d' hlater => ?_⟩
  have h := Delivering.run hrun
  have harrived : base + i ∈ d.arrived.map Write.stamp := hdone.elim (h.acked i) id
  -- an arrival is never undone
  obtain ⟨mid, hmid, hrest⟩ := (Runs.run_append _).mp hlater
  cases (hmid.symm.trans hrun : some mid = some d)
  have hsub := ((Delivery.arrived_mono hrest).map Write.stamp).subset
  exact (Delivering.run hlater).rowAt_of_last holder hget hlast (hsub harrived)

/-- Two fills in different minutes. -/
theorem closed_rows_final_two_minutes :
    ∃ d, Delivery.run 1 256 0
        (run {} 0 [(⟨"w", "BTC", 100, 2, .B, 5000, 0, true⟩, 1),
          (⟨"w", "BTC", 101, 2, .B, 65000, 0, true⟩, 2)])
        (Delivery.oneByOne 1 11) = some d ∧
      ∃ c ∈ emitted [⟨"w", "BTC", 100, 2, .B, 5000, 0, true⟩,
          ⟨"w", "BTC", 101, 2, .B, 65000, 0, true⟩],
        rowAt (d.store emptyStore) (coinWindowRow c).key = some (coinWindowRow c) := by
  have hstamps : (Delivery.run 1 256 0
      (run {} 0 [(⟨"w", "BTC", 100, 2, .B, 5000, 0, true⟩, 1),
        (⟨"w", "BTC", 101, 2, .B, 65000, 0, true⟩, 2)])
      (Delivery.oneByOne 1 11)).map (fun d => d.arrived.map Write.stamp) =
        some (List.range 11) := by decide +kernel
  obtain ⟨d, hrun, hstamps⟩ := Option.map_eq_some_iff.mp hstamps
  have hlength : (loop {} 0 [(⟨"w", "BTC", 100, 2, .B, 5000, 0, true⟩, 1),
      (⟨"w", "BTC", 101, 2, .B, 65000, 0, true⟩, 2)]).issued.length = 7 := by decide +kernel
  obtain ⟨c, hc⟩ := List.exists_mem_of_ne_nil (emitted [⟨"w", "BTC", 100, 2, .B, 5000, 0, true⟩,
    ⟨"w", "BTC", 101, 2, .B, 65000, 0, true⟩]) (by decide +kernel)
  obtain ⟨i, hi, _, _, hfinal⟩ := closed_rows_final {} 0
    [(⟨"w", "BTC", 100, 2, .B, 5000, 0, true⟩, 1), (⟨"w", "BTC", 101, 2, .B, 65000, 0, true⟩, 2)]
    [] 1 0 emptyStore (by simp [emptyStore]) c hc
  refine ⟨d, hrun, c, hc, hfinal _ d hrun (Or.inr ?_) [] d (by rw [List.append_nil]; exact hrun)⟩
  rw [hstamps, List.mem_range]
  omega

end Consumer

end FeatureStore
