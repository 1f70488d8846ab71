/-
  FeatureStore/Recovery.lean
  ==========================
  **Cut off and started again.**

  The consumer keeps its state in memory and has no checkpoint: when it is cut off, it
  is started again and replays the same fills from the first one.  Its tables then have
  rows of runs that ended anywhere, and writes of these runs may still be on their way
  and arrive at any moment (`Arrivals`).  They are older than all writes of the new run,
  so that they might as well have arrived first (`LastWriter.applyAll_past_first`), and
  they have no key that the new run does not write (`Attempt.settled_isSome`).
-/
import FeatureStore.EndToEnd

namespace FeatureStore

open LastWriter (Store rowAt applyAll emptyStore lastFor)

/-! ### The same fills, and more -/

/-- What has been written is among what is written in the end. -/
theorem Issues.settled_isSome {fs : List Fill} {raws log : List Row} (h : Issues fs raws log)
    {row : Row} (hrow : row ∈ log) : (settled raws fs row.key).isSome := by
  rw [← h.settled_of_flush, ← mem_keys_iff_lastFor]
  exact List.mem_map_of_mem (List.mem_append_left _ hrow)

/-- Whatever has been issued, an ingest may go on with more fills. -/
theorem Issues.exists_longer {p : List Fill} {raws log : List Row} (h : Issues p raws log)
    (args : Args) (tail : List Fill) :
    ∃ more, Issues (p ++ tail) (raws ++ Consumer.raws args tail) (log ++ more) := by
  induction tail using List.reverseRecOn with
  | nil => exact ⟨[], by simpa [Consumer.raws] using h⟩
  | append_singleton tail f ih =>
    obtain ⟨more, hmore⟩ := ih
    have hnext := (hmore.fill f).raw_append (rawRows_isRaw args.rawSink f)
    refine ⟨more ++ fillRows (FeatureEngine.after (p ++ tail)) f ++ rawRows args.rawSink f, ?_⟩
    have hraws : Consumer.raws args (tail ++ [f]) =
        Consumer.raws args tail ++ rawRows args.rawSink f := by
      rw [Consumer.raws, List.flatMap_append, List.flatMap_singleton]
      rfl
    rw [hraws]
    simpa only [List.append_assoc] using hnext

namespace Consumer

/-- A run of the consumer that was cut off, and where it was then: what it had sent, and
    what of it arrives, then or later. -/
structure Attempt where
  args : Args
  start : ℚ
  inputs : List (Fill × ℚ)
  maxInflight : ℕ
  base : ℕ
  events : List Delivery.Event
  state : Delivery
  ran : Delivery.run maxInflight 256 base (run args start inputs) events = some state

/-- The attempt replayed the same fills, or the first of them, with the same sink, and
    its writes are stamped before `base`. -/
structure Attempt.Before (a : Attempt) (args : Args) (fs : List Fill) (base : ℕ) : Prop where
  fills : a.inputs.map Prod.fst <+: fs
  sink : a.args.rawSink = args.rawSink
  stamps : a.base + (run a.args a.start a.inputs).length ≤ base

/-- What has arrived at the store, in the order of arrival: what a run has delivered
    (`arrived`) and, at any moment, writes of the attempts before it. -/
inductive Arrivals (attempts : List Attempt) : List (Write Row) → List (Write Row) → Prop
  | start : Arrivals attempts [] []
  | now {arrived ws} (h : Arrivals attempts arrived ws) (w : Write Row) :
      Arrivals attempts (arrived ++ [w]) (ws ++ [w])
  | past {arrived ws} (h : Arrivals attempts arrived ws) {a : Attempt} (ha : a ∈ attempts)
      {w : Write Row} (hw : w ∈ a.state.arrived) : Arrivals attempts arrived (ws ++ [w])

namespace Attempt

variable {a : Attempt} {args : Args} {fs : List Fill} {base : ℕ}

/-- What an attempt has sent says what the engine had after a prefix of the fills. -/
theorem exists_describes (h : a.Before args fs base) {row : Row} (hrow : row ∈ a.state.sent) :
    ∃ p, p <+: fs ∧ Describes p row := by
  obtain ⟨p, hp, hdesc⟩ := Consumer.exists_describes (Delivering.run a.ran) hrow
  exact ⟨p, hp.trans h.fills, hdesc⟩

theorem mem_sent {w : Write Row} (hw : w ∈ a.state.arrived) : w.row ∈ a.state.sent := by
  obtain ⟨i, _, hget⟩ := LastWriter.mem_stampFrom.mp ((Delivering.run a.ran).arrived w hw)
  exact List.mem_of_getElem? hget

/-- **Every key of an attempt is a key of the run that replaces it.** -/
theorem settled_isSome (h : a.Before args fs base) {row : Row} (hrow : row ∈ a.state.sent) :
    (settled (raws args fs) fs row.key).isSome := by
  obtain ⟨tail, htail⟩ := h.fills
  obtain ⟨more, hmore⟩ := (run_issues a.args a.start a.inputs).exists_longer args tail
  have hraws : (a.inputs.map Prod.fst).flatMap (rawRows a.args.rawSink) ++ raws args tail =
      raws args fs := by
    rw [h.sink, ← htail, raws, raws, List.flatMap_append]
  rw [htail, hraws] at hmore
  exact hmore.settled_isSome (List.mem_append_left _ ((Delivering.run a.ran).sent_rows.subset hrow))

theorem stamp_lt (h : a.Before args fs base) {w : Write Row} (hw : w ∈ a.state.arrived) :
    w.stamp < base := by
  obtain ⟨i, hi, hget⟩ := LastWriter.mem_stampFrom.mp ((Delivering.run a.ran).arrived_rows hw)
  have hlt := (List.getElem?_eq_some_iff.mp hget).1
  have hstamps := h.stamps
  omega

end Attempt

/-! ### What has arrived -/

section Arrivals

variable {attempts : List Attempt} {args : Args} {fs : List Fill} {base : ℕ}
  {arrived ws : List (Write Row)}

/-- The stamps tell the writes of the run from those before it. -/
theorem Arrivals.filter_eq (h : Arrivals attempts arrived ws)
    (hattempts : ∀ a ∈ attempts, a.Before args fs base) (hnow : ∀ w ∈ arrived, base ≤ w.stamp) :
    ws.filter (fun w => base ≤ w.stamp) = arrived := by
  induction h with
  | start => rfl
  | now _ w ih =>
    have hw : base ≤ w.stamp := hnow w (List.mem_append_right _ (List.mem_singleton.mpr rfl))
    rw [List.filter_append, ih fun w' hw' => hnow w' (List.mem_append_left _ hw'),
      List.filter_cons_of_pos (by simpa using hw), List.filter_nil]
  | past _ ha hw ih =>
    have hlt := Attempt.stamp_lt (hattempts _ ha) hw
    rw [List.filter_append, ih hnow, List.filter_cons_of_neg (by simpa using hlt), List.filter_nil,
      List.append_nil]

theorem Arrivals.mem (h : Arrivals attempts arrived ws) {w : Write Row} (hw : w ∈ ws) :
    w ∈ arrived ∨ ∃ a ∈ attempts, w ∈ a.state.arrived := by
  induction h with
  | start => cases hw
  | now _ w' ih =>
    rcases List.mem_append.mp hw with hw | hw
    · exact (ih hw).imp_left (List.mem_append_left _)
    · exact Or.inl (List.mem_append_right _ hw)
  | past _ ha hmem ih =>
    rcases List.mem_append.mp hw with hw | hw
    · exact ih hw
    · rw [List.mem_singleton.mp hw]
      exact Or.inr ⟨_, ha, hmem⟩

/-- **The attempts come first.**  The store is what the run makes of what the attempts
    have left, wherever their writes arrive. -/
theorem Arrivals.exists_before {rows : List Row} {maxInflight : ℕ} {d : Delivery}
    (h : Arrivals attempts d.arrived ws) (hattempts : ∀ a ∈ attempts, a.Before args fs base)
    (hd : Delivering maxInflight base rows d) :
    ∃ before : Store RowKey Row, applyAll Row.key emptyStore ws = d.store before ∧
      (∀ k w, before k = some w → w.stamp < base) ∧
      ∀ k row, rowAt before k = some row →
        ∃ a ∈ attempts, row ∈ a.state.sent ∧ row.key = k := by
  have hnow : ∀ w ∈ d.arrived, base ≤ w.stamp := by
    intro w hw
    obtain ⟨i, hi, _⟩ := LastWriter.mem_stampFrom.mp (hd.arrived w hw)
    omega
  refine ⟨applyAll Row.key emptyStore (ws.filter fun w => w.stamp < base), ?_, ?_, ?_⟩
  · rw [LastWriter.applyAll_past_first Row.key base, h.filter_eq hattempts hnow]
    rfl
  · intro k w hw
    have hmem := (LastWriter.applyAll_emptyStore Row.key hw).1
    exact of_decide_eq_true (List.mem_filter.mp hmem).2
  · intro k row hrow
    obtain ⟨w, hw, rfl⟩ := Option.map_eq_some_iff.mp hrow
    obtain ⟨hmem, hkey⟩ := LastWriter.applyAll_emptyStore Row.key hw
    obtain ⟨hws, hlt⟩ := List.mem_filter.mp hmem
    rcases h.mem hws with harrived | ⟨a, ha, harrived⟩
    · exact absurd (hnow w harrived) (not_le.mpr (of_decide_eq_true hlt))
    · exact ⟨a, ha, Attempt.mem_sent harrived, hkey⟩

end Arrivals

/-! ### The run that ends -/

/-- **Recovery.**  A run follows on any attempts over the same fills or the first of
    them, each cut off anywhere, and their writes may arrive at any moment of it:

    * at every moment each row in the tables describes the engine at some prefix of the
      fills;
    * each key holds what the first `j` rows that this run has sent give, or, where these
      have none of the key, one that an attempt has sent; no row of the key from there on
      is acknowledged, so that an acknowledged row is never undone by the past;
    * after the final `drain` a key whose last request has not failed holds exactly what
      the engine's final state gives, as if there had been no attempts, and a key that
      the engine does not give is not there. -/
theorem crash_recovery (attempts : List Attempt) (args : Args) (start : ℚ)
    (inputs : List (Fill × ℚ)) (maxInflight base : ℕ) (events : List Delivery.Event) (d : Delivery)
    (ws : List (Write Row))
    (hattempts : ∀ a ∈ attempts, a.Before args (inputs.map Prod.fst) base)
    (hrun : Delivery.run maxInflight 256 base (run args start inputs) events = some d)
    (hws : Arrivals attempts d.arrived ws) :
    let fs := inputs.map Prod.fst
    let table := rowAt (applyAll Row.key emptyStore ws)
    (∀ key row, table key = some row → row.key = key ∧ ∃ p, p <+: fs ∧ Describes p row) ∧
    (∀ key, ∃ j,
      (table key = lastFor Row.key (d.sent.take j) key ∨
        lastFor Row.key (d.sent.take j) key = none ∧
          ∃ a ∈ attempts, ∃ row ∈ a.state.sent, row.key = key ∧ table key = some row) ∧
      ∀ i row, j ≤ i → d.sent[i]? = some row → row.key = key →
        d.sys.reported i ≠ some .done) ∧
    (d.Finished → ∀ key, ¬d.LastFailed key → table key = settled (raws args fs) fs key) := by
  intro fs table
  have h := Delivering.run hrun
  obtain ⟨before, hstore, holder, hbefore⟩ := hws.exists_before hattempts h
  have htable : table = rowAt (d.store before) := congrArg rowAt hstore
  have hcut : ∀ key, ∃ j,
      (table key = lastFor Row.key (d.sent.take j) key ∨
        lastFor Row.key (d.sent.take j) key = none ∧
          ∃ a ∈ attempts, ∃ row ∈ a.state.sent, row.key = key ∧ table key = some row) ∧
      ∀ i row, j ≤ i → d.sent[i]? = some row → row.key = key →
        d.sys.reported i ≠ some .done := by
    intro key
    obtain ⟨j, hrow, hdone⟩ := h.exists_cut holder key
    refine ⟨j, ?_, hdone⟩
    rw [htable, hrow]
    cases hlast : lastFor Row.key (d.sent.take j) key with
    | some row => exact Or.inl (Option.some_or ..)
    | none =>
      rw [Option.none_or]
      cases hold : rowAt before key with
      | none => exact Or.inl rfl
      | some row =>
        obtain ⟨a, ha, hsent, hkey⟩ := hbefore key row hold
        exact Or.inr ⟨rfl, a, ha, row, hsent, hkey, rfl⟩
  refine ⟨?_, hcut, ?_⟩
  · intro key row hrow
    obtain ⟨j, hfrom, _⟩ := hcut key
    rcases hfrom with hlast | ⟨_, a, ha, row', hsent, hkey, heq⟩
    · obtain ⟨hmem, hkey⟩ := LastWriter.mem_of_lastFor Row.key (hlast.symm.trans hrow)
      exact ⟨hkey, exists_describes h (List.mem_of_mem_take hmem)⟩
    · obtain rfl : row' = row := Option.some.inj (heq.symm.trans hrow)
      exact ⟨hkey, Attempt.exists_describes (hattempts a ha) hsent⟩
  · intro hfinished key hlast
    rw [htable, h.rowAt_of_finished hfinished holder hlast, lastFor_run]
    change (settled (raws args fs) fs key).or _ = _
    -- what an attempt has left under the key, this run has overwritten
    cases hold : rowAt before key with
    | none => exact Option.or_none
    | some row =>
      obtain ⟨a, ha, hsent, rfl⟩ := hbefore key row hold
      have hsome : (settled (raws args fs) fs row.key).isSome :=
        Attempt.settled_isSome (hattempts a ha) hsent
      exact (or_of_isSome hsome _ none).trans Option.or_none

/-- The first row of an attempt arrives after everything else. -/
theorem crash_recovery_late_row :
    ∃ (d : Delivery) (late : Write Row),
      Delivery.run 1 256 6 (run {} 0 [(⟨"w", "BTC", 100, 2, .B, 5000, 0, true⟩, 1),
        (⟨"w", "BTC", 101, 2, .B, 6000, 0, true⟩, 1)]) (Delivery.oneByOne 1 6) = some d ∧
      late.row.fillCount = 1 ∧
      (rowAt (applyAll Row.key emptyStore (d.arrived ++ [late])) (.walletCoin "w" "BTC")).map
        Row.fillCount = some 2 := by
  generalize hinputs : [((⟨"w", "BTC", 100, 2, .B, 5000, 0, true⟩ : Fill), (1 : ℚ)),
    (⟨"w", "BTC", 101, 2, .B, 6000, 0, true⟩, 1)] = inputs
  have hcut : ((Delivery.run 1 256 0 (run {} 0 inputs)
      [.pipe .callExecute, .pipe (.acquire 0), .pipe .send, .arrive 0]).map fun d =>
        d.arrived.map fun w => w.row.fillCount) = some [1] := by
    rw [← hinputs]
    decide +kernel
  have hdone : ((Delivery.run 1 256 6 (run {} 0 inputs) (Delivery.oneByOne 1 6)).any fun d =>
      d.drained && d.sys.producer = .idle && d.sys.failed = 0) = true := by
    rw [← hinputs]
    decide +kernel
  have hlength : (run {} 0 inputs).length = 6 := by
    rw [← hinputs]
    decide +kernel
  have hsettled : (settled (raws {} (inputs.map Prod.fst)) (inputs.map Prod.fst)
      (.walletCoin "w" "BTC")).map Row.fillCount = some 2 := by
    rw [← hinputs]
    decide +kernel
  obtain ⟨state, ran, harrived⟩ := Option.map_eq_some_iff.mp hcut
  obtain ⟨late, hlate, hcount⟩ := List.map_eq_singleton_iff.mp harrived
  obtain ⟨d, hrun, hd⟩ := Option.any_eq_true .. |>.mp hdone
  simp only [Bool.and_eq_true, decide_eq_true_eq] at hd
  obtain ⟨⟨hdrained, hidle⟩, hfailed⟩ := hd
  let attempt : Attempt := { args := {}, start := 0, inputs, maxInflight := 1, base := 0,
                             events := _, state, ran }
  have hnow : ∀ arrived, Arrivals [attempt] arrived arrived := by
    intro arrived
    induction arrived using List.reverseRecOn with
    | nil => exact .start
    | append_singleton arrived w ih => exact ih.now w
  have hbefore : attempt.Before {} (inputs.map Prod.fst) 6 :=
    { fills := List.prefix_refl _, sink := rfl, stamps := ((Nat.zero_add _).trans hlength).le }
  have hmem : late ∈ attempt.state.arrived := hlate ▸ List.mem_singleton_self late
  have hws : Arrivals [attempt] d.arrived (d.arrived ++ [late]) :=
    (hnow d.arrived).past List.mem_cons_self hmem
  have htable := (crash_recovery [attempt] {} 0 inputs 1 6 (Delivery.oneByOne 1 6) d
    (d.arrived ++ [late]) (List.forall_mem_singleton.mpr hbefore) hrun hws).2.2
    ⟨hdrained, hidle⟩ (.walletCoin "w" "BTC") (Delivery.not_lastFailed hfailed _)
  exact ⟨d, late, hrun, hcount, htable ▸ hsettled⟩

end Consumer

end FeatureStore
