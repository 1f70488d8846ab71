/-
  FeatureStore/Loadgen.lean
  =========================
  **The load generator** (`src/feature_store/loadgen.py`).

  A worker loads its share of the rows and writes one row of
  `wallet_coin_features` for each.  In pipeline mode it calls `execute` and then
  `drain` of its `Pipeline` and reports what the callbacks have counted; in
  concurrent mode it hands all its parameters to a helper of the driver and
  counts the results that come back.

  Both modes bind the same parameters (`PipelineWorker.issued_eq`).  A callback
  counts a request as a write or as an error, while the other loop counts every
  result as a write, so that the reports differ as soon as a request fails
  (`write_modes_agree_iff`).
-/
import FeatureStore.Blaster
import FeatureStore.DrainAccounting
import FeatureStore.Firehose

namespace FeatureStore

/-! ### Loading -/

/-- The local variables of the loading loop. -/
structure Loading where
  rows : List BlastRow := []
  sampleKeys : List (String × String) := []
  gi : ℕ := 0

def Loading.step (wid procs : ℕ) (self : Loading) (row : RawRow) : Loading :=
  let gi := self.gi + 1
  if self.gi % procs = wid then
    let rows := self.rows ++ [BlastRow.load row.fill]
    if self.sampleKeys.length < 2000 ∧ rows.length % 53 = 0 then
      { rows, sampleKeys := self.sampleKeys ++ [(row.addr, row.coin)], gi }
    else { self with rows, gi }
  else { self with gi }

/-- What a worker loads of the files, each given as the rows that `read_parquet`
    returns. -/
def load (wid procs : ℕ) (files : List (List RawRow)) : Loading :=
  files.foldl (fun self file => file.foldl (Loading.step wid procs) self) {}

/-! ### The write loops -/

/-- What a worker puts into the queue, without its latencies and keys. -/
structure Report where
  writes : ℕ := 0
  errors : ℕ := 0
deriving DecidableEq, Repr

/-- The parameters of concurrent mode: `(a, c, net, px, cpnl, i + 1, ts)`. -/
def concurrentParams (rows : List BlastRow) : List Row :=
  rows.zipIdx.map fun entry => entry.1.write (entry.2 + 1)

/-- The loop over the `(ok, _)` pairs. -/
def concurrentReport (results : List Bool) : Report :=
  results.foldl (fun report ok =>
    let n := report.writes + 1
    if !ok then { writes := n, errors := report.errors + 1 } else { report with writes := n }) {}

/-- `execute_concurrent_with_args`, which is part of the driver: it yields one
    `(ok, _)` for each tuple of parameters, in their order. -/
structure ConcurrentHelper where
  results : List Row → List Outcome → List Bool
  results_eq : ∀ params outcomes, outcomes.length = params.length →
    results params outcomes = outcomes.map fun o => decide (o = .done)

/-- A worker in pipeline mode, with its pipeline and the driver. -/
structure PipelineWorker where
  sys : System
  todo : List BlastRow
  fc : ℕ := 0
  issued : List Row := []
  drained : Bool := false

namespace PipelineWorker

/-- Before the loop. -/
def init (maxInflight : ℕ) (rows : List BlastRow) : PipelineWorker :=
  { sys := System.init maxInflight 512, todo := rows }

/-- One step of the worker or of the driver.  The worker calls `execute` while it
    has rows, and then `drain`; an exception of `execute_async` ends it without a
    report. -/
def step (maxInflight : ℕ) (self : PipelineWorker) (a : Action) : Option PipelineWorker :=
  match a with
  | .callExecute =>
      match self.todo with
      | [] => none
      | row :: todo =>
          let fc := self.fc + 1
          (self.sys.step a).map fun sys =>
            { self with sys, todo, fc, issued := self.issued ++ [row.write fc] }
  | .callDrain m =>
      if self.todo = [] ∧ m = maxInflight ∧ self.drained = false then
        (self.sys.step a).map fun sys => { self with sys, drained := true }
      else none
  | .sendRaises => none
  | _ => (self.sys.step a).map fun sys => { self with sys }

def run (maxInflight : ℕ) (rows : List BlastRow) (actions : List Action) : Option PipelineWorker :=
  Runs.run (step maxInflight) (init maxInflight rows) actions

/-- How the requests have ended, in their order. -/
def outcomes (self : PipelineWorker) : List Outcome :=
  self.sys.requests.filterMap fun r => r.stage.outcome?

def report (self : PipelineWorker) : Report where
  writes := self.sys.pipe.count
  errors := self.sys.pipe.errors

/-- `drain` has returned, and all callbacks are through. -/
structure Finished (w : PipelineWorker) : Prop where
  drained : w.drained = true
  idle : w.sys.producer = .idle
  counted : ∀ r ∈ w.sys.requests, ∃ o, r.stage = .counted o

/-- The worker has taken a row, or nothing has changed for its loop. -/
def Taken (self self' : PipelineWorker) (a : Action) : Prop :=
  (a = .callExecute ∧ ∃ row, self.todo = row :: self'.todo ∧ self'.fc = self.fc + 1 ∧
    self'.issued = self.issued ++ [row.write (self.fc + 1)] ∧ self'.drained = self.drained) ∨
  (a ≠ .callExecute ∧ self'.todo = self.todo ∧ self'.fc = self.fc ∧
    self'.issued = self.issued ∧ (self'.drained = self.drained ∨ self.todo = []))

/-- **What a step does.** -/
theorem step_cases {maxInflight : ℕ} {self self' : PipelineWorker} {a : Action}
    (h : self.step maxInflight a = some self') :
    self.sys.step a = some self'.sys ∧ a ≠ .sendRaises ∧ Taken self self' a := by
  cases a with
  | callExecute =>
    simp only [step] at h
    split at h
    · cases h
    · rename_i row todo htodo
      obtain ⟨sys, hsys, rfl⟩ := Option.map_eq_some_iff.mp h
      exact ⟨hsys, by simp, Or.inl ⟨rfl, row, htodo, rfl, rfl, rfl⟩⟩
  | callDrain m =>
    simp only [step] at h
    split at h
    · rename_i hcond
      obtain ⟨sys, hsys, rfl⟩ := Option.map_eq_some_iff.mp h
      exact ⟨hsys, by simp, Or.inr ⟨by simp, rfl, rfl, rfl, Or.inr hcond.1⟩⟩
    · cases h
  | sendRaises => cases h
  | _ =>
    obtain ⟨sys, hsys, rfl⟩ := Option.map_eq_some_iff.mp h
    exact ⟨hsys, by simp, Or.inr ⟨by simp, rfl, rfl, rfl, Or.inl rfl⟩⟩

end PipelineWorker

theorem System.raised_step {s s' : System} {a : Action} (hstep : s.step a = some s')
    (ha : a ≠ .sendRaises) : s'.raised = s.raised := by
  cases effect_of_step hstep with
  | sendRaises t0 hp => exact absurd rfl ha
  | _ => rfl

theorem concurrentParams_snoc (rows : List BlastRow) (row : BlastRow) :
    concurrentParams (rows ++ [row]) = concurrentParams rows ++ [row.write (rows.length + 1)] := by
  simp [concurrentParams, List.zipIdx_append]

namespace PipelineWorker

variable {maxInflight : ℕ} {rows : List BlastRow}

/-- After the actions of `past`, the rows that the loop has taken have been bound
    with consecutive numbers. -/
structure Looping (maxInflight : ℕ) (rows : List BlastRow) (past : List Action)
    (w : PipelineWorker) : Prop where
  reached : (System.init maxInflight 512).run past = some w.sys
  numbered : calls past = w.fc
  issued : ∃ done, rows = done ++ w.todo ∧ done.length = w.fc ∧ w.issued = concurrentParams done
  raised : w.sys.raised = 0
  drained : w.drained = true → w.todo = []

theorem looping_init : Looping maxInflight rows [] (init maxInflight rows) :=
  ⟨rfl, rfl, ⟨[], rfl, rfl, rfl⟩, rfl, fun h => absurd h Bool.false_ne_true⟩

theorem looping_step {past : List Action} {w w' : PipelineWorker} {a : Action}
    (h : Looping maxInflight rows past w) (hstep : w.step maxInflight a = some w') :
    Looping maxInflight rows (past ++ [a]) w' := by
  obtain ⟨hsys, hraises, htaken⟩ := step_cases hstep
  have hreached : (System.init maxInflight 512).run (past ++ [a]) = some w'.sys := by
    refine (Runs.run_append System.step).mpr ⟨w.sys, h.reached, ?_⟩
    exact (Runs.run_cons System.step).mpr ⟨w'.sys, hsys, rfl⟩
  have hraised : w'.sys.raised = 0 := (System.raised_step hsys hraises).trans h.raised
  obtain ⟨done, hrows, hlen, hissued⟩ := h.issued
  rcases htaken with ⟨rfl, row, htodo, hfc, hissued', hdrained⟩ |
    ⟨ha, htodo, hfc, hissued', hdrained⟩
  · refine ⟨hreached, ?_, ⟨done ++ [row], ?_, ?_, ?_⟩, hraised, ?_⟩
    · rw [System.calls_snoc, h.numbered, if_pos rfl, hfc]
    · rw [hrows, htodo, List.append_assoc, List.singleton_append]
    · rw [List.length_append, hlen, hfc, List.length_singleton]
    · rw [hissued', hissued, concurrentParams_snoc, hlen]
    · intro hd
      have hnil := h.drained (hdrained ▸ hd)
      rw [htodo] at hnil
      cases hnil
  · refine ⟨hreached, ?_, ⟨done, htodo ▸ hrows, hfc ▸ hlen, hissued' ▸ hissued⟩, hraised, ?_⟩
    · rw [System.calls_snoc, h.numbered, if_neg ha, hfc, add_zero]
    · rw [htodo]
      rcases hdrained with hdrained | hnil
      · exact hdrained ▸ h.drained
      · exact fun _ => hnil

theorem looping_run {actions : List Action} {w : PipelineWorker}
    (hrun : run maxInflight rows actions = some w) : Looping maxInflight rows actions w :=
  Runs.run_history (step maxInflight) (fun _ _ _ _ hw hstep => looping_step hw hstep) []
    looping_init hrun

/-- **Pipeline mode binds what concurrent mode binds**, when it is through. -/
theorem Looping.issued_eq {past : List Action} {w : PipelineWorker}
    (h : Looping maxInflight rows past w) (hfin : w.Finished) :
    w.issued = concurrentParams rows ∧ calls past = rows.length := by
  obtain ⟨done, hrows, hlen, hissued⟩ := h.issued
  rw [h.drained hfin.drained, List.append_nil] at hrows
  subst hrows
  exact ⟨hissued, h.numbered.trans hlen.symm⟩

/-- The outcomes of the requests, counted. -/
theorem Finished.count_outcomes {w : PipelineWorker} (h : w.Finished) (o : Outcome) :
    w.sys.tally (fun r => r.stage = .counted o) = w.outcomes.count o := by
  have hcounted := h.counted
  unfold System.tally outcomes
  generalize w.sys.requests = requests at hcounted
  induction requests with
  | nil => rfl
  | cons r requests ih =>
    obtain ⟨o', hr⟩ := hcounted r List.mem_cons_self
    have hrest := ih fun r' hr' => hcounted r' (List.mem_cons_of_mem r hr')
    rw [List.filterMap_cons, hr]
    simp only [Stage.outcome?, List.countP_cons, List.count_cons, hrest, hr, Stage.counted.injEq,
      decide_eq_true_eq, beq_iff_eq]

theorem Finished.length_outcomes {w : PipelineWorker} (h : w.Finished) :
    w.outcomes.length = w.sys.requests.length := by
  rw [outcomes, List.length_filterMap_eq_countP, List.countP_eq_length]
  intro r hr
  obtain ⟨o, ho⟩ := h.counted r hr
  rw [ho]
  rfl

/-- **The report of pipeline mode**: the requests that succeeded, and those that
    failed. -/
theorem Finished.report_eq {past : List Action} {w : PipelineWorker} (h : w.Finished)
    (hloop : Looping maxInflight rows past w) :
    w.report = ⟨w.outcomes.count .done, w.outcomes.count .err⟩ ∧
      w.outcomes.length = rows.length := by
  have haccounted := System.accounted_run (System.accounted_init maxInflight 512) hloop.reached
  have hcalled := System.called_run (System.called_init maxInflight 512) hloop.reached
  refine ⟨?_, ?_⟩
  · rw [report, haccounted.count, haccounted.errors, h.count_outcomes, h.count_outcomes]
  · rw [h.length_outcomes, hcalled.length_eq h.idle hloop.raised, List.nil_append]
    exact (hloop.issued_eq h).2

end PipelineWorker

/-- The loop of concurrent mode counts the results. -/
theorem concurrentReport_eq (results : List Bool) :
    concurrentReport results = ⟨results.length, results.count false⟩ := by
  have h : ∀ report : Report,
      results.foldl (fun report ok =>
        let n := report.writes + 1
        if !ok then { writes := n, errors := report.errors + 1 }
        else { report with writes := n }) report =
      ⟨report.writes + results.length, report.errors + results.count false⟩ := by
    induction results with
    | nil => exact fun report => rfl
    | cons ok results ih =>
      intro report
      rw [List.foldl_cons, ih]
      cases ok <;> simp [Nat.add_comm, Nat.add_left_comm]
  exact (h {}).trans (by rw [Nat.zero_add, Nat.zero_add])

/-- What concurrent mode reports of requests that end as given. -/
theorem ConcurrentHelper.report_eq (helper : ConcurrentHelper) {params : List Row}
    {outcomes : List Outcome} (h : outcomes.length = params.length) :
    concurrentReport (helper.results params outcomes) =
      ⟨outcomes.length, outcomes.count .err⟩ := by
  rw [helper.results_eq params outcomes h, concurrentReport_eq, List.length_map]
  congr 1
  rw [List.count_eq_countP, List.count_eq_countP, List.countP_map]
  refine List.countP_congr fun o _ => ?_
  cases o <;> simp

/-- **When the two write modes agree.**  For any rows, and any run of pipeline
    mode to its end, concurrent mode binds the same parameters; and on requests
    that end in the same way it makes the same report, and reports the number of
    acknowledged requests, if and only if no request has failed. -/
theorem write_modes_agree_iff (helper : ConcurrentHelper) (maxInflight : ℕ) (rows : List BlastRow)
    (actions : List Action) (w : PipelineWorker)
    (hrun : PipelineWorker.run maxInflight rows actions = some w) (hfin : w.Finished) :
    let concurrent := concurrentReport (helper.results (concurrentParams rows) w.outcomes)
    w.issued = concurrentParams rows ∧
    (w.report = concurrent ∧ w.report.writes = w.outcomes.count .done ∧
        concurrent.writes = w.outcomes.count .done ↔
      ∀ o ∈ w.outcomes, o = .done) := by
  intro concurrent
  have hloop := PipelineWorker.looping_run hrun
  obtain ⟨hreport, hlength⟩ := hfin.report_eq hloop
  have hparams : w.outcomes.length = (concurrentParams rows).length := by
    rw [hlength, concurrentParams, List.length_map, List.length_zipIdx]
  have hconcurrent : concurrent = ⟨w.outcomes.length, w.outcomes.count .err⟩ :=
    helper.report_eq hparams
  have hall : w.outcomes.count .done = w.outcomes.length ↔ ∀ o ∈ w.outcomes, o = .done := by
    rw [List.count_eq_length]
    exact forall₂_congr fun o _ => eq_comm
  refine ⟨(hloop.issued_eq hfin).1, ?_⟩
  rw [hreport, hconcurrent, ← hall]
  constructor
  · exact fun h => h.2.2.symm
  · exact fun h => ⟨by rw [h], rfl, h.symm⟩

/-- One row, its request, and `drain(1)`. -/
def oneRequest (o : Outcome) : List Action :=
  [.callExecute, .acquire 0, .send, .register, .release 0 o, .ret, .account 0 0, .callDrain 1,
    .drainAcquire, .drainRelease]

def oneRow : List BlastRow := [⟨"v", "BTC", 1, 100, 0, 0⟩]

/-- The helper as it is documented. -/
def documented : ConcurrentHelper where
  results _ outcomes := outcomes.map fun o => decide (o = .done)
  results_eq _ _ _ := rfl

/-- A request that fails is a write for concurrent mode. -/
theorem failed_request_counted :
    ¬∀ (helper : ConcurrentHelper) (maxInflight : ℕ) (rows : List BlastRow) (actions : List Action)
      (w : PipelineWorker), PipelineWorker.run maxInflight rows actions = some w → w.Finished →
      w.issued = concurrentParams rows ∧
      w.report = concurrentReport (helper.results (concurrentParams rows) w.outcomes) := by
  intro h
  have hagree := (h documented 1 oneRow (oneRequest .err) _ rfl
    ⟨rfl, rfl, fun r hr => ⟨.err, congrArg Request.stage (List.mem_singleton.mp hr)⟩⟩).2
  revert hagree
  decide +kernel

/-- Two requests in flight at once, the second of which is answered first, and
    `drain(2)`. -/
def twoRequests (o : Outcome) : List Action :=
  [.callExecute, .acquire 0, .send, .register, .ret, .callExecute, .acquire 0, .send, .register,
    .ret, .release 1 o, .account 1 0, .release 0 .done, .account 0 0, .callDrain 2,
    .drainAcquire, .drainAcquire, .drainRelease, .drainRelease]

theorem exists_twoRequests (o : Outcome) :
    ∃ w, PipelineWorker.run 2 twoRows (twoRequests o) = some w ∧ w.Finished ∧
      w.outcomes = [.done, o] := by
  have hrun : ((PipelineWorker.run 2 twoRows (twoRequests o)).any fun w =>
      w.drained ∧ w.sys.producer = .idle ∧
        w.sys.requests.map Request.stage = [.counted .done, .counted o] ∧
        w.outcomes = [.done, o]) = true := by
    cases o <;> decide +kernel
  obtain ⟨w, hrun, hw⟩ := Option.any_eq_true .. |>.mp hrun
  obtain ⟨hdrained, hidle, hstages, houtcomes⟩ := of_decide_eq_true hw
  refine ⟨w, hrun, ⟨hdrained, hidle, fun r hr => ?_⟩, houtcomes⟩
  have hstage := hstages ▸ List.mem_map_of_mem (f := Request.stage) hr
  rcases List.mem_pair.mp hstage with h | h
  · exact ⟨.done, h⟩
  · exact ⟨o, h⟩

/-- The reports agree when both requests succeed, and not when the second fails. -/
theorem write_modes_agree_iff_two_requests :
    (∃ w, PipelineWorker.run 2 twoRows (twoRequests .done) = some w ∧
      w.report = concurrentReport (documented.results (concurrentParams twoRows) w.outcomes)) ∧
    ∃ w, PipelineWorker.run 2 twoRows (twoRequests .err) = some w ∧
      w.issued = concurrentParams twoRows ∧
      let concurrent :=
        concurrentReport (documented.results (concurrentParams twoRows) w.outcomes)
      ¬(w.report = concurrent ∧ w.report.writes = 1 ∧ concurrent.writes = 1) := by
  constructor
  · obtain ⟨w, hrun, hfin, houtcomes⟩ := exists_twoRequests .done
    have hiff := (write_modes_agree_iff documented 2 twoRows _ w hrun hfin).2
    have hdone : ∀ o ∈ w.outcomes, o = .done := by
      rw [houtcomes]
      decide
    exact ⟨w, hrun, (hiff.mpr hdone).1⟩
  · obtain ⟨w, hrun, hfin, houtcomes⟩ := exists_twoRequests .err
    obtain ⟨hissued, hiff⟩ := write_modes_agree_iff documented 2 twoRows _ w hrun hfin
    have hcount : w.outcomes.count .done = 1 := by
      rw [houtcomes]
      decide
    rw [hcount] at hiff
    refine ⟨w, hrun, hissued, fun hsame => ?_⟩
    have hdone := hiff.mp hsame
    rw [houtcomes] at hdone
    revert hdone
    decide

end FeatureStore
