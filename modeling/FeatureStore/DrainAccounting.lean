/-
  FeatureStore/DrainAccounting.lean
  =================================
  **What the totals say after `drain`.**

  A callback releases the gate first and does the accounting second.  `drain`
  waits for permits, so that when it returns every callback has released, but a
  callback may still stand before its locked update.  The totals then omit its
  request (`drain_omits_request`).  They are right exactly when no callback
  stands there (`drained_totals_iff`), and `halfFinished` counts those that do.
-/
import FeatureStore.PermitConservation

namespace FeatureStore

/-- The callback that is running or has run, if any. -/
def Stage.outcome? : Stage → Option Outcome
  | .waiting => none
  | .released o => some o
  | .counted o => some o

/-- The callback has released the gate and has not done the accounting. -/
def Stage.isReleased : Stage → Bool
  | .released _ => true
  | _ => false

/-- The action is a call of `execute` or `drain`. -/
def Action.isCall : Action → Bool
  | .callExecute => true
  | .callDrain _ => true
  | _ => false

/-- A call of `execute` whose request is not registered yet. -/
def Producer.pending : Producer → ℕ
  | .acquiring => 1
  | .sending _ => 1
  | .registering _ => 1
  | _ => 0

@[simp] theorem Producer.pending_idle : idle.pending = 0 := rfl

@[simp] theorem Producer.pending_draining (m k : ℕ) : (draining m k).pending = 0 := rfl

@[simp] theorem Producer.pending_unwinding (m k : ℕ) : (unwinding m k).pending = 0 := rfl

@[simp] theorem Producer.pending_secondLoop (m k : ℕ) : (secondLoop m k).pending = 0 := by
  rcases secondLoop_cases m k with ⟨_, heq⟩ | ⟨_, heq⟩ <;> rw [heq] <;> rfl

@[simp] theorem Producer.pending_firstLoop (m k : ℕ) : (firstLoop m k).pending = 0 := by
  rcases firstLoop_cases m k with ⟨_, heq⟩ | ⟨_, heq⟩ <;> rw [heq]
  · rfl
  · exact pending_secondLoop m 0

/-- The number of `execute` calls. -/
def calls (actions : List Action) : ℕ := actions.countP fun a => a = .callExecute

namespace System

/-- The registered requests that satisfy `p`. -/
def tally (s : System) (p : Request → Bool) : ℕ := s.requests.countP p

def succeeded (s : System) : ℕ := s.tally fun r => r.stage.outcome? = some .done

def failed (s : System) : ℕ := s.tally fun r => r.stage.outcome? = some .err

/-- The successes whose latency is sampled. -/
def sampledSucceeded (s : System) : ℕ :=
  s.tally fun r => r.t0.isSome && r.stage.outcome? = some .done

/-- The callbacks between `gate.release()` and their locked update. -/
def halfFinished (s : System) : ℕ := s.tally fun r => r.stage.isReleased

/-- The totals that are reported after `drain` are those of `n` calls: no request
    is omitted from `count`, `errors` or the latency samples. -/
structure Totals (s : System) (n : ℕ) : Prop where
  count : s.pipe.count = s.succeeded
  errors : s.pipe.errors = s.failed
  total : s.pipe.count + s.pipe.errors = n
  samples : s.pipe.latencies.length = min LATENCIES_MAXLEN s.sampledSucceeded

/-! ### What has been counted -/

/-- The totals count the callbacks that are through. -/
structure Accounted (s : System) : Prop where
  count : s.pipe.count = s.tally fun r => r.stage = .counted .done
  errors : s.pipe.errors = s.tally fun r => r.stage = .counted .err
  samples : s.pipe.latencies.length =
    min LATENCIES_MAXLEN (s.tally fun r => r.t0.isSome && r.stage = .counted .done)

/-- The predicate looks at callbacks that are through only. -/
def Through (p : Request → Bool) : Prop :=
  ∀ t0, p ⟨t0, .waiting⟩ = false ∧ ∀ o, p ⟨t0, .released o⟩ = false

/-- **What a step does to the totals.**  It leaves them and what is through
    alone, or it is the second step of one callback. -/
theorem totals_cases {s s' : System} {a : Action} (hstep : s.step a = some s') :
    (s'.pipe.count = s.pipe.count ∧ s'.pipe.errors = s.pipe.errors ∧
      s'.pipe.latencies = s.pipe.latencies ∧ ∀ p, Through p → s'.tally p = s.tally p) ∨
    (∃ t0 now, s'.pipe = s.pipe.countDone t0 now ∧ ∀ p, Through p →
      s'.tally p = s.tally p + if p ⟨t0, .counted .done⟩ then 1 else 0) ∨
    (∃ t0, s'.pipe = s.pipe.countErr ∧ ∀ p, Through p →
      s'.tally p = s.tally p + if p ⟨t0, .counted .err⟩ then 1 else 0) := by
  cases effect_of_step hstep with
  | register t0 hp =>
    refine Or.inl ⟨rfl, rfl, rfl, ?_⟩
    intro p hthrough
    simp [tally, (hthrough t0).1]
  | release r o t0 hr =>
    refine Or.inl ⟨rfl, rfl, rfl, ?_⟩
    intro p hthrough
    have hset := Runs.countP_set_add (p := p) (b := ⟨t0, .released o⟩) hr
    simpa [tally, (hthrough t0).1, (hthrough t0).2] using hset
  | accountDone r now t0 hr =>
    refine Or.inr (Or.inl ⟨t0, now, rfl, ?_⟩)
    intro p hthrough
    have hset := Runs.countP_set_add (p := p) (b := ⟨t0, .counted .done⟩) hr
    simpa [tally, (hthrough t0).2] using hset
  | accountErr r now t0 hr =>
    refine Or.inr (Or.inr ⟨t0, rfl, ?_⟩)
    intro p hthrough
    have hset := Runs.countP_set_add (p := p) (b := ⟨t0, .counted .err⟩) hr
    simpa [tally, (hthrough t0).2] using hset
  | _ => exact Or.inl ⟨rfl, rfl, rfl, fun _ _ => rfl⟩

theorem accounted_init (maxInflight sampleEvery : ℕ) : Accounted (init maxInflight sampleEvery) :=
  ⟨rfl, rfl, rfl⟩

theorem accounted_step {s s' : System} {a : Action} (h : Accounted s)
    (hstep : s.step a = some s') : Accounted s' := by
  obtain ⟨hcount, herrors, hsamples⟩ := h
  have hdone : Through fun r => r.stage = .counted .done := fun t0 => ⟨rfl, fun o => rfl⟩
  have herr : Through fun r => r.stage = .counted .err := fun t0 => ⟨rfl, fun o => rfl⟩
  have hsampled : Through fun r => r.t0.isSome && r.stage = .counted .done := by
    intro t0
    simp
  rcases totals_cases hstep with ⟨hc, he, hl, htally⟩ | ⟨t0, now, hpipe, htally⟩ |
    ⟨t0, hpipe, htally⟩
  · exact ⟨by rw [hc, hcount, htally _ hdone], by rw [he, herrors, htally _ herr],
      by rw [hl, hsamples, htally _ hsampled]⟩
  · refine ⟨?_, ?_, ?_⟩
    · rw [htally _ hdone, hpipe, ← hcount]
      rfl
    · rw [htally _ herr, hpipe, ← herrors]
      rfl
    · rw [htally _ hsampled, hpipe]
      cases t0 with
      | none => simpa [Pipeline.countDone] using hsamples
      | some t0 =>
        simp only [Pipeline.countDone, length_appendBounded, hsamples, Option.isSome_some,
          decide_true, Bool.and_self, if_true]
        omega
  · refine ⟨?_, ?_, ?_⟩
    · rw [htally _ hdone, hpipe, ← hcount]
      rfl
    · rw [htally _ herr, hpipe, ← herrors]
      rfl
    · rw [htally _ hsampled, hpipe]
      simpa [Pipeline.countErr] using hsamples

theorem accounted_run {s s' : System} {actions : List Action} (h : Accounted s)
    (hrun : s.run actions = some s') : Accounted s' :=
  Runs.run_invariant step (p := fun _ => True)
    (fun _ _ _ _ hs hstep => accounted_step hs hstep) (fun _ _ => trivial) h hrun

/-! ### How many calls there were -/

/-- Every call has a registered request, is still running, or was ended by an
    exception. -/
def Called (past : List Action) (s : System) : Prop :=
  s.requests.length + s.producer.pending + s.raised = calls past

theorem calls_snoc (past : List Action) (a : Action) :
    calls (past ++ [a]) = calls past + if a = .callExecute then 1 else 0 := by
  simp [calls, List.countP_append, List.countP_singleton]

theorem calls_append (past actions : List Action) :
    calls (past ++ actions) = calls past + calls actions :=
  List.countP_append

theorem calls_of_ne {actions : List Action} (h : ∀ a ∈ actions, a ≠ .callExecute) :
    calls actions = 0 := by
  rw [calls, List.countP_eq_zero]
  intro a ha heq
  exact h a ha (of_decide_eq_true heq)

theorem ne_of_not_isCall {a : Action} (h : a.isCall = false) : a ≠ .callExecute := by
  intro heq
  rw [heq] at h
  cases h

theorem called_step {past : List Action} {s s' : System} {a : Action} (h : Called past s)
    (hstep : s.step a = some s') : Called (past ++ [a]) s' := by
  rw [Called] at h
  rw [Called, calls_snoc, ← h]
  cases effect_of_step hstep with
  | callExecute hp =>
    simp only [hp, Producer.pending, if_true]
    omega
  | sendRaises t0 hp =>
    simp only [hp, Producer.pending, reduceCtorEq, if_false]
    omega
  | register t0 hp => simp [hp, Producer.pending]
  | acquire now hp hgate => simp [hp, Producer.pending]
  | send t0 hp => simp [hp, Producer.pending]
  | ret hp => simp [hp, Producer.pending]
  | callDrain m hp => simp [hp]
  | drainAcquire m k hp hgate => simp [hp]
  | drainRelease m k hp => simp [hp]
  | release r o t0 hr => simp
  | accountDone r now t0 hr => simp
  | accountErr r now t0 hr => simp

theorem called_init (maxInflight sampleEvery : ℕ) : Called [] (init maxInflight sampleEvery) := rfl

theorem called_run {past actions : List Action} {s s' : System} (h : Called past s)
    (hrun : s.run actions = some s') : Called (past ++ actions) s' :=
  Runs.run_history step (fun _ _ _ _ hs hstep => called_step hs hstep) past h hrun

theorem Called.length_eq {past : List Action} {s : System} (h : Called past s)
    (hidle : s.producer = .idle) (hraised : s.raised = 0) : s.requests.length = calls past := by
  rw [Called, hidle, hraised] at h
  exact h

/-! ### After `drain` -/

/-- No request is waiting, and none has been lost. -/
structure Settled (s : System) : Prop where
  waiting : s.waiting = 0
  raised : s.raised = 0

/-- The producer is in the first loop of `drain(m)`, or past it with nothing
    outstanding. -/
def AfterDrain (m : ℕ) (s : System) : Prop :=
  (∃ k, s.producer = .draining m k) ∨
    (((∃ k, s.producer = .unwinding m k) ∨ s.producer = .idle) ∧ Settled s)

/-- When all permits are held, nothing is outstanding. -/
theorem settled_of_held {maxInflight : ℕ} {s : System} (h : Conserved maxInflight s)
    (hheld : s.producer.held = maxInflight) : Settled s := by
  have hpermits := h.permits
  rw [hheld, outstanding] at hpermits
  exact ⟨by omega, by omega⟩

theorem afterDrain_of_firstLoop {maxInflight : ℕ} {s : System} (h : Conserved maxInflight s) {k : ℕ}
    (hk : k ≤ maxInflight) (hp : s.producer = .firstLoop maxInflight k) :
    AfterDrain maxInflight s := by
  rcases Producer.firstLoop_cases maxInflight k with ⟨_, heq⟩ | ⟨hle, heq⟩
  · exact Or.inl ⟨k, hp.trans heq⟩
  · have hheld : s.producer.held = maxInflight := by
      rw [hp, (Producer.firstLoop_spec hk).1]
      omega
    refine Or.inr ⟨?_, settled_of_held h hheld⟩
    rcases Producer.secondLoop_cases maxInflight 0 with ⟨_, heq'⟩ | ⟨_, heq'⟩
    · exact Or.inl ⟨0, hp.trans (heq.trans heq')⟩
    · exact Or.inr (hp.trans (heq.trans heq'))

theorem afterDrain_step {maxInflight : ℕ} {s s' : System} {a : Action}
    (hconserved : Conserved maxInflight s) (h : AfterDrain maxInflight s) (ha : a.isCall = false)
    (hstep : s.step a = some s') : AfterDrain maxInflight s' := by
  have hconserved' := conserved_step hconserved hstep
  -- a step of `execute` cannot be the next one
  have hplace : (∃ k, s.producer = .draining maxInflight k) ∨
      (∃ k, s.producer = .unwinding maxInflight k) ∨ s.producer = .idle := by
    rcases h with hdrain | ⟨hplace, _⟩
    · exact Or.inl hdrain
    · exact Or.inr hplace
  cases effect_of_step hstep with
  | callExecute hp => cases ha
  | callDrain m hp => cases ha
  | acquire now hp hgate => simp [hp] at hplace
  | send t0 hp => simp [hp] at hplace
  | sendRaises t0 hp => simp [hp] at hplace
  | register t0 hp => simp [hp] at hplace
  | ret hp => simp [hp] at hplace
  | drainAcquire m k hp hgate =>
    have hbounded := hconserved.bounded
    rw [hp] at hplace hbounded
    obtain ⟨k', heq⟩ | ⟨k', heq⟩ | heq := hplace
    · obtain ⟨rfl, rfl⟩ := Producer.draining.inj heq
      exact afterDrain_of_firstLoop hconserved' (Nat.succ_le_of_lt hbounded) rfl
    · cases heq
    · cases heq
  | drainRelease m k hp =>
    rw [hp] at hplace
    obtain ⟨k', heq⟩ | ⟨k', heq⟩ | heq := hplace
    · cases heq
    · obtain ⟨rfl, rfl⟩ := Producer.unwinding.inj heq
      rcases h with ⟨k', hdrain⟩ | ⟨_, hsettled⟩
      · rw [hp] at hdrain
        cases hdrain
      · refine Or.inr ⟨?_, ⟨hsettled.waiting, hsettled.raised⟩⟩
        rcases Producer.secondLoop_cases m (k + 1) with ⟨_, heq'⟩ | ⟨_, heq'⟩
        · exact Or.inl ⟨k + 1, heq'⟩
        · exact Or.inr heq'
    · cases heq
  | release r o t0 hr =>
    have hdecr := waiting_release (o := o) hr
    rcases h with hdrain | ⟨_, hwaiting, _⟩
    · exact Or.inl hdrain
    · omega
  | accountDone r now t0 hr =>
    rcases h with hdrain | ⟨hplace, hwaiting, hraised⟩
    · exact Or.inl hdrain
    · exact Or.inr ⟨hplace, (waiting_account hr).trans hwaiting, hraised⟩
  | accountErr r now t0 hr =>
    rcases h with hdrain | ⟨hplace, hwaiting, hraised⟩
    · exact Or.inl hdrain
    · exact Or.inr ⟨hplace, (waiting_account hr).trans hwaiting, hraised⟩

/-- **When `drain(max_inflight)` has returned**, nothing is outstanding. -/
theorem settled_of_drain {maxInflight : ℕ} {start s : System} {after : List Action}
    (hstart : Conserved maxInflight start)
    (hrun : start.run (.callDrain maxInflight :: after) = some s)
    (hafter : ∀ a ∈ after, a.isCall = false) (hidle : s.producer = .idle) : Settled s := by
  obtain ⟨mid, hcall, hrest⟩ := (Runs.run_cons step).mp hrun
  have hmid : Conserved maxInflight mid := conserved_step hstart hcall
  have hloop : mid.producer = .firstLoop maxInflight 0 := by
    cases effect_of_step hcall with
    | callDrain m hp => rfl
  obtain ⟨_, hend⟩ :=
    Runs.run_invariant step (I := fun s => Conserved maxInflight s ∧ AfterDrain maxInflight s)
      (fun _ _ _ ha hs hstep => ⟨conserved_step hs.1 hstep, afterDrain_step hs.1 hs.2 ha hstep⟩)
      hafter ⟨hmid, afterDrain_of_firstLoop hmid (Nat.zero_le _) hloop⟩ hrest
  rcases hend with ⟨k, hdraining⟩ | ⟨_, hsettled⟩
  · rw [hidle] at hdraining
    cases hdraining
  · exact hsettled

/-- Nothing is left to do but to read the totals. -/
structure Quiet (s : System) : Prop extends Settled s where
  idle : s.producer = .idle
  halfFinished : s.halfFinished = 0

/-- Without a further call, nothing happens any more. -/
theorem quiet_step {s s' : System} {a : Action} (h : Quiet s) (ha : a.isCall = false)
    (hstep : s.step a = some s') : Quiet s' := by
  have hreleased : ∀ (r : ℕ) (t0 : Option ℚ) (o : Outcome),
      s.requests[r]? ≠ some ⟨t0, .released o⟩ := by
    intro r t0 o hr
    have hnone := List.countP_eq_zero.mp h.halfFinished _ (List.mem_of_getElem? hr)
    exact hnone rfl
  have hidle := h.idle
  cases effect_of_step hstep with
  | callExecute hp => cases ha
  | callDrain m hp => cases ha
  | acquire now hp hgate => simp [hp] at hidle
  | send t0 hp => simp [hp] at hidle
  | sendRaises t0 hp => simp [hp] at hidle
  | register t0 hp => simp [hp] at hidle
  | ret hp => simp [hp] at hidle
  | drainAcquire m k hp hgate => simp [hp] at hidle
  | drainRelease m k hp => simp [hp] at hidle
  | release r o t0 hr =>
    have hdecr := waiting_release (o := o) hr
    have hwaiting := h.waiting
    omega
  | accountDone r now t0 hr => exact absurd hr (hreleased r t0 .done)
  | accountErr r now t0 hr => exact absurd hr (hreleased r t0 .err)

/-- **The totals and the half-finished callbacks**, when nothing is
    outstanding. -/
theorem totals_iff {s : System} (h : Accounted s) (hwaiting : s.waiting = 0) :
    s.Totals s.requests.length ↔ s.halfFinished = 0 := by
  have hdone : s.succeeded = s.tally (fun r => r.stage = .counted .done) +
      s.tally fun r => r.stage = .released .done := by
    apply Runs.countP_eq_add
    rintro ⟨t0, _ | o | o⟩ <;> simp [Stage.outcome?]
  have herr : s.failed = s.tally (fun r => r.stage = .counted .err) +
      s.tally fun r => r.stage = .released .err := by
    apply Runs.countP_eq_add
    rintro ⟨t0, _ | o | o⟩ <;> simp [Stage.outcome?]
  have hhalf : s.halfFinished = s.tally (fun r => r.stage = .released .done) +
      s.tally fun r => r.stage = .released .err := by
    apply Runs.countP_eq_add
    rintro ⟨t0, _ | o | o⟩
    · simp [Stage.isReleased]
    · cases o <;> simp [Stage.isReleased]
    · simp [Stage.isReleased]
  have hsampled : s.sampledSucceeded =
      s.tally (fun r => r.t0.isSome && r.stage = .counted .done) +
        s.tally fun r => r.t0.isSome && r.stage = .released .done := by
    apply Runs.countP_eq_add
    rintro ⟨_ | t0, _ | o | o⟩ <;> simp [Stage.outcome?]
  have hsampledle : s.tally (fun r => r.t0.isSome && r.stage = .released .done) ≤
      s.tally fun r => r.stage = .released .done := by
    apply List.countP_mono_left
    intro r _ hr
    exact (Bool.and_eq_true_iff.mp hr).2
  have hall : s.requests.length = s.succeeded + s.failed + s.waiting := by
    have hsplit : s.requests.length = s.tally (fun r => r.stage ≠ .waiting) + s.waiting := by
      rw [← congrFun List.countP_true s.requests]
      apply Runs.countP_eq_add
      rintro ⟨t0, _ | o | o⟩ <;> simp
    have hoccurred : s.tally (fun r => r.stage ≠ .waiting) = s.succeeded + s.failed := by
      apply Runs.countP_eq_add
      rintro ⟨t0, _ | o | o⟩
      · simp [Stage.outcome?]
      · cases o <;> simp [Stage.outcome?]
      · cases o <;> simp [Stage.outcome?]
    rw [hsplit, hoccurred]
  obtain ⟨hcount, herrors, hsamples⟩ := h
  constructor
  · intro htotals
    have hc := htotals.count
    have he := htotals.errors
    omega
  · intro hzero
    exact ⟨by omega, by omega, by omega, by rw [hsamples]; congr 1; omega⟩

/-- **When the totals are right.**  Let `drain(max_inflight)` have returned, with
    no call since.  Then `count`, `errors` and the latency samples account for
    every call of `execute` made before, if and only if no callback stands
    between releasing the gate and its locked update; and if none does, they do
    so from then on, until the next call. -/
theorem drained_totals_iff (maxInflight sampleEvery : ℕ) (before after : List Action) (s : System)
    (hrun : (init maxInflight sampleEvery).run (before ++ .callDrain maxInflight :: after) = some s)
    (hafter : ∀ a ∈ after, a.isCall = false) (hidle : s.producer = .idle) :
    (s.Totals (calls before) ↔ s.halfFinished = 0) ∧
    (s.halfFinished = 0 → ∀ later s', (∀ a ∈ later, a.isCall = false) →
      s.run later = some s' → s'.Totals (calls before)) := by
  obtain ⟨start, hbefore, hdrain⟩ := (Runs.run_append step).mp hrun
  have hstart : Conserved maxInflight start :=
    conserved_run (conserved_init maxInflight sampleEvery) hbefore
  have hsettled : Settled s := settled_of_drain hstart hdrain hafter hidle
  have haccounted := accounted_run (accounted_init maxInflight sampleEvery) hrun
  have hcalled := called_run (called_init maxInflight sampleEvery) hrun
  have hcalls : calls (before ++ .callDrain maxInflight :: after) = calls before := by
    have hrest : ∀ a ∈ Action.callDrain maxInflight :: after, a ≠ .callExecute := by
      intro a ha heq
      rcases List.mem_cons.mp ha with rfl | ha
      · cases heq
      · exact ne_of_not_isCall (hafter a ha) heq
    rw [calls_append, calls_of_ne hrest, Nat.add_zero]
  rw [List.nil_append] at hcalled
  constructor
  · rw [← totals_iff haccounted hsettled.waiting, ← hcalls, ← hcalled.length_eq hidle hsettled.raised]
  · intro hzero later s' hlater hrun'
    have hquiet : Quiet s' :=
      Runs.run_invariant step (fun _ _ _ ha hs hstep => quiet_step hs ha hstep) hlater
        ⟨hsettled, hidle, hzero⟩ hrun'
    have hcalled' := called_run hcalled hrun'
    have htotals := (totals_iff (accounted_run haccounted hrun') hquiet.waiting).mpr
      hquiet.halfFinished
    rwa [hcalled'.length_eq hquiet.idle hquiet.raised, calls_append, hcalls,
      calls_of_ne fun a ha => ne_of_not_isCall (hlater a ha)] at htotals

/-- A call, `drain(1)` and the callback's release in between: `drain` returns and
    the totals are still those of no call. -/
theorem drain_omits_request :
    ∃ s, (init 1 256).run ([.callExecute, .acquire 0, .send, .register, .ret] ++
        .callDrain 1 :: [.release 0 .done, .drainAcquire, .drainRelease]) = some s ∧
      s.producer = .idle ∧ calls [.callExecute, .acquire 0, .send, .register, .ret] = 1 ∧
      s.pipe.count + s.pipe.errors = 0 ∧
      ¬s.Totals (calls [.callExecute, .acquire 0, .send, .register, .ret]) := by
  refine ⟨_, rfl, rfl, rfl, rfl, ?_⟩
  intro htotals
  exact absurd htotals.total (by decide)

/-- The same run with the callback's second step before the read. -/
theorem drained_totals_iff_one_call :
    ∃ s, (init 1 256).run ([.callExecute, .acquire 0, .send, .register, .ret] ++
        .callDrain 1 :: [.release 0 .done, .drainAcquire, .drainRelease, .account 0 1]) = some s ∧
      s.Totals (calls [.callExecute, .acquire 0, .send, .register, .ret]) :=
  ⟨_, rfl, (drained_totals_iff 1 256 [.callExecute, .acquire 0, .send, .register, .ret]
    [.release 0 .done, .drainAcquire, .drainRelease, .account 0 1] _ rfl (by decide) rfl).1.mpr rfl⟩

end System

end FeatureStore
