/-
  FeatureStore/RefusedSend.lean
  =============================
  **Sends that the driver refuses.**

  `execute` takes its permit before `execute_async`, and gives it back from
  callbacks that are registered after it.  When `execute_async` raises, the
  permit is gone: next to what the driver does meanwhile, the call leaves one
  permit fewer (`gate_of_refused`).  The loss adds up over a run.  Once every
  accepted request has completed, `drain(max_inflight)` returns exactly when no
  call was refused, and otherwise blocks for ever (`refused_sends`).
-/
import FeatureStore.DrainAccounting

namespace FeatureStore

/-- The action is a step of the driver. -/
def Action.isDriver : Action → Bool
  | .release _ _ => true
  | .account _ _ => true
  | _ => false

namespace System

/-! ### The driver does not look at the producer -/

/-- The two systems differ in the place of the producer, in the number of sends
    so far, and in `k` permits that the first has fewer. -/
structure Behind (k : ℕ) (s t : System) : Prop where
  requests : s.requests = t.requests
  gate : s.pipe.gate + k = t.pipe.gate
  count : s.pipe.count = t.pipe.count
  errors : s.pipe.errors = t.pipe.errors

/-- A step of the driver is possible in both, and keeps the difference. -/
theorem Behind.step {k : ℕ} {s s' t : System} {a : Action} (h : Behind k s t)
    (ha : a.isDriver = true) (hstep : s.step a = some s') :
    s'.producer = s.producer ∧ ∃ t', t.step a = some t' ∧ Behind k s' t' := by
  obtain ⟨hrequests, hgate, hcount, herrors⟩ := h
  cases effect_of_step hstep with
  | release r o t0 hr =>
    refine ⟨rfl, { t with pipe := t.pipe.release, requests := t.requests.set r ⟨t0, .released o⟩ },
      ?_, ?_⟩
    · simp only [System.step, ← hrequests, hr]
    · refine ⟨by rw [hrequests], ?_, hcount, herrors⟩
      change s.pipe.gate + 1 + k = t.pipe.gate + 1
      omega
  | accountDone r now t0 hr =>
    refine ⟨rfl, { t with
      pipe := t.pipe.countDone t0 now, requests := t.requests.set r ⟨t0, .counted .done⟩ }, ?_, ?_⟩
    · simp only [System.step, ← hrequests, hr]
    · exact ⟨by rw [hrequests], hgate, congrArg (· + 1) hcount, herrors⟩
  | accountErr r now t0 hr =>
    refine ⟨rfl, { t with
      pipe := t.pipe.countErr, requests := t.requests.set r ⟨t0, .counted .err⟩ }, ?_, ?_⟩
    · simp only [System.step, ← hrequests, hr]
    · exact ⟨by rw [hrequests], hgate, hcount, congrArg (· + 1) herrors⟩
  | _ => cases ha

theorem Behind.run {k : ℕ} {s s' t : System} {actions : List Action} (h : Behind k s t)
    (hactions : ∀ a ∈ actions, a.isDriver = true) (hrun : s.run actions = some s') :
    s'.producer = s.producer ∧ ∃ t', t.run actions = some t' ∧ Behind k s' t' := by
  induction actions generalizing s t with
  | nil =>
    cases hrun
    exact ⟨rfl, t, rfl, h⟩
  | cons a actions ih =>
    obtain ⟨mid, hmid, hrest⟩ := (Runs.run_cons System.step).mp hrun
    obtain ⟨hproducer, tmid, htmid, hbehind⟩ := h.step (hactions a List.mem_cons_self) hmid
    obtain ⟨hproducer', t', ht', hbehind'⟩ :=
      ih hbehind (fun b hb => hactions b (List.mem_cons_of_mem _ hb)) hrest
    exact ⟨hproducer'.trans hproducer, t', (Runs.run_cons System.step).mpr ⟨tmid, htmid, ht'⟩,
      hbehind'⟩

/-! ### A refused call -/

/-- A call of `execute` that `execute_async` ends with an exception, with the
    steps that the driver makes in between. -/
def refusedCall (before : List Action) (now : ℚ) (between : List Action) : List Action :=
  .callExecute :: (before ++ .acquire now :: (between ++ [.sendRaises]))

/-- **A refused call costs one permit.**  After it the producer is back from
    `execute`, and the pipeline is as the driver's steps alone leave it, with one
    permit fewer. -/
theorem gate_of_refused {s s' : System} {before between : List Action} {now : ℚ}
    (hbefore : ∀ a ∈ before, a.isDriver = true) (hbetween : ∀ a ∈ between, a.isDriver = true)
    (hrun : s.run (refusedCall before now between) = some s') :
    s'.producer = .idle ∧ ∃ t, s.run (before ++ between) = some t ∧ Behind 1 s' t := by
  obtain ⟨s₁, hcall, hrest⟩ := (Runs.run_cons step).mp hrun
  obtain ⟨s₂, hdriver, hrest⟩ := (Runs.run_append step).mp hrest
  obtain ⟨s₃, hacquire, hrest⟩ := (Runs.run_cons step).mp hrest
  obtain ⟨s₄, hdriver', hrest⟩ := (Runs.run_append step).mp hrest
  obtain ⟨s₅, hraise, hnil⟩ := (Runs.run_cons step).mp hrest
  cases hnil
  have hstart : Behind 0 s₁ s := by
    cases effect_of_step hcall with
    | callExecute hp => exact ⟨rfl, rfl, rfl, rfl⟩
  obtain ⟨_, t₂, ht₂, hbehind⟩ := hstart.run hbefore hdriver
  -- the permit is taken here
  have htaken : Behind 1 s₃ t₂ := by
    cases effect_of_step hacquire with
    | acquire now hp hgate =>
      refine ⟨hbehind.requests, ?_, hbehind.count, hbehind.errors⟩
      have hsame := hbehind.gate
      change s₂.pipe.gate - 1 + 1 = t₂.pipe.gate
      omega
  obtain ⟨_, t, ht, hbehind'⟩ := htaken.run hbetween hdriver'
  have hrun' : s.run (before ++ between) = some t := (Runs.run_append step).mpr ⟨t₂, ht₂, ht⟩
  cases effect_of_step hraise with
  | sendRaises t0 hp =>
    exact ⟨rfl, t, hrun', ⟨hbehind'.requests, hbehind'.gate, hbehind'.count, hbehind'.errors⟩⟩

/-! ### How many calls were refused -/

theorem raised_eq_countP {maxInflight sampleEvery : ℕ} {actions : List Action} {s : System}
    (hrun : (init maxInflight sampleEvery).run actions = some s) :
    s.raised = actions.countP fun a => a = .sendRaises := by
  refine Runs.run_history step (I := fun past s => s.raised = past.countP fun a => a = .sendRaises)
    ?_ [] rfl hrun
  intro past s a s' hs hstep
  rw [List.countP_append, ← hs, List.countP_singleton]
  cases effect_of_step hstep with
  | sendRaises t0 hp => rfl
  | _ => rfl

theorem raised_eq_zero_iff {maxInflight sampleEvery : ℕ} {actions : List Action} {s : System}
    (hrun : (init maxInflight sampleEvery).run actions = some s) :
    s.raised = 0 ↔ .sendRaises ∉ actions := by
  rw [raised_eq_countP hrun, List.countP_eq_zero]
  constructor
  · intro hnone hmem
    exact hnone _ hmem (decide_eq_true rfl)
  · intro hnot a ha heq
    exact hnot (of_decide_eq_true heq ▸ ha)

/-! ### `drain` alone -/

/-- The first loop takes permits while there are some. -/
theorem run_drainAcquire {s : System} {m k : ℕ} (n : ℕ) (hn : k + n ≤ m)
    (hp : s.producer = .firstLoop m k) (hgate : n ≤ s.pipe.gate) :
    s.run (List.replicate n .drainAcquire) =
      some { s with
        pipe := { s.pipe with gate := s.pipe.gate - n }
        producer := .firstLoop m (k + n) } := by
  induction n generalizing s k with
  | zero => simp only [List.replicate_zero, run, Runs.run, Nat.sub_zero, Nat.add_zero, ← hp]
  | succ n ih =>
    have hdraining : s.producer = .draining m k := by
      rcases Producer.firstLoop_cases m k with ⟨_, heq⟩ | ⟨hle, _⟩
      · exact hp.trans heq
      · omega
    have hstep : s.step .drainAcquire = some { s with
        pipe := { s.pipe with gate := s.pipe.gate - 1 }
        producer := .firstLoop m (k + 1) } := by
      have hpos : 0 < s.pipe.gate := by omega
      simp only [step, hdraining, if_pos hpos]
    refine (Runs.run_cons step).mpr ⟨_, hstep, ?_⟩
    refine (ih (k := k + 1) (by omega) rfl ?_).trans ?_
    · change n ≤ s.pipe.gate - 1
      omega
    · rw [Nat.sub_sub, Nat.add_assoc, Nat.add_comm 1 n]

/-- The second loop gives them back. -/
theorem run_drainRelease {s : System} {m k : ℕ} (hk : k ≤ m) (hp : s.producer = .secondLoop m k) :
    ∃ s', s.run (List.replicate (m - k) .drainRelease) = some s' ∧ s'.producer = .idle := by
  obtain ⟨n, rfl⟩ := Nat.exists_eq_add_of_le hk
  rw [Nat.add_sub_cancel_left]
  induction n generalizing s k with
  | zero =>
    rcases Producer.secondLoop_cases (k + 0) k with ⟨hlt, _⟩ | ⟨_, heq⟩
    · omega
    · exact ⟨s, rfl, hp.trans heq⟩
  | succ n ih =>
    have hunwinding : s.producer = .unwinding (k + (n + 1)) k := by
      rcases Producer.secondLoop_cases (k + (n + 1)) k with ⟨_, heq⟩ | ⟨hle, _⟩
      · exact hp.trans heq
      · omega
    have hstep : s.step .drainRelease = some { s with
        pipe := s.pipe.release, producer := .secondLoop (k + (n + 1)) (k + 1) } := by
      simp only [step, hunwinding]
    have hsum : k + (n + 1) = k + 1 + n := by omega
    obtain ⟨s', hrun, hidle⟩ := ih (s := { s with
        pipe := s.pipe.release, producer := .secondLoop (k + (n + 1)) (k + 1) }) (k := k + 1)
      (by omega) (by rw [hsum])
    exact ⟨s', (Runs.run_cons step).mpr ⟨_, hstep, hrun⟩, hidle⟩

/-- `drain` has taken all permits there are and wants more, and no request is
    left to give one back. -/
structure Stuck (maxInflight : ℕ) (s : System) : Prop where
  gate : s.pipe.gate = 0
  waiting : s.waiting = 0
  producer : ∃ k, s.producer = .draining maxInflight k

theorem Stuck.blocked {maxInflight : ℕ} {s : System} (h : Stuck maxInflight s) :
    Blocked maxInflight s := by
  obtain ⟨k, hk⟩ := h.producer
  exact ⟨h.gate, Or.inr ⟨maxInflight, k, hk, le_refl _⟩⟩

theorem stuck_step {maxInflight : ℕ} {s s' : System} {a : Action} (h : Stuck maxInflight s)
    (hstep : s.step a = some s') : Stuck maxInflight s' := by
  obtain ⟨hzero, hwaiting, k, hk⟩ := h
  cases effect_of_step hstep with
  | callExecute hp => simp [hk] at hp
  | acquire now hp hgate => simp [hk] at hp
  | send t0 hp => simp [hk] at hp
  | sendRaises t0 hp => simp [hk] at hp
  | register t0 hp => simp [hk] at hp
  | ret hp => simp [hk] at hp
  | callDrain m hp => simp [hk] at hp
  | drainAcquire m k hp hgate => omega
  | drainRelease m k hp => simp [hk] at hp
  | release r o t0 hr =>
    have hdecr := waiting_release (o := o) hr
    omega
  | accountDone r now t0 hr => exact ⟨hzero, (waiting_account hr).trans hwaiting, k, hk⟩
  | accountErr r now t0 hr => exact ⟨hzero, (waiting_account hr).trans hwaiting, k, hk⟩

theorem stuck_run {maxInflight : ℕ} {s s' : System} {actions : List Action}
    (h : Stuck maxInflight s) (hrun : s.run actions = some s') : Stuck maxInflight s' :=
  Runs.run_invariant step (p := fun _ => True)
    (fun _ _ _ _ hs hstep => stuck_step hs hstep) (fun _ _ => trivial) h hrun

/-- `drain(m)` returns in some run of the producer and the driver. -/
def DrainReturns (m : ℕ) (s : System) : Prop :=
  ∃ actions s', (∀ a ∈ actions, a.isCall = false) ∧
    s.run (.callDrain m :: actions) = some s' ∧ s'.producer = .idle

theorem raised_le_of_run {s s' : System} {actions : List Action} (hrun : s.run actions = some s') :
    s.raised ≤ s'.raised := by
  refine Runs.run_invariant step (I := fun t => s.raised ≤ t.raised) (p := fun _ => True)
    ?_ (fun _ _ => trivial) (le_refl _) hrun
  intro t a t' _ ht hstep
  cases effect_of_step hstep with
  | sendRaises t0 hp => exact Nat.le_succ_of_le ht
  | _ => exact ht

/-- When the producer is idle and every accepted request has completed, the gate
    has all permits but those that were lost. -/
theorem gate_add_raised {maxInflight : ℕ} {s : System} (h : Conserved maxInflight s)
    (hidle : s.producer = .idle) (hwaiting : s.waiting = 0) :
    s.pipe.gate + s.raised = maxInflight := by
  have hpermits : s.pipe.gate + 0 + (0 + s.waiting) + s.raised = maxInflight := h.permits_of hidle
  omega

theorem step_callDrain {s : System} (hidle : s.producer = .idle) (m : ℕ) :
    s.step (.callDrain m) = some { s with producer := .firstLoop m 0 } := by
  simp only [step, hidle]

/-- Once every accepted request has completed, `drain(max_inflight)` returns when
    no permit has been lost, and only then. -/
theorem drainReturns_iff {maxInflight : ℕ} {s : System} (h : Conserved maxInflight s)
    (hidle : s.producer = .idle) (hwaiting : s.waiting = 0) :
    DrainReturns maxInflight s ↔ s.raised = 0 := by
  have hgate := gate_add_raised h hidle hwaiting
  constructor
  · rintro ⟨actions, s', hactions, hrun, hidle'⟩
    have hsettled := settled_of_drain h hrun hactions hidle'
    exact Nat.eq_zero_of_le_zero ((raised_le_of_run hrun).trans (le_of_eq hsettled.raised))
  · intro hzero
    have hall : s.pipe.gate = maxInflight := by omega
    have hloop : Producer.firstLoop maxInflight (0 + maxInflight) = .secondLoop maxInflight 0 := by
      rcases Producer.firstLoop_cases maxInflight (0 + maxInflight) with ⟨hlt, _⟩ | ⟨_, heq⟩
      · omega
      · exact heq
    have hfirst : run { s with producer := .firstLoop maxInflight 0 }
        (List.replicate maxInflight .drainAcquire) =
          some { s with
            pipe := { s.pipe with gate := s.pipe.gate - maxInflight }
            producer := .secondLoop maxInflight 0 } := by
      rw [← hloop]
      exact run_drainAcquire maxInflight (le_of_eq (Nat.zero_add _)) rfl (le_of_eq hall.symm)
    obtain ⟨s', hsecond, hidle'⟩ := run_drainRelease (Nat.zero_le maxInflight)
      (s := { s with
        pipe := { s.pipe with gate := s.pipe.gate - maxInflight }
        producer := .secondLoop maxInflight 0 }) rfl
    have hloops := (Runs.run_append step).mpr ⟨_, hfirst, hsecond⟩
    refine ⟨_, s', ?_, (Runs.run_cons step).mpr ⟨_, step_callDrain hidle _, hloops⟩, hidle'⟩
    intro a ha
    rcases List.mem_append.mp ha with ha | ha <;> rw [List.eq_of_mem_replicate ha] <;> rfl

/-- After a lost permit `drain(max_inflight)` takes what there is and stays. -/
theorem exists_stuck {maxInflight : ℕ} {s : System} (h : Conserved maxInflight s)
    (hidle : s.producer = .idle) (hwaiting : s.waiting = 0) (hraised : s.raised ≠ 0) :
    ∃ acquired t, s.run (.callDrain maxInflight :: List.replicate acquired .drainAcquire) = some t ∧
      Stuck maxInflight t := by
  have hgate := gate_add_raised h hidle hwaiting
  have hfirst := run_drainAcquire (s := { s with producer := .firstLoop maxInflight 0 })
    s.pipe.gate (k := 0) (by omega) rfl (le_refl _)
  refine ⟨s.pipe.gate, _, (Runs.run_cons step).mpr ⟨_, step_callDrain hidle _, hfirst⟩, ?_⟩
  refine ⟨Nat.sub_self _, hwaiting, 0 + s.pipe.gate, ?_⟩
  rcases Producer.firstLoop_cases maxInflight (0 + s.pipe.gate) with ⟨_, heq⟩ | ⟨hle, _⟩
  · exact heq
  · omega

/-- **Refused sends.**  In every state of every run:

    * a call of `execute` that `execute_async` ends with an exception, whatever
      the driver does meanwhile, leaves `count` and `errors` to the driver and
      one permit fewer than the driver's steps alone;
    * once the producer is idle and every accepted request has completed,
      `drain(max_inflight)` returns exactly when no call of the run was refused;
      after a refused one it comes to a state in which it is blocked for ever. -/
theorem refused_sends (maxInflight sampleEvery : ℕ) (actions : List Action) (s : System)
    (hrun : (init maxInflight sampleEvery).run actions = some s) :
    (∀ before now between s', (∀ a ∈ before, a.isDriver = true) →
      (∀ a ∈ between, a.isDriver = true) → s.run (refusedCall before now between) = some s' →
      s'.producer = .idle ∧ ∃ t, s.run (before ++ between) = some t ∧
        s'.pipe.gate + 1 = t.pipe.gate ∧ s'.pipe.count = t.pipe.count ∧
        s'.pipe.errors = t.pipe.errors) ∧
    (s.producer = .idle → s.waiting = 0 →
      (DrainReturns maxInflight s ↔ .sendRaises ∉ actions) ∧
      (.sendRaises ∈ actions → ∃ acquired t,
        s.run (.callDrain maxInflight :: List.replicate acquired .drainAcquire) = some t ∧
        ∀ later t', t.run later = some t' → Blocked maxInflight t')) := by
  have hconserved := conserved_run (conserved_init maxInflight sampleEvery) hrun
  have hraised := raised_eq_zero_iff hrun
  constructor
  · intro before now between s' hbefore hbetween hrefused
    obtain ⟨hidle, t, ht, hbehind⟩ := gate_of_refused hbefore hbetween hrefused
    exact ⟨hidle, t, ht, hbehind.gate, hbehind.count, hbehind.errors⟩
  · intro hidle hwaiting
    refine ⟨(drainReturns_iff hconserved hidle hwaiting).trans hraised, ?_⟩
    intro hmem
    have hlost : s.raised ≠ 0 := fun hzero => hraised.mp hzero hmem
    obtain ⟨acquired, t, ht, hstuck⟩ := exists_stuck hconserved hidle hwaiting hlost
    exact ⟨acquired, t, ht, fun later t' hlater => (stuck_run hstuck hlater).blocked⟩

/-- One permit and one refused call: the permit is gone, nothing is in flight,
    and `drain(1)` blocks. -/
theorem refused_send_blocks_drain :
    ∃ s t, (init 1 256).run (refusedCall [] 0 []) = some s ∧ s.run [.callDrain 1] = some t ∧
      s.pipe.gate ≠ (init 1 256).pipe.gate ∧ t.waiting = 0 ∧ Blocked 1 t :=
  ⟨_, _, rfl, rfl, by decide, rfl, rfl, Or.inr ⟨1, 0, rfl, le_refl _⟩⟩

/-- The same run, by the theorem. -/
theorem refused_sends_one_call :
    ∃ s, (init 1 256).run (refusedCall [] 0 []) = some s ∧ ¬DrainReturns 1 s := by
  refine ⟨_, rfl, ?_⟩
  intro hreturns
  exact ((refused_sends 1 256 (refusedCall [] 0 []) _ rfl).2 rfl rfl).1.mp hreturns (by decide)

end System

end FeatureStore
