/-
  FeatureStore/PermitConservation.lean
  ====================================
  **Permits of the pipeline.**

  Every permit is in the gate, or held by `drain`, or belongs to a request that
  has still to release it; a call that `execute_async` ended with an exception
  keeps its permit for ever.  `Conserved` is that equation, together with the
  bounds of the two loops of `drain`.  Each step preserves it, and the bound on
  requests in flight, the barrier of `drain` and the absence of deadlock are
  read off it.
-/
import FeatureStore.Writer

namespace FeatureStore

/-! ### Where the permits are -/

namespace Producer

/-- The permits that `drain` holds. -/
def held : Producer → ℕ
  | .draining _ k => k
  | .unwinding m k => m - k
  | _ => 0

/-- The requests between `gate.acquire()` and the registration of callbacks. -/
def inCall : Producer → ℕ
  | .sending _ => 1
  | .registering _ => 1
  | _ => 0

/-- The loops of `drain` are inside their bounds. -/
def Bounded : Producer → Prop
  | .draining m k => k < m
  | .unwinding m k => k < m
  | _ => True

theorem secondLoop_cases (m k : ℕ) :
    (k < m ∧ secondLoop m k = .unwinding m k) ∨ (m ≤ k ∧ secondLoop m k = .idle) := by
  by_cases h : k < m
  · exact Or.inl ⟨h, if_pos h⟩
  · exact Or.inr ⟨Nat.le_of_not_lt h, if_neg h⟩

theorem firstLoop_cases (m k : ℕ) :
    (k < m ∧ firstLoop m k = .draining m k) ∨ (m ≤ k ∧ firstLoop m k = secondLoop m 0) := by
  by_cases h : k < m
  · exact Or.inl ⟨h, if_pos h⟩
  · exact Or.inr ⟨Nat.le_of_not_lt h, if_neg h⟩

theorem secondLoop_spec (m k : ℕ) :
    (secondLoop m k).held = m - k ∧ (secondLoop m k).inCall = 0 ∧ (secondLoop m k).Bounded := by
  rcases secondLoop_cases m k with ⟨hlt, heq⟩ | ⟨hle, heq⟩
  · rw [heq]
    exact ⟨rfl, rfl, hlt⟩
  · rw [heq]
    exact ⟨by simp only [held]; omega, rfl, trivial⟩

theorem firstLoop_spec {m k : ℕ} (h : k ≤ m) :
    (firstLoop m k).held = k ∧ (firstLoop m k).inCall = 0 ∧ (firstLoop m k).Bounded := by
  rcases firstLoop_cases m k with ⟨hlt, heq⟩ | ⟨hle, heq⟩
  · rw [heq]
    exact ⟨rfl, rfl, hlt⟩
  · obtain ⟨hheld, hcall, hbound⟩ := secondLoop_spec m 0
    rw [heq]
    exact ⟨by omega, hcall, hbound⟩

end Producer

namespace System

/-- The registered requests whose callback has not yet released the gate. -/
def waiting (s : System) : ℕ := s.requests.countP fun r => r.stage = .waiting

/-- The requests that have still to release the gate, the one that `execute` is
    about to register included. -/
def outstanding (s : System) : ℕ := s.producer.inCall + s.waiting

structure Conserved (maxInflight : ℕ) (s : System) : Prop where
  permits : s.pipe.gate + s.producer.held + s.outstanding + s.raised = maxInflight
  bounded : s.producer.Bounded

theorem waiting_register (s : System) (t0 : Option ℚ) :
    waiting { s with requests := s.requests ++ [⟨t0, .waiting⟩] } = s.waiting + 1 := by
  simp [waiting]

/-- A callback's first step takes one request out of those waiting. -/
theorem waiting_release {s : System} {r : ℕ} {o : Outcome} {t0 : Option ℚ}
    (h : s.requests[r]? = some ⟨t0, .waiting⟩) :
    waiting { s with requests := s.requests.set r ⟨t0, .released o⟩ } + 1 = s.waiting := by
  have hset := Runs.countP_set_add (p := fun r : Request => r.stage = .waiting)
    (b := ⟨t0, .released o⟩) h
  simpa [waiting] using hset

/-- Its second step takes none. -/
theorem waiting_account {s : System} {r : ℕ} {o : Outcome} {t0 : Option ℚ}
    (h : s.requests[r]? = some ⟨t0, .released o⟩) :
    waiting { s with requests := s.requests.set r ⟨t0, .counted o⟩ } = s.waiting := by
  have hset := Runs.countP_set_add (p := fun r : Request => r.stage = .waiting)
    (b := ⟨t0, .counted o⟩) h
  simpa [waiting] using hset

theorem conserved_init (maxInflight sampleEvery : ℕ) :
    Conserved maxInflight (init maxInflight sampleEvery) :=
  ⟨rfl, trivial⟩

/-- The permits, with the producer at a known place. -/
theorem Conserved.permits_of {maxInflight : ℕ} {s : System} (h : Conserved maxInflight s)
    {p : Producer} (hp : s.producer = p) :
    s.pipe.gate + p.held + (p.inCall + s.waiting) + s.raised = maxInflight :=
  hp ▸ h.permits

/-- **Every step of every party conserves the permits.** -/
theorem conserved_step {maxInflight : ℕ} {s s' : System} {a : Action}
    (h : Conserved maxInflight s) (hstep : s.step a = some s') : Conserved maxInflight s' := by
  have hbounded := h.bounded
  have hpermits : s.pipe.gate + s.producer.held + (s.producer.inCall + s.waiting) + s.raised =
      maxInflight := h.permits
  cases effect_of_step hstep with
  | callExecute hp =>
    have hbefore := h.permits_of hp
    exact ⟨hbefore, trivial⟩
  | acquire now hp hgate =>
    refine ⟨?_, trivial⟩
    have hbefore : s.pipe.gate + 0 + (0 + s.waiting) + s.raised = maxInflight := h.permits_of hp
    change s.pipe.gate - 1 + 0 + (1 + s.waiting) + s.raised = maxInflight
    omega
  | send t0 hp =>
    have hbefore := h.permits_of hp
    exact ⟨hbefore, trivial⟩
  | sendRaises t0 hp =>
    refine ⟨?_, trivial⟩
    have hbefore : s.pipe.gate + 0 + (1 + s.waiting) + s.raised = maxInflight := h.permits_of hp
    change s.pipe.gate + 0 + (0 + s.waiting) + (s.raised + 1) = maxInflight
    omega
  | register t0 hp =>
    refine ⟨?_, trivial⟩
    have hbefore : s.pipe.gate + 0 + (1 + s.waiting) + s.raised = maxInflight := h.permits_of hp
    have hwaiting := waiting_register s t0
    change s.pipe.gate + 0 +
      (0 + waiting { s with requests := s.requests ++ [⟨t0, .waiting⟩] }) + s.raised = maxInflight
    omega
  | ret hp =>
    have hbefore := h.permits_of hp
    exact ⟨hbefore, trivial⟩
  | callDrain m hp =>
    obtain ⟨hheld, hcall, hbound⟩ := Producer.firstLoop_spec (Nat.zero_le m)
    refine ⟨?_, hbound⟩
    have hbefore : s.pipe.gate + 0 + (0 + s.waiting) + s.raised = maxInflight := h.permits_of hp
    change s.pipe.gate + (Producer.firstLoop m 0).held +
      ((Producer.firstLoop m 0).inCall + s.waiting) + s.raised = maxInflight
    omega
  | drainAcquire m k hp hgate =>
    have hlt : k < m := (hp ▸ hbounded : (Producer.draining m k).Bounded)
    obtain ⟨hheld, hcall, hbound⟩ := Producer.firstLoop_spec (show k + 1 ≤ m from hlt)
    refine ⟨?_, hbound⟩
    have hbefore : s.pipe.gate + k + (0 + s.waiting) + s.raised = maxInflight := h.permits_of hp
    change s.pipe.gate - 1 + (Producer.firstLoop m (k + 1)).held +
      ((Producer.firstLoop m (k + 1)).inCall + s.waiting) + s.raised = maxInflight
    omega
  | drainRelease m k hp =>
    have hlt : k < m := (hp ▸ hbounded : (Producer.unwinding m k).Bounded)
    obtain ⟨hheld, hcall, hbound⟩ := Producer.secondLoop_spec m (k + 1)
    refine ⟨?_, hbound⟩
    have hbefore : s.pipe.gate + (m - k) + (0 + s.waiting) + s.raised = maxInflight :=
      h.permits_of hp
    change s.pipe.gate + 1 + (Producer.secondLoop m (k + 1)).held +
      ((Producer.secondLoop m (k + 1)).inCall + s.waiting) + s.raised = maxInflight
    omega
  | release r o t0 hr =>
    refine ⟨?_, hbounded⟩
    have hwaiting := waiting_release (o := o) hr
    change s.pipe.gate + 1 + s.producer.held + (s.producer.inCall +
      waiting { s with requests := s.requests.set r ⟨t0, .released o⟩ }) + s.raised = maxInflight
    omega
  | accountDone r now t0 hr =>
    refine ⟨?_, hbounded⟩
    have hwaiting := waiting_account hr
    change s.pipe.gate + s.producer.held + (s.producer.inCall +
      waiting { s with requests := s.requests.set r ⟨t0, .counted .done⟩ }) + s.raised = maxInflight
    omega
  | accountErr r now t0 hr =>
    refine ⟨?_, hbounded⟩
    have hwaiting := waiting_account hr
    change s.pipe.gate + s.producer.held + (s.producer.inCall +
      waiting { s with requests := s.requests.set r ⟨t0, .counted .err⟩ }) + s.raised = maxInflight
    omega

/-- Permits are conserved along every run. -/
theorem conserved_run {maxInflight : ℕ} {s s' : System} {actions : List Action}
    (h : Conserved maxInflight s) (hrun : s.run actions = some s') : Conserved maxInflight s' :=
  Runs.run_invariant step (p := fun _ => True)
    (fun _ _ _ _ hs hstep => conserved_step hs hstep) (fun _ _ => trivial) h hrun

/-- Only an exception of `execute_async` loses a permit. -/
theorem raised_eq_zero {s s' : System} {actions : List Action}
    (hactions : ∀ a ∈ actions, a ≠ .sendRaises) (h : s.raised = 0)
    (hrun : s.run actions = some s') : s'.raised = 0 := by
  refine Runs.run_invariant step (I := fun s => s.raised = 0) (p := fun a => a ≠ .sendRaises)
    ?_ hactions h hrun
  intro s a s' ha hs hstep
  cases effect_of_step hstep with
  | sendRaises t0 hp => exact absurd rfl ha
  | _ => exact hs

/-- The producer cannot go on: the gate is empty and it is at `gate.acquire()`,
    in `execute` or in `drain(m)` with `m ≤ maxInflight`. -/
def Blocked (maxInflight : ℕ) (s : System) : Prop :=
  s.pipe.gate = 0 ∧ (s.producer = .acquiring ∨ ∃ m k, s.producer = .draining m k ∧ m ≤ maxInflight)

/-- **Permit conservation, in-flight bound and drain barrier.**  In every state
    of every run in which `execute_async` does not raise:

    * available permits, permits held by `drain` and requests that have still to
      release add up to `max_inflight`, which therefore bounds the requests in
      flight;
    * when `drain(m)` acquires its `m`-th permit, at most `max_inflight - m`
      requests are outstanding;
    * while the producer is blocked, a request is outstanding, and it is one
      whose callback the driver can run;
    * when the producer is in neither call, the gate has all permits but those
      of the outstanding requests. -/
theorem permit_conservation (maxInflight sampleEvery : ℕ) (hmax : 1 ≤ maxInflight)
    (actions : List Action) (hactions : ∀ a ∈ actions, a ≠ .sendRaises) (s : System)
    (hrun : (init maxInflight sampleEvery).run actions = some s) :
    s.pipe.gate + s.producer.held + s.outstanding = maxInflight ∧
    s.outstanding ≤ maxInflight ∧
    (∀ m k s', s.producer = .draining m k → k + 1 = m → m ≤ maxInflight →
      s.step .drainAcquire = some s' →
      s.outstanding ≤ maxInflight - m ∧ s'.outstanding ≤ maxInflight - m) ∧
    (Blocked maxInflight s → 0 < s.outstanding ∧ ∃ r, ∀ o, ∃ s', s.step (.release r o) = some s') ∧
    (s.producer = .idle → s.pipe.gate = maxInflight - s.outstanding) := by
  have h := conserved_run (conserved_init maxInflight sampleEvery) hrun
  have hraised := raised_eq_zero hactions rfl hrun
  have hpermits := h.permits
  rw [hraised, Nat.add_zero] at hpermits
  refine ⟨hpermits, by omega, ?_, ?_, ?_⟩
  · intro m k s' hp hk hm hstep
    cases effect_of_step hstep with
    | drainAcquire m' k' hp' hgate =>
      rw [hp, Producer.draining.injEq] at hp'
      obtain ⟨rfl, rfl⟩ := hp'
      obtain ⟨_, hcall, _⟩ := Producer.firstLoop_spec (le_of_eq hk)
      have hbefore : s.pipe.gate + k + (0 + s.waiting) + s.raised = maxInflight := h.permits_of hp
      have hsame : s.producer.inCall = 0 := by
        rw [hp]
        rfl
      rw [outstanding, outstanding, hsame]
      change 0 + s.waiting ≤ _ ∧ (Producer.firstLoop m (k + 1)).inCall + s.waiting ≤ _
      omega
  · rintro ⟨hgate, hp⟩
    have hwaiting : 0 < s.waiting := by
      rcases hp with hp | ⟨m, k, hp, hm⟩
      · have hall : s.pipe.gate + 0 + (0 + s.waiting) + s.raised = maxInflight := h.permits_of hp
        omega
      · have hlt : k < m := (hp ▸ h.bounded : (Producer.draining m k).Bounded)
        have hall : s.pipe.gate + k + (0 + s.waiting) + s.raised = maxInflight := h.permits_of hp
        omega
    refine ⟨by rw [outstanding]; omega, ?_⟩
    obtain ⟨⟨t0, stage⟩, hmem, hstage⟩ := List.countP_pos_iff.mp hwaiting
    obtain rfl : stage = .waiting := of_decide_eq_true hstage
    obtain ⟨r, hr⟩ := List.getElem?_of_mem hmem
    refine ⟨r, ?_⟩
    intro o
    simp only [step, hr]
    exact ⟨_, rfl⟩
  · intro hp
    rw [hp] at hpermits
    simp only [Producer.held] at hpermits
    omega

/-- One call, then `drain(1)`, with the callback in between. -/
theorem permit_conservation_one_call :
    ∃ s, (init 1 256).run [.callExecute, .acquire 0, .send, .register, .ret, .callDrain 1,
        .release 0 .done, .drainAcquire, .drainRelease] = some s ∧
      s.pipe.gate + s.producer.held + s.outstanding = 1 :=
  ⟨_, rfl, (permit_conservation 1 256 (by decide) [.callExecute, .acquire 0, .send, .register, .ret,
    .callDrain 1, .release 0 .done, .drainAcquire, .drainRelease] (by decide) _ rfl).1⟩

end System

end FeatureStore
