/-
  FeatureStore/Delivery.lean
  ==========================
  **The write path at work**: the loop that hands rows to `execute`, the
  `Pipeline` with its driver, and the store.

  `Writer.lean` has the pipeline without what it writes.  Here every request
  carries a row.  From the moment `execute_async` has it, a write may arrive at
  the store, at any time and more than once; the driver reports success only of a
  write that has arrived, and failure at any time.  An exception of
  `execute_async` ends the run.

    * Few writes are missing at any moment: those that have not arrived are
      outstanding, or their requests have failed (`Delivering.exists_cut`,
      `Delivering.length_group_drop_le`).  The gate bounds the former.
    * When `drain(max_inflight)` has returned, what has not arrived has failed
      (`Delivering.rowAt_of_finished`).
    * Every run comes to its end, in a number of steps that is known beforehand
      (`Delivering.left_run`, `Delivering.exists_finish`).
-/
import FeatureStore.DrainAccounting
import FeatureStore.LastWriter
import FeatureStore.Statements

namespace FeatureStore

open Grouping (group)
open LastWriter (Store applyAll stampFrom lastFor rowAt)

structure Delivery where
  sys : System
  todo : List Row -- not yet handed to `execute`
  taken : List Row := []
  sent : List Row := [] -- handed to `execute_async`, in order
  arrived : List (Write Row) := [] -- in the order of arrival
  drained : Bool := false

namespace Delivery

inductive Event where
  | pipe (a : Action)
  | arrive (i : ℕ) -- the write of request `i` arrives at the store
deriving DecidableEq, Repr

/-- Before the first call of `execute`. -/
def init (maxInflight sampleEvery : ℕ) (rows : List Row) : Delivery :=
  { sys := System.init maxInflight sampleEvery, todo := rows }

/-- The writes are stamped from `base` on. -/
def step (maxInflight base : ℕ) (self : Delivery) (e : Event) : Option Delivery :=
  match e with
  | .pipe .callExecute =>
      match self.todo with
      | [] => none
      | row :: todo =>
          (self.sys.step .callExecute).map fun sys =>
            { self with sys, todo, taken := self.taken ++ [row] }
  | .pipe .send => (self.sys.step .send).map fun sys => { self with sys, sent := self.taken }
  | .pipe .sendRaises => none
  | .pipe (.callDrain m) =>
      if self.todo = [] ∧ m = maxInflight ∧ self.drained = false then
        (self.sys.step (.callDrain m)).map fun sys => { self with sys, drained := true }
      else none
  | .pipe (.release r .done) =>
      if ∃ w ∈ self.arrived, w.stamp = base + r then
        (self.sys.step (.release r .done)).map fun sys => { self with sys }
      else none
  | .pipe a => (self.sys.step a).map fun sys => { self with sys }
  | .arrive i =>
      (self.sent[i]?).map fun row => { self with arrived := self.arrived ++ [⟨base + i, row⟩] }

def run (maxInflight sampleEvery base : ℕ) (rows : List Row) (events : List Event) :
    Option Delivery :=
  Runs.run (step maxInflight base) (init maxInflight sampleEvery rows) events

/-- A request that the driver answers before the next call; a failed write does not
    arrive. -/
def request (outcome : ℕ → Outcome) (r : ℕ) : List Event :=
  [.pipe .callExecute, .pipe (.acquire 0), .pipe .send] ++
  (if outcome r = .done then [.arrive r] else []) ++
  [.pipe .register, .pipe .ret, .pipe (.release r (outcome r)), .pipe (.account r 0)]

/-- A run in which the driver answers one request after another. -/
def answering (outcome : ℕ → Outcome) (maxInflight rows : ℕ) : List Event :=
  (List.range rows).flatMap (request outcome) ++
  .pipe (.callDrain maxInflight) :: (List.replicate maxInflight (.pipe .drainAcquire) ++
    List.replicate maxInflight (.pipe .drainRelease))

/-- The same, with success. -/
def oneByOne (maxInflight rows : ℕ) : List Event := answering (fun _ => .done) maxInflight rows

/-- What has become of the store that was there before the run. -/
def store (self : Delivery) (before : Store RowKey Row) : Store RowKey Row :=
  applyAll Row.key before self.arrived

/-- The last `drain` has returned. -/
structure Finished (d : Delivery) : Prop where
  drained : d.drained = true
  idle : d.sys.producer = .idle

/-- The action is one of those that only move the pipeline. -/
def Plain : Action → Prop
  | .callExecute => False
  | .send => False
  | .sendRaises => False
  | .callDrain _ => False
  | _ => True

/-- **What a step can do.** -/
inductive Moves (maxInflight base : ℕ) (self : Delivery) : Event → Delivery → Prop
  | arrive (i : ℕ) (row : Row) (h : self.sent[i]? = some row) :
      Moves maxInflight base self (.arrive i)
        { self with arrived := self.arrived ++ [⟨base + i, row⟩] }
  | take (row : Row) (todo : List Row) (sys : System) (h : self.todo = row :: todo)
      (hsys : self.sys.step .callExecute = some sys) :
      Moves maxInflight base self (.pipe .callExecute)
        { self with sys, todo, taken := self.taken ++ [row] }
  | send (sys : System) (hsys : self.sys.step .send = some sys) :
      Moves maxInflight base self (.pipe .send) { self with sys, sent := self.taken }
  | drain (sys : System) (h : self.todo = []) (hdrained : self.drained = false)
      (hsys : self.sys.step (.callDrain maxInflight) = some sys) :
      Moves maxInflight base self (.pipe (.callDrain maxInflight))
        { self with sys, drained := true }
  | plain (a : Action) (sys : System) (ha : Plain a) (hsys : self.sys.step a = some sys)
      (hack : ∀ r, a = .release r .done → ∃ w ∈ self.arrived, w.stamp = base + r) :
      Moves maxInflight base self (.pipe a) { self with sys }

theorem moves_of_step {maxInflight base : ℕ} {self self' : Delivery} {e : Event}
    (h : self.step maxInflight base e = some self') : Moves maxInflight base self e self' := by
  cases e with
  | arrive i =>
    obtain ⟨row, hrow, rfl⟩ := Option.map_eq_some_iff.mp h
    exact .arrive i row hrow
  | pipe a =>
    cases a with
    | callExecute =>
      simp only [step] at h
      split at h
      · cases h
      · rename_i row todo htodo
        obtain ⟨sys, hsys, rfl⟩ := Option.map_eq_some_iff.mp h
        exact .take row todo sys htodo hsys
    | send =>
      obtain ⟨sys, hsys, rfl⟩ := Option.map_eq_some_iff.mp h
      exact .send sys hsys
    | sendRaises => cases h
    | callDrain m =>
      simp only [step] at h
      split at h
      · rename_i hcond
        obtain ⟨htodo, rfl, hdrained⟩ := hcond
        obtain ⟨sys, hsys, rfl⟩ := Option.map_eq_some_iff.mp h
        exact .drain sys htodo hdrained hsys
      · cases h
    | release r o =>
      cases o with
      | done =>
        simp only [step] at h
        split at h
        · rename_i hack
          obtain ⟨sys, hsys, rfl⟩ := Option.map_eq_some_iff.mp h
          refine .plain (.release r .done) sys trivial hsys ?_
          intro r' hr'
          obtain ⟨rfl, _⟩ := Action.release.inj hr'
          exact hack
        · cases h
      | err =>
        obtain ⟨sys, hsys, rfl⟩ := Option.map_eq_some_iff.mp h
        exact .plain (.release r .err) sys trivial hsys (fun r' hr' => by cases hr')
    | _ =>
      obtain ⟨sys, hsys, rfl⟩ := Option.map_eq_some_iff.mp h
      exact .plain _ sys trivial hsys (fun r' hr' => by cases hr')

end Delivery

/-! ### What holds in every run -/

/-- A call of `execute` has sent its write and has not registered the request. -/
def Producer.launched : Producer → ℕ
  | .registering _ => 1
  | _ => 0

@[simp] theorem Producer.launched_idle : idle.launched = 0 := rfl

@[simp] theorem Producer.launched_draining (m k : ℕ) : (draining m k).launched = 0 := rfl

@[simp] theorem Producer.launched_unwinding (m k : ℕ) : (unwinding m k).launched = 0 := rfl

@[simp] theorem Producer.launched_secondLoop (m k : ℕ) : (secondLoop m k).launched = 0 := by
  rcases secondLoop_cases m k with ⟨_, heq⟩ | ⟨_, heq⟩ <;> rw [heq] <;> rfl

@[simp] theorem Producer.launched_firstLoop (m k : ℕ) : (firstLoop m k).launched = 0 := by
  rcases firstLoop_cases m k with ⟨_, heq⟩ | ⟨_, heq⟩ <;> rw [heq]
  · rfl
  · exact launched_secondLoop m 0

/-- The permits that the running `drain` wants. -/
def Producer.wanted : Producer → ℕ
  | .draining m _ => m
  | .unwinding m _ => m
  | _ => 0

theorem Producer.wanted_secondLoop (m k : ℕ) : (secondLoop m k).wanted ≤ m := by
  rcases secondLoop_cases m k with ⟨_, heq⟩ | ⟨_, heq⟩ <;> rw [heq]
  · exact le_refl m
  · exact Nat.zero_le m

theorem Producer.wanted_firstLoop (m k : ℕ) : (firstLoop m k).wanted ≤ m := by
  rcases firstLoop_cases m k with ⟨_, heq⟩ | ⟨_, heq⟩ <;> rw [heq]
  · exact le_refl m
  · exact wanted_secondLoop m 0

/-- What the driver has reported of a request. -/
def System.reported (s : System) (r : ℕ) : Option Outcome :=
  (s.requests[r]?).bind fun request => request.stage.outcome?

/-- Only the callback of a success reports it. -/
theorem System.reported_step {s s' : System} {a : Action} (hstep : s.step a = some s') {r : ℕ}
    (h : s'.reported r = some .done) : s.reported r = some .done ∨ a = .release r .done := by
  have hset : ∀ {i : ℕ} {request request' : Request}, s.requests[i]? = some request →
      ((s.requests.set i request')[r]?).bind (fun request => request.stage.outcome?) =
        some .done →
      s.reported r = some .done ∨ (r = i ∧ request'.stage.outcome? = some .done) := by
    intro i request request' hget hdone
    rw [List.getElem?_set] at hdone
    split at hdone
    · rename_i hi
      split at hdone
      · exact Or.inr ⟨hi.symm, hdone⟩
      · cases hdone
    · exact Or.inl hdone
  cases effect_of_step hstep with
  | register t0 hp =>
    left
    rw [reported, List.getElem?_append] at h
    split at h
    · exact h
    · cases hget : [(⟨t0, .waiting⟩ : Request)][r - s.requests.length]? with
      | none => simp [hget] at h
      | some request =>
        obtain rfl := List.mem_singleton.mp (List.mem_of_getElem? hget)
        simp [hget, Stage.outcome?] at h
  | release i o t0 hget =>
    refine (hset hget h).imp_right ?_
    rintro ⟨rfl, ho⟩
    rw [Option.some.inj ho]
  | accountDone i now t0 hget =>
    refine Or.inl ((hset hget h).elim id ?_)
    rintro ⟨rfl, _⟩
    simp [reported, hget, Stage.outcome?]
  | accountErr i now t0 hget =>
    refine Or.inl ((hset hget h).elim id ?_)
    rintro ⟨rfl, ho⟩
    cases ho
  | _ => exact Or.inl h

namespace Delivery

/-- A step that only moves the pipeline moves a call of `execute` on. -/
theorem Plain.lengths {s s' : System} {a : Action} (ha : Plain a) (hstep : s.step a = some s') :
    s'.requests.length + s'.producer.pending = s.requests.length + s.producer.pending ∧
      s'.requests.length + s'.producer.launched = s.requests.length + s.producer.launched ∧
      s'.producer.wanted ≤ s.producer.wanted ∧ s'.raised = s.raised := by
  cases System.effect_of_step hstep with
  | callExecute hp => exact ha.elim
  | send t0 hp => exact ha.elim
  | sendRaises t0 hp => exact ha.elim
  | callDrain m hp => exact ha.elim
  | acquire now hp hgate => simp [hp, Producer.pending, Producer.launched, Producer.wanted]
  | register t0 hp => simp [hp, Producer.pending, Producer.launched, Producer.wanted]
  | ret hp => simp [hp, Producer.pending, Producer.launched, Producer.wanted]
  | drainAcquire m k hp hgate =>
    rw [hp]
    exact ⟨by simp, by simp, Producer.wanted_firstLoop m (k + 1), rfl⟩
  | drainRelease m k hp =>
    rw [hp]
    exact ⟨by simp, by simp, Producer.wanted_secondLoop m (k + 1), rfl⟩
  | release r o t0 hr => simp
  | accountDone r now t0 hr => simp
  | accountErr r now t0 hr => simp

theorem Plain.not_isCall {a : Action} (ha : Plain a) : a.isCall = false := by
  cases a with
  | callExecute => exact ha.elim
  | callDrain m => exact ha.elim
  | _ => rfl

end Delivery

structure Delivering (maxInflight base : ℕ) (rows : List Row) (d : Delivery) : Prop where
  conserved : System.Conserved maxInflight d.sys
  accounted : System.Accounted d.sys
  raised : d.sys.raised = 0
  rows : d.taken ++ d.todo = rows
  taken : d.taken.length = d.sys.requests.length + d.sys.producer.pending
  sent : d.sent.length = d.sys.requests.length + d.sys.producer.launched
  order : d.sent <+: d.taken
  arrived : ∀ w ∈ d.arrived, w ∈ stampFrom base d.sent
  acked : ∀ r, d.sys.reported r = some .done → base + r ∈ d.arrived.map Write.stamp
  wanted : d.sys.producer.wanted ≤ maxInflight
  drained : d.drained = true → d.todo = [] ∧ System.AfterDrain maxInflight d.sys

namespace Delivering

variable {maxInflight sampleEvery base : ℕ} {rows : List Row} {self self' : Delivery}

theorem init (maxInflight sampleEvery base : ℕ) (rows : List Row) :
    Delivering maxInflight base rows (Delivery.init maxInflight sampleEvery rows) where
  conserved := System.conserved_init maxInflight sampleEvery
  accounted := System.accounted_init maxInflight sampleEvery
  raised := rfl
  rows := rfl
  taken := rfl
  sent := rfl
  order := List.prefix_refl _
  arrived := by
    intro w hw
    cases hw
  acked := by
    intro r hr
    cases hr
  wanted := Nat.zero_le maxInflight
  drained := by
    intro h
    cases h

/-- Issuing more rows leaves the writes that were issued before. -/
theorem mem_stampFrom_of_prefix {rows rows' : List Row} (h : rows <+: rows') {w : Write Row}
    (hw : w ∈ stampFrom base rows) : w ∈ stampFrom base rows' := by
  obtain ⟨more, rfl⟩ := h
  obtain ⟨i, hi, hget⟩ := LastWriter.mem_stampFrom.mp hw
  have hlt := (List.getElem?_eq_some_iff.mp hget).1
  exact LastWriter.mem_stampFrom.mpr ⟨i, hi, (List.getElem?_append_left hlt).trans hget⟩

theorem step (h : Delivering maxInflight base rows self) {e : Delivery.Event}
    (hstep : self.step maxInflight base e = some self') :
    Delivering maxInflight base rows self' := by
  have hacked : ∀ {a : Action} {sys : System}, self.sys.step a = some sys →
      (∀ r, a = .release r .done → base + r ∈ self.arrived.map Write.stamp) →
      ∀ r, sys.reported r = some .done → base + r ∈ self.arrived.map Write.stamp := by
    intro a sys hsys hack r hr
    rcases System.reported_step hsys hr with hbefore | ha
    · exact h.acked r hbefore
    · exact hack r ha
  cases Delivery.moves_of_step hstep with
  | arrive i row hrow =>
    refine { h with arrived := ?_, acked := ?_ }
    · intro w hw
      rcases List.mem_append.mp hw with hw | hw
      · exact h.arrived w hw
      · rw [List.mem_singleton.mp hw]
        exact LastWriter.mem_stampFrom.mpr ⟨i, rfl, hrow⟩
    · intro r hr
      rw [List.map_append]
      exact List.mem_append_left _ (h.acked r hr)
  | take row todo sys htodo hsys =>
    have hrows := h.rows
    have htaken := h.taken
    have hsent := h.sent
    rw [htodo] at hrows
    cases System.effect_of_step hsys with
    | callExecute hp =>
      exact {
        conserved := System.conserved_step h.conserved hsys
        accounted := System.accounted_step h.accounted hsys
        raised := h.raised
        rows := by rw [← hrows, List.append_assoc, List.singleton_append]
        taken := by simpa [hp, Producer.pending] using htaken
        sent := by simpa [hp, Producer.launched] using hsent
        order := h.order.trans (List.prefix_append _ _)
        arrived := h.arrived
        acked := hacked hsys (fun r ha => by cases ha)
        wanted := Nat.zero_le maxInflight
        drained := fun hdrained => by
          rw [(h.drained hdrained).1] at htodo
          cases htodo }
  | send sys hsys =>
    have htaken := h.taken
    cases System.effect_of_step hsys with
    | send t0 hp =>
      exact {
        conserved := System.conserved_step h.conserved hsys
        accounted := System.accounted_step h.accounted hsys
        raised := h.raised
        rows := h.rows
        taken := by simpa [hp, Producer.pending] using htaken
        sent := by simpa [hp, Producer.pending, Producer.launched] using htaken
        order := List.prefix_refl _
        arrived := fun w hw => mem_stampFrom_of_prefix h.order (h.arrived w hw)
        acked := hacked hsys (fun r ha => by cases ha)
        wanted := Nat.zero_le maxInflight
        drained := fun hdrained => ⟨(h.drained hdrained).1,
          System.afterDrain_step h.conserved (h.drained hdrained).2 rfl hsys⟩ }
  | drain sys htodo hdrained hsys =>
    have hconserved := System.conserved_step h.conserved hsys
    have htaken := h.taken
    have hsent := h.sent
    cases System.effect_of_step hsys with
    | callDrain m hp =>
      exact {
        conserved := hconserved
        accounted := System.accounted_step h.accounted hsys
        raised := h.raised
        rows := h.rows
        taken := by simpa [hp] using htaken
        sent := by simpa [hp] using hsent
        order := h.order
        arrived := h.arrived
        acked := hacked hsys (fun r ha => by cases ha)
        wanted := Producer.wanted_firstLoop maxInflight 0
        drained := fun _ =>
          ⟨htodo, System.afterDrain_of_firstLoop hconserved (Nat.zero_le maxInflight) rfl⟩ }
  | plain a sys ha hsys hack =>
    obtain ⟨hpending, hlaunched, hwanted, hraised⟩ := ha.lengths hsys
    exact {
      conserved := System.conserved_step h.conserved hsys
      accounted := System.accounted_step h.accounted hsys
      raised := hraised.trans h.raised
      rows := h.rows
      taken := h.taken.trans hpending.symm
      sent := h.sent.trans hlaunched.symm
      order := h.order
      arrived := h.arrived
      acked := hacked hsys (fun r hr => List.mem_map.mpr (hack r hr))
      wanted := hwanted.trans h.wanted
      drained := fun hdrained => ⟨(h.drained hdrained).1,
        System.afterDrain_step h.conserved (h.drained hdrained).2 ha.not_isCall hsys⟩ }

theorem run {events : List Delivery.Event}
    (hrun : Delivery.run maxInflight sampleEvery base rows events = some self) :
    Delivering maxInflight base rows self :=
  Runs.run_invariant (Delivery.step maxInflight base) (p := fun _ => True)
    (fun _ _ _ _ hs hstep => hs.step hstep) (fun _ _ => trivial)
    (init maxInflight sampleEvery base rows) hrun

/-- What has been sent, in order, are the first of the rows. -/
theorem sent_rows (h : Delivering maxInflight base rows self) : self.sent <+: rows := by
  rw [← h.rows]
  exact h.order.trans (List.prefix_append _ _)

theorem arrived_rows (h : Delivering maxInflight base rows self) {w : Write Row}
    (hw : w ∈ self.arrived) : w ∈ stampFrom base rows :=
  mem_stampFrom_of_prefix h.sent_rows (h.arrived w hw)

end Delivering

/-! ### What is missing -/

/-- The last row sent for a key is reported a failure. -/
def Delivery.LastFailed (self : Delivery) (key : RowKey) : Prop :=
  ∃ i row, self.sent[i]? = some row ∧ row.key = key ∧ self.sys.reported i = some .err ∧
    ∀ i' row', i < i' → self.sent[i']? = some row' → row'.key ≠ key

theorem Delivery.lastFailed_iff {self : Delivery} {key : RowKey} :
    self.LastFailed key ↔ ∃ i < self.sent.length, (self.sent.map Row.key)[i]? = some key ∧
      self.sys.reported i = some .err ∧
      ∀ i' < self.sent.length, i < i' → (self.sent.map Row.key)[i']? ≠ some key := by
  simp only [LastFailed, List.getElem?_map, Option.map_eq_some_iff, ne_eq]
  constructor
  · rintro ⟨i, row, hrow, hkey, herr, hlast⟩
    refine ⟨i, (List.getElem?_eq_some_iff.mp hrow).1, ⟨row, hrow, hkey⟩, herr, ?_⟩
    rintro i' _ hlt ⟨row', hrow', hkey'⟩
    exact hlast i' row' hlt hrow' hkey'
  · rintro ⟨i, _, ⟨row, hrow, hkey⟩, herr, hlast⟩
    refine ⟨i, row, hrow, hkey, herr, fun i' row' hlt hrow' hkey' => ?_⟩
    exact hlast i' (List.getElem?_eq_some_iff.mp hrow').1 hlt ⟨row', hrow', hkey'⟩

instance (self : Delivery) (key : RowKey) : Decidable (self.LastFailed key) :=
  decidable_of_iff _ Delivery.lastFailed_iff.symm

/-- Where no request has failed, no last one has. -/
theorem Delivery.not_lastFailed {d : Delivery} (h : d.sys.failed = 0) (key : RowKey) :
    ¬d.LastFailed key := by
  rintro ⟨i, row, _, _, herr, _⟩
  obtain ⟨request, hget, hstage⟩ := Option.bind_eq_some_iff.mp herr
  have hnot := List.countP_eq_zero.mp h request (List.mem_of_getElem? hget)
  exact hnot (decide_eq_true hstage)

namespace System

/-- Of a request without a success the callback has still to run, or was that of
    a failure. -/
theorem countP_unreported (s : System) :
    (s.requests.countP fun request => request.stage.outcome? ≠ some .done) =
      s.waiting + s.failed := by
  apply Runs.countP_eq_add
  rintro ⟨t0, _ | o | o⟩
  · simp [Stage.outcome?]
  · cases o <;> simp [Stage.outcome?]
  · cases o <;> simp [Stage.outcome?]

theorem reported_of_settled {s : System} (h : s.waiting = 0) {r : ℕ} (hr : r < s.requests.length)
    (hdone : s.reported r ≠ some .done) : s.reported r = some .err := by
  have hget := List.getElem?_eq_getElem hr
  have hstage := List.countP_eq_zero.mp h _ (List.mem_of_getElem? hget)
  rw [reported, hget, Option.bind_some] at hdone ⊢
  rcases hcases : s.requests[r].stage with _ | o | o
  · simp [hcases] at hstage
  · cases o <;> simp [hcases, Stage.outcome?] at hdone ⊢
  · cases o <;> simp [hcases, Stage.outcome?] at hdone ⊢

end System

namespace Delivering

variable {maxInflight sampleEvery base : ℕ} {rows : List Row} {self : Delivery}
  {before : Store RowKey Row}

/-- **No success is lost.**  A cell holds what it would if exactly the first `j`
    of the rows sent had arrived, and no later row of its key is reported a
    success. -/
theorem exists_cut (h : Delivering maxInflight base rows self)
    (holder : ∀ k w, before k = some w → w.stamp < base) (key : RowKey) :
    ∃ j, rowAt (self.store before) key =
        (lastFor Row.key (self.sent.take j) key).or (rowAt before key) ∧
      ∀ i row, j ≤ i → self.sent[i]? = some row → row.key = key →
        self.sys.reported i ≠ some .done := by
  obtain ⟨j, hrow, hmissing⟩ := LastWriter.exists_cut Row.key holder h.arrived key
  refine ⟨j, hrow, ?_⟩
  intro i row hi hget hkey hdone
  exact hmissing i row hi hget hkey (h.acked i hdone)

/-- Rows without a success are few. -/
theorem length_group_drop_le (h : Delivering maxInflight base rows self) {key : RowKey} {j : ℕ}
    (hj : ∀ i row, j ≤ i → self.sent[i]? = some row → row.key = key →
      self.sys.reported i ≠ some .done) :
    (group Row.key key (self.sent.drop j)).length ≤ self.sys.outstanding + self.sys.failed := by
  have hcount := Runs.countP_range_getElem?
    (fun request : Option Request => request.bind (fun r => r.stage.outcome?) ≠ some .done)
    self.sys.requests self.sys.producer.launched
  have hlaunched : self.sys.producer.launched ≤ self.sys.producer.inCall := by
    cases self.sys.producer <;> simp [Producer.launched, Producer.inCall]
  calc (group Row.key key (self.sent.drop j)).length
      ≤ self.sent.zipIdx.countP fun entry =>
          entry.1.key = key ∧ self.sys.reported entry.2 ≠ some .done :=
        LastWriter.length_group_drop_le Row.key hj
    _ ≤ self.sent.zipIdx.countP fun entry => self.sys.reported entry.2 ≠ some .done := by
        apply List.countP_mono_left
        intro entry _ hentry
        simp only [decide_eq_true_eq] at hentry ⊢
        exact hentry.2
    _ = (List.range self.sent.length).countP fun i => self.sys.reported i ≠ some .done := by
        rw [List.range_eq_range', ← List.zipIdx_map_snd, List.countP_map]
        rfl
    _ = self.sys.waiting + self.sys.failed + self.sys.producer.launched := by
        rw [h.sent, ← System.countP_unreported]
        exact hcount
    _ ≤ self.sys.outstanding + self.sys.failed := by
        rw [System.outstanding]
        omega

/-! ### The end of a run -/

/-- When the last `drain` has returned, every row has been sent and every request
    has been reported. -/
theorem of_finished (h : Delivering maxInflight base rows self) (hfinished : self.Finished) :
    self.sent = rows ∧ self.sys.requests.length = rows.length ∧ self.sys.waiting = 0 := by
  obtain ⟨htodo, hafter⟩ := h.drained hfinished.drained
  have htaken : self.taken = rows := by
    have hrows := h.rows
    rwa [htodo, List.append_nil] at hrows
  have hlength : self.sys.requests.length = rows.length := by
    have hlen := h.taken
    rw [hfinished.idle, htaken] at hlen
    exact hlen.symm
  refine ⟨?_, hlength, ?_⟩
  · refine htaken ▸ h.order.eq_of_length ?_
    rw [h.sent, hfinished.idle, hlength, htaken]
    rfl
  · rcases hafter with ⟨k, hp⟩ | ⟨_, hsettled⟩
    · rw [hfinished.idle] at hp
      cases hp
    · exact hsettled.waiting

/-- **After the last `drain`**, what a cell lacks has failed. -/
theorem exists_cut_of_finished (h : Delivering maxInflight base rows self)
    (hfinished : self.Finished) (holder : ∀ k w, before k = some w → w.stamp < base)
    (key : RowKey) :
    ∃ j, rowAt (self.store before) key =
        (lastFor Row.key (rows.take j) key).or (rowAt before key) ∧
      ∀ i row, j ≤ i → rows[i]? = some row → row.key = key →
        self.sys.reported i = some .err := by
  obtain ⟨hsent, hlength, hwaiting⟩ := h.of_finished hfinished
  obtain ⟨j, hrow, hdone⟩ := h.exists_cut holder key
  rw [hsent] at hrow hdone
  refine ⟨j, hrow, ?_⟩
  intro i row hi hget hkey
  have hlt : i < self.sys.requests.length := hlength ▸ (List.getElem?_eq_some_iff.mp hget).1
  exact System.reported_of_settled hwaiting hlt (hdone i row hi hget hkey)

/-- A key ends with its last row, unless that one has failed. -/
theorem rowAt_of_finished (h : Delivering maxInflight base rows self) (hfinished : self.Finished)
    (holder : ∀ k w, before k = some w → w.stamp < base) {key : RowKey}
    (hlast : ¬self.LastFailed key) :
    rowAt (self.store before) key = (lastFor Row.key rows key).or (rowAt before key) := by
  obtain ⟨j, hrow, herr⟩ := h.exists_cut_of_finished hfinished holder key
  suffices hdrop : ∀ row ∈ rows.drop j, row.key ≠ key by
    rw [hrow, ← LastWriter.lastFor_append_of_ne Row.key hdrop, List.take_append_drop]
  intro row hmem hkey
  obtain ⟨n, hn⟩ := List.getElem?_of_mem hmem
  rw [List.getElem?_drop] at hn
  -- the last row of the key stands after the cut, so it has failed
  obtain ⟨last, hfor⟩ := Option.ne_none_iff_exists'.mp fun hnone =>
    (LastWriter.lastFor_eq_none_iff Row.key).mp hnone row (List.mem_of_mem_drop hmem) hkey
  obtain ⟨i, hget, hafter⟩ := LastWriter.exists_last_index Row.key hfor
  have hlastkey := (LastWriter.mem_of_lastFor Row.key hfor).2
  have hle : j + n ≤ i := not_lt.mp fun hlt => hafter (j + n) row hlt hn hkey
  rw [← (h.of_finished hfinished).1] at hget hafter herr
  exact hlast ⟨i, last, hget, hlastkey, herr i last (by omega) hget hlastkey, hafter⟩

end Delivering

/-! ### Runs come to their end -/

/-- The steps that a callback has still to make. -/
def Stage.left : Stage → ℕ
  | .waiting => 2
  | .released _ => 1
  | .counted _ => 0

/-- The steps that a call has left, and its callback if it is not registered. -/
def Producer.left : Producer → ℕ
  | .idle => 0
  | .acquiring => 6
  | .sending _ => 5
  | .registering _ => 4
  | .returning => 1
  | .draining m k => m - k + m
  | .unwinding m k => m - k

@[simp] theorem Producer.left_idle : idle.left = 0 := rfl

@[simp] theorem Producer.left_draining (m k : ℕ) : (draining m k).left = m - k + m := rfl

@[simp] theorem Producer.left_unwinding (m k : ℕ) : (unwinding m k).left = m - k := rfl

theorem Producer.left_secondLoop (m k : ℕ) : (secondLoop m k).left = m - k := by
  rcases secondLoop_cases m k with ⟨_, heq⟩ | ⟨hle, heq⟩ <;> rw [heq]
  · rfl
  · simp only [left]
    omega

theorem Producer.left_firstLoop {m k : ℕ} (h : k ≤ m) : (firstLoop m k).left = m - k + m := by
  rcases firstLoop_cases m k with ⟨_, heq⟩ | ⟨hle, heq⟩ <;> rw [heq]
  · rfl
  · rw [left_secondLoop]
    omega

/-- The steps that an action calls for, itself included. -/
def Action.brings : Action → ℕ
  | .callExecute => 7
  | .callDrain m => 2 * m + 1
  | _ => 0

namespace System

def left (s : System) : ℕ := s.producer.left + (s.requests.map fun r => r.stage.left).sum

/-- Every step is one of those that were left. -/
theorem left_step {s s' : System} {a : Action} (hbounded : s.producer.Bounded)
    (ha : a ≠ .sendRaises) (hstep : s.step a = some s') : s'.left + 1 = s.left + a.brings := by
  cases effect_of_step hstep with
  | callExecute hp => simp [left, hp, Producer.left, Action.brings]; omega
  | acquire now hp hgate => simp [left, hp, Producer.left, Action.brings]; omega
  | send t0 hp => simp [left, hp, Producer.left, Action.brings]; omega
  | sendRaises t0 hp => exact absurd rfl ha
  | register t0 hp => simp [left, hp, Producer.left, Stage.left, Action.brings]; omega
  | ret hp => simp [left, hp, Producer.left, Action.brings]; omega
  | callDrain m hp =>
    have hloop := Producer.left_firstLoop (Nat.zero_le m)
    simp only [left, hp, Producer.left_idle, hloop, Action.brings]
    omega
  | drainAcquire m k hp hgate =>
    rw [hp] at hbounded
    have hlt : k < m := hbounded
    have hloop := Producer.left_firstLoop (Nat.succ_le_of_lt hlt)
    simp only [left, hp, Producer.left_draining, hloop, Action.brings]
    omega
  | drainRelease m k hp =>
    rw [hp] at hbounded
    have hlt : k < m := hbounded
    have hloop := Producer.left_secondLoop m (k + 1)
    simp only [left, hp, Producer.left_unwinding, hloop, Action.brings]
    omega
  | release r o t0 hr =>
    have hset := Runs.sum_map_set_add (fun r : Request => r.stage.left) ⟨t0, .released o⟩ hr
    simp only [Stage.left] at hset
    simp only [left, Stage.left, Action.brings]
    omega
  | accountDone r now t0 hr =>
    have hset := Runs.sum_map_set_add (fun r : Request => r.stage.left) ⟨t0, .counted .done⟩ hr
    simp only [Stage.left] at hset
    simp only [left, Stage.left, Action.brings]
    omega
  | accountErr r now t0 hr =>
    have hset := Runs.sum_map_set_add (fun r : Request => r.stage.left) ⟨t0, .counted .err⟩ hr
    simp only [Stage.left] at hset
    simp only [left, Stage.left, Action.brings]
    omega

/-- Either all callbacks are through, or the driver can go on with one, also if
    it has nothing but failures to report. -/
theorem exists_callback_step (s : System) :
    (∀ request ∈ s.requests, request.stage.left = 0) ∨
      ∃ a s', s.step a = some s' ∧ Delivery.Plain a ∧ ∀ r, a ≠ .release r .done := by
  by_cases h : ∀ request ∈ s.requests, request.stage.left = 0
  · exact Or.inl h
  · push Not at h
    obtain ⟨⟨t0, stage⟩, hmem, hleft⟩ := h
    obtain ⟨r, hr⟩ := List.getElem?_of_mem hmem
    right
    cases stage with
    | waiting =>
      refine ⟨.release r .err, _, by simp only [step, hr]; rfl, trivial, ?_⟩
      intro r' heq
      cases heq
    | released o =>
      cases o with
      | done =>
        refine ⟨.account r 0, _, by simp only [step, hr]; rfl, trivial, ?_⟩
        intro r' heq
        cases heq
      | err =>
        refine ⟨.account r 0, _, by simp only [step, hr]; rfl, trivial, ?_⟩
        intro r' heq
        cases heq
    | counted o => exact absurd rfl hleft

end System

namespace Delivery

def Event.isPipe : Event → Bool
  | .pipe _ => true
  | .arrive _ => false

/-- The steps of the pipeline that are left. -/
def left (maxInflight : ℕ) (self : Delivery) : ℕ :=
  7 * self.todo.length + self.sys.left + if self.drained then 0 else 2 * maxInflight + 1

end Delivery

namespace Delivering

variable {maxInflight sampleEvery base : ℕ} {rows : List Row} {self self' : Delivery}

theorem left_step (h : Delivering maxInflight base rows self) {e : Delivery.Event}
    (hstep : self.step maxInflight base e = some self') :
    self'.left maxInflight + (if e.isPipe then 1 else 0) = self.left maxInflight := by
  have hbounded := h.conserved.bounded
  cases Delivery.moves_of_step hstep with
  | arrive i row hrow => rfl
  | take row todo sys htodo hsys =>
    have hleft := System.left_step hbounded (by simp) hsys
    simp only [Delivery.left, htodo, Delivery.Event.isPipe, Action.brings,
      List.length_cons] at hleft ⊢
    simp only [if_true]
    omega
  | send sys hsys =>
    have hleft := System.left_step hbounded (by simp) hsys
    simp only [Delivery.left, Delivery.Event.isPipe, Action.brings] at hleft ⊢
    simp only [if_true]
    omega
  | drain sys htodo hdrained hsys =>
    have hleft := System.left_step hbounded (by simp) hsys
    simp only [Delivery.left, hdrained, Delivery.Event.isPipe, Action.brings] at hleft ⊢
    simp only [if_true, Bool.false_eq_true, if_false]
    omega
  | plain a sys ha hsys hack =>
    have hbrings : a.brings = 0 := by
      cases a with
      | callExecute => exact ha.elim
      | callDrain m => exact ha.elim
      | _ => rfl
    have hleft := System.left_step hbounded (by rintro rfl; exact ha) hsys
    simp only [Delivery.left, Delivery.Event.isPipe, hbrings] at hleft ⊢
    simp only [if_true]
    omega

/-- **The number of steps is known beforehand.** -/
theorem left_run {events : List Delivery.Event}
    (hrun : Delivery.run maxInflight sampleEvery base rows events = some self) :
    events.countP Delivery.Event.isPipe + self.left maxInflight =
      7 * rows.length + 2 * maxInflight + 1 := by
  have hinv := Runs.run_history (Delivery.step maxInflight base)
    (I := fun past d => Delivering maxInflight base rows d ∧
      past.countP Delivery.Event.isPipe + d.left maxInflight =
        7 * rows.length + 2 * maxInflight + 1) ?_ []
    ⟨init maxInflight sampleEvery base rows, ?_⟩ hrun
  · exact hinv.2
  · intro past d e d' hs hstep
    refine ⟨hs.1.step hstep, ?_⟩
    have hleft := hs.1.left_step hstep
    have hcount := hs.2
    rw [List.countP_append, List.countP_singleton]
    omega
  · simp [Delivery.left, Delivery.init, System.left, System.init, Producer.left]
    omega

/-- A step that neither takes nor sends a row, and reports no success, needs nothing but
    the pipeline. -/
theorem exists_step_of_plain {a : Action} {sys : System} (hsys : self.sys.step a = some sys)
    (ha : Delivery.Plain a) (hdone : ∀ r, a ≠ .release r .done) :
    ∃ a self', self.step maxInflight base (.pipe a) = some self' := by
  refine ⟨a, { self with sys }, ?_⟩
  cases a with
  | callExecute => exact ha.elim
  | send => exact ha.elim
  | sendRaises => exact ha.elim
  | callDrain m => exact ha.elim
  | release r o =>
    cases o with
    | done => exact absurd rfl (hdone r)
    | err => simp only [Delivery.step, hsys, Option.map_some]
  | _ => simp only [Delivery.step, hsys, Option.map_some]

/-- **The pipeline never gets stuck**: while steps are left, one is possible. -/
theorem exists_step (h : Delivering maxInflight base rows self) (hmax : 1 ≤ maxInflight)
    (hleft : self.left maxInflight ≠ 0) :
    ∃ a self', self.step maxInflight base (.pipe a) = some self' := by
  rcases self.sys.exists_callback_step with hthrough | ⟨a, sys, hsys, ha, hdone⟩
  · -- no callback is left, so that the producer has every permit it can want
    have hwaiting : self.sys.waiting = 0 := by
      rw [System.waiting, List.countP_eq_zero]
      intro request hmem hstage
      have hzero := hthrough request hmem
      rw [of_decide_eq_true hstage] at hzero
      cases hzero
    have hpermits : ∀ p, self.sys.producer = p →
        self.sys.pipe.gate + p.held + (p.inCall + self.sys.waiting) + self.sys.raised =
          maxInflight := fun p hp => h.conserved.permits_of hp
    have hraised := h.raised
    cases hp : self.sys.producer with
    | idle =>
      cases htodo : self.todo with
      | cons row todo =>
        exact ⟨.callExecute, _, by simp only [Delivery.step, htodo, System.step, hp]; rfl⟩
      | nil =>
        cases hdrained : self.drained with
        | false =>
          exact ⟨.callDrain maxInflight, _, by
            simp only [Delivery.step, htodo, hdrained, System.step, hp, and_self, if_true]; rfl⟩
        | true =>
          have hsum : (self.sys.requests.map fun r => r.stage.left).sum = 0 := by
            rw [List.sum_eq_zero_iff_forall_eq_nat]
            intro n hn
            obtain ⟨request, hmem, rfl⟩ := List.mem_map.mp hn
            exact hthrough request hmem
          exact absurd (by simp [Delivery.left, System.left, htodo, hdrained, hp, hsum,
            Producer.left]) hleft
    | acquiring =>
      have hgate : 0 < self.sys.pipe.gate := by
        have hall := hpermits _ hp
        simp only [Producer.held, Producer.inCall] at hall
        omega
      exact exists_step_of_plain (a := .acquire 0)
        (by simp only [System.step, hp, if_pos hgate]; rfl) trivial (fun r heq => by cases heq)
    | sending t0 =>
      exact ⟨.send, _, by simp only [Delivery.step, System.step, hp]; rfl⟩
    | registering t0 =>
      exact exists_step_of_plain (a := .register) (by simp only [System.step, hp]; rfl) trivial
        (fun r heq => by cases heq)
    | returning =>
      exact exists_step_of_plain (a := .ret) (by simp only [System.step, hp]; rfl) trivial
        (fun r heq => by cases heq)
    | draining m k =>
      have hgate : 0 < self.sys.pipe.gate := by
        have hall := hpermits _ hp
        have hwanted := h.wanted
        have hbounded := h.conserved.bounded
        rw [hp] at hwanted hbounded
        simp only [Producer.held, Producer.inCall] at hall
        have hlt : k < m := hbounded
        have hle : m ≤ maxInflight := hwanted
        omega
      exact exists_step_of_plain (a := .drainAcquire)
        (by simp only [System.step, hp, if_pos hgate]; rfl) trivial (fun r heq => by cases heq)
    | unwinding m k =>
      exact exists_step_of_plain (a := .drainRelease) (by simp only [System.step, hp]; rfl) trivial
        (fun r heq => by cases heq)
  · exact exists_step_of_plain hsys ha hdone

/-- **When no step is left**, the last `drain` has returned and the totals are
    those of all rows. -/
theorem of_left_eq_zero (h : Delivering maxInflight base rows self)
    (hleft : self.left maxInflight = 0) : self.Finished ∧ self.sys.Totals rows.length := by
  have hbounded := h.conserved.bounded
  have hproducer : self.sys.producer.left = 0 := by
    simp only [Delivery.left, System.left] at hleft
    omega
  have hsum : (self.sys.requests.map fun r => r.stage.left).sum = 0 := by
    simp only [Delivery.left, System.left] at hleft
    omega
  have hfinished : self.Finished := by
    constructor
    · cases hdrained : self.drained with
      | true => rfl
      | false =>
        simp [Delivery.left, hdrained] at hleft
    · cases hp : self.sys.producer with
      | idle => rfl
      | draining m k =>
        rw [hp] at hproducer hbounded
        have hlt : k < m := hbounded
        simp only [Producer.left] at hproducer
        omega
      | unwinding m k =>
        rw [hp] at hproducer hbounded
        have hlt : k < m := hbounded
        simp only [Producer.left] at hproducer
        omega
      | _ => simp [hp, Producer.left] at hproducer
  obtain ⟨_, hlength, hwaiting⟩ := h.of_finished hfinished
  refine ⟨hfinished, hlength ▸ (System.totals_iff h.accounted hwaiting).mpr ?_⟩
  rw [System.halfFinished, System.tally, List.countP_eq_zero]
  intro request hmem hreleased
  have hzero := List.sum_eq_zero_iff_forall_eq_nat.mp hsum _ (List.mem_map_of_mem hmem)
  rcases request with ⟨t0, _ | o | o⟩
  · cases hreleased
  · cases hzero
  · cases hreleased

/-- Every run can be brought to its end. -/
theorem exists_finish (h : Delivering maxInflight base rows self) (hmax : 1 ≤ maxInflight) :
    ∃ more self', Runs.run (Delivery.step maxInflight base) self more = some self' ∧
      self'.left maxInflight = 0 := by
  induction hn : self.left maxInflight generalizing self with
  | zero => exact ⟨[], self, rfl, hn⟩
  | succ n ih =>
    obtain ⟨a, mid, hstep⟩ := h.exists_step hmax (by omega)
    have hleft := h.left_step hstep
    rw [Delivery.Event.isPipe, if_pos rfl] at hleft
    obtain ⟨more, self', hrun, hzero⟩ := ih (h.step hstep) (by omega)
    exact ⟨.pipe a :: more, self', (Runs.run_cons _).mpr ⟨mid, hstep, hrun⟩, hzero⟩

end Delivering

end FeatureStore
