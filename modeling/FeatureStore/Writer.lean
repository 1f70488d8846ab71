/-
  FeatureStore/Writer.lean
  ========================
  **The pipelined write path** (`src/feature_store/writer.py`).

  `Pipeline` holds the fields of the source's class.  `System` adds the parties:
  the one producer thread, with its place in `execute` or `drain`, and the
  driver, which runs one of the two callbacks of every request whose callbacks
  have been registered, at any moment from then on, also before `add_callbacks`
  has returned to the producer.

  Each step of `System.step` is one access to shared state.  A callback is two
  of them: it releases the gate, and then, under the lock, it does the
  accounting.
-/
import FeatureStore.Runs
import Mathlib.Data.Rat.Defs
import Mathlib.Algebra.Order.Ring.Rat

namespace FeatureStore

/-- `maxlen` of the deque of sampled latencies. -/
def LATENCIES_MAXLEN : ℕ := 200000

/-- `append` of a deque with a bound on its length. -/
def appendBounded (maxlen : ℕ) (l : List ℚ) (x : ℚ) : List ℚ :=
  (l ++ [x]).drop (l.length + 1 - maxlen)

theorem length_appendBounded (maxlen : ℕ) (l : List ℚ) (x : ℚ) :
    (appendBounded maxlen l x).length = min maxlen (l.length + 1) := by
  rw [appendBounded, List.length_drop, List.length_append, List.length_singleton]
  omega

/-! ### The object -/

structure Pipeline where
  gate : ℕ -- the permits that the semaphore has
  errors : ℕ := 0
  count : ℕ := 0
  sampleEvery : ℕ := 256
  latencies : List ℚ := [] -- sampled write latencies (ms)
  n : ℕ := 0

namespace Pipeline

/-- `execute` once it has a permit: count the call, and take the time if it is
    sampled. -/
def start (self : Pipeline) (now : ℚ) : Pipeline × Option ℚ :=
  let n := self.n + 1
  let sampled := n % self.sampleEvery = 0
  ({ self with gate := self.gate - 1, n }, if sampled then some now else none)

/-- `gate.release()`. -/
def release (self : Pipeline) : Pipeline := { self with gate := self.gate + 1 }

/-- The locked part of `_done`. -/
def countDone (self : Pipeline) (t0 : Option ℚ) (now : ℚ) : Pipeline :=
  { self with
    count := self.count + 1
    latencies :=
      match t0 with
      | none => self.latencies
      | some t0 => appendBounded LATENCIES_MAXLEN self.latencies ((now - t0) * 1000) }

/-- The locked part of `_err`. -/
def countErr (self : Pipeline) : Pipeline := { self with errors := self.errors + 1 }

end Pipeline

/-! ### The parties -/

/-- Which of the two callbacks the driver runs. -/
inductive Outcome where
  | done
  | err
deriving DecidableEq, Repr

/-- How far the callback of a registered request has got. -/
inductive Stage where
  | waiting
  | released (o : Outcome) -- between `gate.release()` and the locked update
  | counted (o : Outcome)
deriving DecidableEq, Repr

/-- A request whose callbacks are registered, with the `t0` they hold. -/
structure Request where
  t0 : Option ℚ
  stage : Stage
deriving DecidableEq, Repr

/-- The place of the producer. -/
inductive Producer where
  | idle
  | acquiring -- in `execute`, at `gate.acquire()`
  | sending (t0 : Option ℚ) -- has its permit, at `execute_async`
  | registering (t0 : Option ℚ) -- at `add_callbacks`
  | returning -- the callbacks are registered, `add_callbacks` has not returned
  | draining (m k : ℕ) -- in `drain(m)`, has acquired `k`
  | unwinding (m k : ℕ) -- in `drain(m)`, has released `k`
deriving DecidableEq, Repr

namespace Producer

/-- The second loop of `drain(m)` after `k` turns. -/
def secondLoop (m k : ℕ) : Producer := if k < m then .unwinding m k else .idle

/-- The first loop of `drain(m)` after `k` turns. -/
def firstLoop (m k : ℕ) : Producer := if k < m then .draining m k else secondLoop m 0

end Producer

structure System where
  pipe : Pipeline
  producer : Producer := .idle
  requests : List Request := [] -- in the order of registration
  raised : ℕ := 0 -- calls that `execute_async` has ended with an exception

inductive Action where
  | callExecute
  | acquire (now : ℚ)
  | send
  | sendRaises
  | register
  | ret
  | callDrain (m : ℕ)
  | drainAcquire
  | drainRelease
  | release (r : ℕ) (o : Outcome) -- the first step of a callback of request `r`
  | account (r : ℕ) (now : ℚ) -- its second step
deriving DecidableEq, Repr

namespace System

/-- `Pipeline(max_inflight, sample_every)`, before any call. -/
def init (maxInflight sampleEvery : ℕ) : System :=
  { pipe := { gate := maxInflight, sampleEvery } }

def step (s : System) (a : Action) : Option System :=
  match a with
  | .callExecute =>
      match s.producer with
      | .idle => some { s with producer := .acquiring }
      | _ => none
  | .acquire now =>
      match s.producer with
      | .acquiring =>
          if 0 < s.pipe.gate then
            some { s with pipe := (s.pipe.start now).1, producer := .sending (s.pipe.start now).2 }
          else none
      | _ => none
  | .send =>
      match s.producer with
      | .sending t0 => some { s with producer := .registering t0 }
      | _ => none
  | .sendRaises => -- the exception leaves `execute`, which still has its permit
      match s.producer with
      | .sending _ => some { s with producer := .idle, raised := s.raised + 1 }
      | _ => none
  | .register =>
      match s.producer with
      | .registering t0 =>
          some { s with producer := .returning, requests := s.requests ++ [⟨t0, .waiting⟩] }
      | _ => none
  | .ret =>
      match s.producer with
      | .returning => some { s with producer := .idle }
      | _ => none
  | .callDrain m =>
      match s.producer with
      | .idle => some { s with producer := .firstLoop m 0 }
      | _ => none
  | .drainAcquire =>
      match s.producer with
      | .draining m k =>
          if 0 < s.pipe.gate then
            some { s with
              pipe := { s.pipe with gate := s.pipe.gate - 1 }
              producer := .firstLoop m (k + 1) }
          else none
      | _ => none
  | .drainRelease =>
      match s.producer with
      | .unwinding m k => some { s with pipe := s.pipe.release, producer := .secondLoop m (k + 1) }
      | _ => none
  | .release r o =>
      match s.requests[r]? with
      | some ⟨t0, .waiting⟩ =>
          some { s with pipe := s.pipe.release, requests := s.requests.set r ⟨t0, .released o⟩ }
      | _ => none
  | .account r now =>
      match s.requests[r]? with
      | some ⟨t0, .released .done⟩ =>
          some { s with
            pipe := s.pipe.countDone t0 now
            requests := s.requests.set r ⟨t0, .counted .done⟩ }
      | some ⟨t0, .released .err⟩ =>
          some { s with pipe := s.pipe.countErr, requests := s.requests.set r ⟨t0, .counted .err⟩ }
      | _ => none

/-- The state after a run of the producer and the driver. -/
def run (s : System) (actions : List Action) : Option System := Runs.run step s actions

/-- **What a step can do.** -/
inductive Effect (s : System) : Action → System → Prop
  | callExecute (h : s.producer = .idle) : Effect s .callExecute { s with producer := .acquiring }
  | acquire (now : ℚ) (h : s.producer = .acquiring) (hgate : 0 < s.pipe.gate) :
      Effect s (.acquire now)
        { s with pipe := (s.pipe.start now).1, producer := .sending (s.pipe.start now).2 }
  | send (t0 : Option ℚ) (h : s.producer = .sending t0) :
      Effect s .send { s with producer := .registering t0 }
  | sendRaises (t0 : Option ℚ) (h : s.producer = .sending t0) :
      Effect s .sendRaises { s with producer := .idle, raised := s.raised + 1 }
  | register (t0 : Option ℚ) (h : s.producer = .registering t0) :
      Effect s .register
        { s with producer := .returning, requests := s.requests ++ [⟨t0, .waiting⟩] }
  | ret (h : s.producer = .returning) : Effect s .ret { s with producer := .idle }
  | callDrain (m : ℕ) (h : s.producer = .idle) :
      Effect s (.callDrain m) { s with producer := .firstLoop m 0 }
  | drainAcquire (m k : ℕ) (h : s.producer = .draining m k) (hgate : 0 < s.pipe.gate) :
      Effect s .drainAcquire
        { s with
          pipe := { s.pipe with gate := s.pipe.gate - 1 }
          producer := .firstLoop m (k + 1) }
  | drainRelease (m k : ℕ) (h : s.producer = .unwinding m k) :
      Effect s .drainRelease { s with pipe := s.pipe.release, producer := .secondLoop m (k + 1) }
  | release (r : ℕ) (o : Outcome) (t0 : Option ℚ) (h : s.requests[r]? = some ⟨t0, .waiting⟩) :
      Effect s (.release r o)
        { s with pipe := s.pipe.release, requests := s.requests.set r ⟨t0, .released o⟩ }
  | accountDone (r : ℕ) (now : ℚ) (t0 : Option ℚ)
      (h : s.requests[r]? = some ⟨t0, .released .done⟩) :
      Effect s (.account r now)
        { s with
          pipe := s.pipe.countDone t0 now
          requests := s.requests.set r ⟨t0, .counted .done⟩ }
  | accountErr (r : ℕ) (now : ℚ) (t0 : Option ℚ)
      (h : s.requests[r]? = some ⟨t0, .released .err⟩) :
      Effect s (.account r now)
        { s with pipe := s.pipe.countErr, requests := s.requests.set r ⟨t0, .counted .err⟩ }

theorem effect_of_step {s s' : System} {a : Action} (h : s.step a = some s') : Effect s a s' := by
  cases a with
  | callExecute =>
    simp only [step] at h
    split at h
    · rename_i hp
      cases h
      exact .callExecute hp
    · cases h
  | acquire now =>
    simp only [step] at h
    split at h
    · rename_i hp
      split at h
      · rename_i hgate
        cases h
        exact .acquire now hp hgate
      · cases h
    · cases h
  | send =>
    simp only [step] at h
    split at h
    · rename_i t0 hp
      cases h
      exact .send t0 hp
    · cases h
  | sendRaises =>
    simp only [step] at h
    split at h
    · rename_i t0 hp
      cases h
      exact .sendRaises t0 hp
    · cases h
  | register =>
    simp only [step] at h
    split at h
    · rename_i t0 hp
      cases h
      exact .register t0 hp
    · cases h
  | ret =>
    simp only [step] at h
    split at h
    · rename_i hp
      cases h
      exact .ret hp
    · cases h
  | callDrain m =>
    simp only [step] at h
    split at h
    · rename_i hp
      cases h
      exact .callDrain m hp
    · cases h
  | drainAcquire =>
    simp only [step] at h
    split at h
    · rename_i m k hp
      split at h
      · rename_i hgate
        cases h
        exact .drainAcquire m k hp hgate
      · cases h
    · cases h
  | drainRelease =>
    simp only [step] at h
    split at h
    · rename_i m k hp
      cases h
      exact .drainRelease m k hp
    · cases h
  | release r o =>
    simp only [step] at h
    split at h
    · rename_i t0 hr
      cases h
      exact .release r o t0 hr
    · cases h
  | account r now =>
    simp only [step] at h
    split at h
    · rename_i t0 hr
      cases h
      exact .accountDone r now t0 hr
    · rename_i t0 hr
      cases h
      exact .accountErr r now t0 hr
    · cases h

end System

end FeatureStore
