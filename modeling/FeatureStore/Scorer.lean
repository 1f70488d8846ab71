/-
  FeatureStore/Scorer.lean
  ========================
  **Unusual accumulation** (`src/feature_store/scorer.py`).

  A window row is a snapshot, or missing.  `math.exp` is a parameter, whose
  value is `none` where it raises an `OverflowError`.
-/
import FeatureStore.Features
import FeatureStore.Rounding
import Mathlib.Tactic.FieldSimp
import Mathlib.Tactic.NormNum

namespace FeatureStore

/-- `_rate`: the traded volume per second, zero for a missing row. -/
def rate (windowRow : Option Snapshot) (seconds : ℚ) : ℚ :=
  match windowRow with
  | none => 0
  | some row => row.volume / seconds

/-- `base_rate` of `unusual_accumulation`, `_rate(w1h, 3600) or 1e-9`. -/
def baseRate (w1h : Option Snapshot) : ℚ :=
  if rate w1h 3600 ≠ 0 then rate w1h 3600 else 1e-9

/-- `short_rate` of `unusual_accumulation`. -/
def shortRate (w1m : Option Snapshot) : ℚ := rate w1m 60

/-- The ratio that `unusual_accumulation` squashes into `vol_spike`. -/
def volRatio (w1m w1h : Option Snapshot) : ℚ := shortRate w1m / baseRate w1h

theorem volRatio_of_pos {s h : Snapshot} (hpos : 0 < h.volume) :
    volRatio (some s) (some h) = 60 * (s.volume / h.volume) := by
  have hne : rate (some h) 3600 ≠ 0 := div_ne_zero (ne_of_gt hpos) (by norm_num)
  have hbase : baseRate (some h) = h.volume / 3600 := if_pos hne
  have hv : h.volume ≠ 0 := ne_of_gt hpos
  rw [volRatio, hbase, shortRate, rate]
  field_simp
  norm_num

/-! ### The score -/

section Score

variable (exp : ℚ → Option ℚ)

/-- `_sig`: logistic squash centred at `mid`. -/
def sig (x k mid : ℚ) : ℚ :=
  match exp (-k * (x - mid)) with
  | some e => 1 / (1 + e)
  | none => if x < mid then 0 else 1

/-- The components of the score. -/
structure Components where
  volSpike : ℚ
  imbalance : ℚ
  concentration : ℚ
  bigFlow : ℚ
deriving DecidableEq, Repr

/-- The local variables of `unusual_accumulation` that are its components. -/
def components (w1m w1h : Option Snapshot) : Components :=
  let imb := (w1m.map Snapshot.buySellImbalance).getD 0
  let hhi := (w1m.map Snapshot.hhi).getD 0
  let volume := (w1m.map Snapshot.volume).getD 0
  let vol1m := if volume ≠ 0 then volume else 1e-9
  let big := (w1m.map Snapshot.largeFlow).getD 0
  { volSpike := sig exp (volRatio w1m w1h) 1 3 -- 3x baseline -> 0.5
    imbalance := max 0 imb -- only buy-side imbalance counts as accumulation
    concentration := min 1 (hhi / 0.2)
    bigFlow := max 0 (min 1 (big / vol1m)) }

/-- The local variable `score`. -/
def rawScore (w1m w1h : Option Snapshot) : ℚ :=
  let c := components exp w1m w1h
  0.35 * c.volSpike + 0.30 * c.imbalance + 0.20 * c.concentration + 0.15 * c.bigFlow

/-- The values of `label`. -/
inductive Label where
  | unusualAccumulation
  | elevated
  | normal
deriving DecidableEq, Repr

/-- What `unusual_accumulation` returns. -/
structure Scored where
  score : ℚ
  components : Components
  label : Label
deriving DecidableEq, Repr

/-- Every component rounded to four places. -/
def Components.round (c : Components) : Components where
  volSpike := Rounding.roundTo 4 c.volSpike
  imbalance := Rounding.roundTo 4 c.imbalance
  concentration := Rounding.roundTo 4 c.concentration
  bigFlow := Rounding.roundTo 4 c.bigFlow

def unusualAccumulation (w1m _w5m w1h : Option Snapshot) : Scored :=
  let score := rawScore exp w1m w1h
  { score := Rounding.roundTo 4 score
    components := (components exp w1m w1h).round
    label :=
      if score ≥ 0.6 then .unusualAccumulation
      else if score ≥ 0.4 then .elevated
      else .normal }

end Score

end FeatureStore
