/-
  FeatureStore/Scoreboard.lean
  ============================
  **The scoreboard of the dashboard** (`_reader_thread` of
  `src/feature_store/dashboard.py`) and the label it publishes.

  A row of the board shows the score and the label that the scorer returns.  The
  scorer rounds the score that it returns to four places and compares the unrounded
  one with its thresholds.  Rounding can lift a score onto a threshold, from half a
  unit of the last place below it, and then the label is one lower than the score
  shown would have (`published_label`).  It cannot lower a score below a threshold.

  The signal of a row compares the rounded score; it is never LONG on a coin with a
  normal label (`label_ne_normal_of_long`).
-/
import FeatureStore.Dashboard
import FeatureStore.ScoreRange
import FeatureStore.Sorting
import Mathlib.Data.Prod.Lex

namespace FeatureStore

/-! ### The board -/

/-- The values of `action`; `none` is shown as a dash. -/
inductive Signal where
  | long
  | short
  | none
deriving DecidableEq, Repr

structure BoardRow where
  coin : String
  score : ℚ
  label : Label
  smart : ℚ
  action : Signal
  vol : ℚ
deriving DecidableEq, Repr

-- the key of the ranking
def BoardRow.conviction (self : BoardRow) : ℚ ×ₗ ℚ := toLex (|self.smart|, self.score)

section Board

variable (exp : ℚ → Option ℚ)

/-- The body of the loop over `hot`, for an entry and the rows that it has read. -/
def boardRow (h : ℚ × String) (rows : Window → Option Snapshot) : BoardRow :=
  let sc := unusualAccumulation exp (rows .m1) (rows .m5) (rows .h1)
  let smartNorm := smartNorm (rows .m5)
  { coin := h.2
    score := sc.score
    label := sc.label
    smart := Rounding.roundTo 4 smartNorm
    action :=
      if sc.score ≥ 0.5 ∧ smartNorm > 0.05 then .long
      else if smartNorm < -0.15 then .short
      else .none
    vol := h.1 }

/-- `STATS["scoreboard"]`, from the entries of `hot` with the rows read for each.  The
    sort is stable, also in reverse. -/
def board (hot : List ((ℚ × String) × (Window → Option Snapshot))) : List BoardRow :=
  Sorting.sortBy (fun x : BoardRow => OrderDual.toDual x.conviction)
    (hot.map fun entry => boardRow exp entry.1 entry.2)

theorem mem_board_iff {hot : List ((ℚ × String) × (Window → Option Snapshot))} {row : BoardRow} :
    row ∈ board exp hot ↔ ∃ entry ∈ hot, boardRow exp entry.1 entry.2 = row :=
  (Sorting.sortBy_perm _ _).mem_iff.trans List.mem_map

theorem board_ranked (hot : List ((ℚ × String) × (Window → Option Snapshot))) :
    (board exp hot).Pairwise fun a b => b.conviction ≤ a.conviction :=
  Sorting.pairwise_sortBy (fun x : BoardRow => OrderDual.toDual x.conviction) _

end Board

/-! ### Thresholds -/

/-- The label that the thresholds of `unusual_accumulation` assign to a score. -/
def Label.assigned (score : ℚ) : Label :=
  if score ≥ 0.6 then .unusualAccumulation
  else if score ≥ 0.4 then .elevated
  else .normal

namespace Label

theorem assigned_eq_unusualAccumulation_iff {x : ℚ} :
    assigned x = .unusualAccumulation ↔ 0.6 ≤ x := by
  unfold assigned
  split
  · exact iff_of_true rfl ‹_›
  · split <;> exact iff_of_false (by simp) ‹_›

theorem assigned_eq_normal_iff {x : ℚ} : assigned x = .normal ↔ x < 0.4 := by
  unfold assigned
  split
  · exact iff_of_false (by simp) (by linarith)
  · split
    · exact iff_of_false (by simp) (by linarith)
    · exact iff_of_true rfl (not_le.mp ‹_›)

/-- Two scores have the same label if no threshold is between them. -/
theorem assigned_eq_assigned_iff {x y : ℚ} :
    assigned x = assigned y ↔ (0.6 ≤ x ↔ 0.6 ≤ y) ∧ (0.4 ≤ x ↔ 0.4 ≤ y) := by
  constructor
  · intro h
    constructor
    · rw [← assigned_eq_unusualAccumulation_iff, ← assigned_eq_unusualAccumulation_iff, h]
    · rw [← not_lt, ← not_lt, ← assigned_eq_normal_iff, ← assigned_eq_normal_iff, h]
  · rintro ⟨hhigh, hlow⟩
    simp only [assigned, ge_iff_le, hhigh, hlow]

end Label

/-! ### Rounding across a threshold -/

/-- What holds of the label and of the score that are published for the unrounded
    score `raw`. -/
structure Published (raw score : ℚ) (label : Label) : Prop where
  unrounded : label = .assigned raw
  agree : label = .assigned score ↔ raw ∉ Set.Ico 0.39995 0.4 ∧ raw ∉ Set.Ico 0.59995 0.6
  below_elevated : raw ∈ Set.Ico 0.39995 0.4 → score = 0.4 ∧ label = .normal
  below_unusual : raw ∈ Set.Ico 0.59995 0.6 → score = 0.6 ∧ label = .elevated

theorem ge_iff_ge_iff_notMem_Ico {a b x : ℚ} (hab : a ≤ b) :
    (b ≤ x ↔ a ≤ x) ↔ x ∉ Set.Ico a b := by
  constructor
  · rintro h ⟨ha, hb⟩
    exact absurd (h.mpr ha) (not_le.mpr hb)
  · intro h
    refine ⟨hab.trans, fun ha => ?_⟩
    by_contra hb
    exact h ⟨ha, not_le.mp hb⟩

/-- `c` has four decimal places, the last of them even, and `low` is half a unit of
    the last place below. -/
def Threshold (low c : ℚ) : Prop :=
  ∃ m : ℤ, m % 2 = 0 ∧ (m - 1 / 2) / 10 ^ 4 = low ∧ (m : ℚ) / 10 ^ 4 = c

theorem Threshold.le_roundTo_iff {low c raw : ℚ} (h : Threshold low c) :
    c ≤ Rounding.roundTo 4 raw ↔ low ≤ raw := by
  obtain ⟨m, hm, rfl, rfl⟩ := h
  exact Rounding.le_roundTo_iff hm

theorem Threshold.roundTo_eq {low c raw : ℚ} (h : Threshold low c) (hraw : raw ∈ Set.Ico low c) :
    Rounding.roundTo 4 raw = c := by
  obtain ⟨m, hm, rfl, rfl⟩ := h
  exact Rounding.roundTo_eq_of_mem_Ico hm hraw

theorem Threshold.roundTo_le {low c raw : ℚ} (h : Threshold low c) (hraw : raw ≤ c) :
    Rounding.roundTo 4 raw ≤ c := by
  obtain ⟨m, _, _, rfl⟩ := h
  exact Rounding.roundTo_le hraw

theorem threshold_elevated : Threshold 0.39995 0.4 := ⟨4000, rfl, by norm_num, by norm_num⟩

theorem threshold_unusual : Threshold 0.59995 0.6 := ⟨6000, rfl, by norm_num, by norm_num⟩

theorem published_roundTo (raw : ℚ) :
    Published raw (Rounding.roundTo 4 raw) (.assigned raw) where
  unrounded := rfl
  agree := by
    have helevated : ((0.4 : ℚ) ≤ raw ↔ 0.39995 ≤ raw) ↔ raw ∉ Set.Ico 0.39995 0.4 :=
      ge_iff_ge_iff_notMem_Ico (by norm_num)
    have hunusual : ((0.6 : ℚ) ≤ raw ↔ 0.59995 ≤ raw) ↔ raw ∉ Set.Ico 0.59995 0.6 :=
      ge_iff_ge_iff_notMem_Ico (by norm_num)
    rw [Label.assigned_eq_assigned_iff, threshold_unusual.le_roundTo_iff,
      threshold_elevated.le_roundTo_iff, helevated, hunusual, and_comm]
  below_elevated h := ⟨threshold_elevated.roundTo_eq h, Label.assigned_eq_normal_iff.mpr h.2⟩
  below_unusual h := by
    have hge : (0.4 : ℚ) ≤ raw := le_trans (by norm_num) h.1
    refine ⟨threshold_unusual.roundTo_eq h, ?_⟩
    rw [Label.assigned, if_neg (not_le.mpr h.2), if_pos hge]

/-- A LONG signal has at least an elevated label. -/
theorem label_ne_normal_of_long {exp : ℚ → Option ℚ} {h : ℚ × String}
    {rows : Window → Option Snapshot} (hlong : (boardRow exp h rows).action = .long) :
    (boardRow exp h rows).label ≠ .normal := by
  intro hnormal
  have hraw : rawScore exp (rows .m1) (rows .h1) < 0.4 := Label.assigned_eq_normal_iff.mp hnormal
  have hscore : Rounding.roundTo 4 (rawScore exp (rows .m1) (rows .h1)) ≤ 0.4 :=
    threshold_elevated.roundTo_le hraw.le
  have hlow : (boardRow exp h rows).score < 0.5 := lt_of_le_of_lt hscore (by norm_num)
  simp only [boardRow] at hlong hlow
  split at hlong
  · rename_i hge
    exact absurd hge.1 (not_le.mpr hlow)
  · split at hlong <;> cases hlong

/-- **The published label.**  It is the label of the unrounded score, for the caller
    of the scorer and on the board.  It is the label of the score published with it
    unless rounding has lifted that score onto a threshold: the unrounded score is
    then at most half a unit of the last place below 0.4 or 0.6, the published score
    is the threshold itself, and the label is that of the scores below it. -/
theorem published_label (exp : ℚ → Option ℚ) :
    (∀ w1m w5m w1h : Option Snapshot,
      Published (rawScore exp w1m w1h) (unusualAccumulation exp w1m w5m w1h).score
        (unusualAccumulation exp w1m w5m w1h).label) ∧
    ∀ (hot : List ((ℚ × String) × (Window → Option Snapshot))), ∀ row ∈ board exp hot,
      ∃ entry ∈ hot, row.coin = entry.1.2 ∧
        Published (rawScore exp (entry.2 .m1) (entry.2 .h1)) row.score row.label := by
  refine ⟨fun w1m _ w1h => published_roundTo (rawScore exp w1m w1h), fun hot row hrow => ?_⟩
  obtain ⟨entry, hentry, rfl⟩ := (mem_board_iff exp).mp hrow
  exact ⟨entry, hentry, rfl, published_roundTo (rawScore exp (entry.2 .m1) (entry.2 .h1))⟩

/-! ### A score just below a threshold -/

/-- One wallet, which buys a little more than it sells. -/
def splitFills : List Fill :=
  [⟨"w", "BTC", 5833, 1, .B, 0, 0, true⟩, ⟨"w", "BTC", 4167, 1, .A, 0, 0, true⟩]

def splitRow (win : Window) : Option Snapshot :=
  (FeatureEngine.after splitFills).openSnapshot? "BTC" win

theorem fromEngine_splitRow (win : Window) : FromEngine win (splitRow win) :=
  fromEngine_openSnapshot (by decide +kernel) "BTC" win

/-- The volume ratio is 60, where the logistic function is almost one. -/
theorem rawScore_splitRow {exp : ℚ → Option ℚ} {e : ℚ} (he : exp (-57) = some e) (hpos : 0 ≤ e)
    (hsmall : e ≤ 0.00008) : rawScore exp (splitRow .m1) (splitRow .h1) ∈ Set.Ico 0.59995 0.6 := by
  have hratio : volRatio (splitRow .m1) (splitRow .h1) = 60 := by decide +kernel
  have hspike : (components exp (splitRow .m1) (splitRow .h1)).volSpike = 1 / (1 + e) := by
    have harg : -1 * ((60 : ℚ) - 3) = -57 := by norm_num
    simp only [components, hratio, sig, harg, he]
  -- the other components do not depend on `exp`
  have hrest : components (fun _ => none) (splitRow .m1) (splitRow .h1) =
      { volSpike := 1, imbalance := 0.1666, concentration := 1, bigFlow := 0 } := by
    decide +kernel
  have himb : (components exp (splitRow .m1) (splitRow .h1)).imbalance = 0.1666 :=
    congrArg Components.imbalance hrest
  have hconc : (components exp (splitRow .m1) (splitRow .h1)).concentration = 1 :=
    congrArg Components.concentration hrest
  have hbig : (components exp (splitRow .m1) (splitRow .h1)).bigFlow = 0 :=
    congrArg Components.bigFlow hrest
  have hle : 1 / (1 + e) ≤ 1 := (div_le_one (by linarith)).mpr (by linarith)
  have hge : 0.99992 ≤ 1 / (1 + e) := by
    rw [le_div_iff₀ (by linarith)]
    linarith
  simp only [rawScore, hspike, himb, hconc, hbig]
  constructor <;> linarith

/-- A function with values zero and one, as `math.exp` has far from zero. -/
def stepExp (x : ℚ) : Option ℚ := some (if x ≤ 0 then 0 else 1)

theorem logistic_stepExp : Logistic stepExp := by
  refine logistic_of_exp ?_ ?_ (fun x y _ h => by cases h) (fun x h => by cases h)
  · intro x e he
    cases he
    split <;> norm_num
  · intro x y e e' hxy he he'
    cases he
    cases he'
    by_cases hy : y ≤ 0
    · rw [if_pos (hxy.trans hy), if_pos hy]
    · rw [if_neg hy]
      split <;> norm_num

/-- The published score 0.6 is published with the label of the scores below it. -/
theorem label_of_splitRow :
    ¬ ∀ exp, Logistic exp → ∀ w1m w5m w1h, FromEngine .m1 w1m → FromEngine .m5 w5m →
      FromEngine .h1 w1h → (unusualAccumulation exp w1m w5m w1h).label =
        Label.assigned (unusualAccumulation exp w1m w5m w1h).score := by
  intro h
  have heq := h stepExp logistic_stepExp (splitRow .m1) (splitRow .m5) (splitRow .h1)
    (fromEngine_splitRow .m1) (fromEngine_splitRow .m5) (fromEngine_splitRow .h1)
  have hraw : rawScore stepExp (splitRow .m1) (splitRow .h1) ∈ Set.Ico 0.59995 0.6 :=
    rawScore_splitRow (e := 0) rfl (le_refl 0) (by norm_num)
  exact ((published_roundTo _).agree.mp heq).2 hraw

end FeatureStore
