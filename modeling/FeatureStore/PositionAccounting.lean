/-
  FeatureStore/PositionAccounting.lean
  ====================================
  **The cost basis of a (wallet, coin) position.**

  `avgEntry_cases` lists what one fill does to the average entry price: nothing
  (a fill of size zero), re-weight (open or grow), keep (reduce or close), or
  restart (flip through zero).  In each case the value of the position at its
  entry price moves by the money paid plus the PnL that the fill closes
  (`netPos_mul_avgEntry_update`), and summing over a run gives the accounting
  identity.
-/
import FeatureStore.Features
import Mathlib.Data.Sign.Basic
import Mathlib.Tactic.FieldSimp
import Mathlib.Tactic.Ring
import Mathlib.Tactic.Linarith

namespace FeatureStore

namespace WalletCoinState

variable (s : WalletCoinState) (f : Fill)

@[simp] theorem update_netPos : (s.update f).netPos = s.netPos + f.signedSz := rfl

@[simp] theorem update_realizedPnl :
    (s.update f).realizedPnl = s.realizedPnl + f.closedPnl := rfl

/-- The fill opens a position or adds to it in its direction. -/
def Grows : Prop := (0 ≤ s.netPos ∧ 0 < f.signedSz) ∨ (s.netPos ≤ 0 ∧ f.signedSz < 0)

/-- The fill goes against the position without passing through zero. -/
def Reduces : Prop :=
  (0 < s.netPos ∧ f.signedSz < 0 ∧ 0 ≤ s.netPos + f.signedSz) ∨
  (s.netPos < 0 ∧ 0 < f.signedSz ∧ s.netPos + f.signedSz ≤ 0)

/-- The fill takes the position through zero. -/
def Flips : Prop :=
  (0 < s.netPos ∧ s.netPos + f.signedSz < 0) ∨ (s.netPos < 0 ∧ 0 < s.netPos + f.signedSz)

theorem Grows.newPos_ne_zero {s : WalletCoinState} {f : Fill} (h : Grows s f) :
    s.netPos + f.signedSz ≠ 0 := by
  rcases h with ⟨hp, hd⟩ | ⟨hp, hd⟩
  · exact ne_of_gt (by linarith)
  · exact ne_of_lt (by linarith)

/-- **What a fill does to the average entry price.** -/
theorem avgEntry_cases :
    (f.signedSz = 0 ∧ (s.update f).avgEntry = s.avgEntry) ∨
    (Grows s f ∧ (s.update f).avgEntry =
      (|s.netPos| * s.avgEntry + |f.signedSz| * f.px) / |s.netPos + f.signedSz|) ∨
    (Reduces s f ∧ (s.update f).avgEntry = s.avgEntry) ∨
    (Flips s f ∧ (s.update f).avgEntry = f.px) := by
  by_cases hgrow : Grows s f
  · -- open or grow: the new position is not flat
    have hnew : 0 < |s.netPos + f.signedSz| := abs_pos.mpr hgrow.newPos_ne_zero
    have hcond : s.netPos = 0 ∨ (s.netPos ≥ 0 ∧ f.signedSz > 0) ∨
        (s.netPos ≤ 0 ∧ f.signedSz < 0) := Or.inr hgrow
    refine Or.inr (Or.inl ⟨hgrow, ?_⟩)
    simp only [update, if_pos hcond, gt_iff_lt, if_pos hnew]
  rcases lt_trichotomy s.netPos 0 with hp | hp | hp
  · -- a short position
    have hd : 0 ≤ f.signedSz := le_of_not_gt fun hd => hgrow (Or.inr ⟨le_of_lt hp, hd⟩)
    have hcond : ¬(s.netPos = 0 ∨ (s.netPos ≥ 0 ∧ f.signedSz > 0) ∨
        (s.netPos ≤ 0 ∧ f.signedSz < 0)) := by
      rintro (h | ⟨h, _⟩ | ⟨_, h⟩) <;> linarith
    by_cases hflip : 0 < s.netPos + f.signedSz
    · refine Or.inr (Or.inr (Or.inr ⟨Or.inr ⟨hp, hflip⟩, ?_⟩))
      simp [update, if_neg hcond, ne_of_gt hflip, hflip, not_lt_of_gt hp]
    · have hkeep : (s.update f).avgEntry = s.avgEntry := by
        simp [update, if_neg hcond, hflip, not_lt_of_gt hp]
      rcases eq_or_lt_of_le hd with hd | hd
      · exact Or.inl ⟨hd.symm, hkeep⟩
      · exact Or.inr (Or.inr (Or.inl ⟨Or.inr ⟨hp, hd, not_lt.mp hflip⟩, hkeep⟩))
  · -- flat: a fill of size zero is the only one that does not open
    have hd : f.signedSz = 0 := by
      rcases lt_trichotomy f.signedSz 0 with hd | hd | hd
      · exact absurd (Or.inr ⟨le_of_eq hp, hd⟩) hgrow
      · exact hd
      · exact absurd (Or.inl ⟨le_of_eq hp.symm, hd⟩) hgrow
    exact Or.inl ⟨hd, by simp [update, hp, hd]⟩
  · -- a long position
    have hd : f.signedSz ≤ 0 := le_of_not_gt fun hd => hgrow (Or.inl ⟨le_of_lt hp, hd⟩)
    have hcond : ¬(s.netPos = 0 ∨ (s.netPos ≥ 0 ∧ f.signedSz > 0) ∨
        (s.netPos ≤ 0 ∧ f.signedSz < 0)) := by
      rintro (h | ⟨_, h⟩ | ⟨h, _⟩) <;> linarith
    by_cases hflip : s.netPos + f.signedSz < 0
    · refine Or.inr (Or.inr (Or.inr ⟨Or.inl ⟨hp, hflip⟩, ?_⟩))
      simp [update, if_neg hcond, ne_of_lt hflip, not_lt_of_gt hflip, hp]
    · have hkeep : (s.update f).avgEntry = s.avgEntry := by
        by_cases hclose : s.netPos + f.signedSz = 0
        · simp [update, hclose]
        · have hlong : 0 < s.netPos + f.signedSz :=
            lt_of_le_of_ne (not_lt.mp hflip) (Ne.symm hclose)
          simp [update, if_neg hcond, hlong, hp]
      rcases eq_or_lt_of_le hd with hd | hd
      · exact Or.inl ⟨hd, hkeep⟩
      · exact Or.inr (Or.inr (Or.inl ⟨Or.inl ⟨hp, hd, not_lt.mp hflip⟩, hkeep⟩))

/-! ### The accounting identity -/

/-- The PnL that a fill realises by closing part of the position, at the entry
    price of the position: zero unless the fill goes against it. -/
def closingPnl : ℚ :=
  if (0 < s.netPos ∧ f.signedSz < 0) ∨ (s.netPos < 0 ∧ 0 < f.signedSz) then
    (SignType.sign s.netPos : ℚ) * min |s.netPos| |f.signedSz| * (f.px - s.avgEntry)
  else 0

/-- The closing PnLs of a run, fill by fill. -/
def closingPnls : WalletCoinState → List Fill → List ℚ
  | _, [] => []
  | s, f :: fs => closingPnl s f :: closingPnls (s.update f) fs

/-- Against the position, the closing PnL is the closed size times the price
    difference. -/
theorem closingPnl_of_long (hp : 0 < s.netPos) (hd : f.signedSz < 0) :
    closingPnl s f = min s.netPos (-f.signedSz) * (f.px - s.avgEntry) := by
  simp [closingPnl, hp, hd, abs_of_pos hp, abs_of_neg hd]

theorem closingPnl_of_short (hp : s.netPos < 0) (hd : 0 < f.signedSz) :
    closingPnl s f = -min (-s.netPos) f.signedSz * (f.px - s.avgEntry) := by
  simp [closingPnl, hp, hd, abs_of_neg hp, abs_of_pos hd]

theorem closingPnl_of_grows (h : Grows s f) : closingPnl s f = 0 := by
  unfold closingPnl
  rw [if_neg]
  rcases h with ⟨hp, hd⟩ | ⟨hp, hd⟩ <;> rintro (⟨h₁, h₂⟩ | ⟨h₁, h₂⟩) <;> linarith

/-- **One fill moves the value of the position at its entry price** by the money
    paid for the fill plus the PnL that the fill closes. -/
theorem netPos_mul_avgEntry_update :
    (s.update f).netPos * (s.update f).avgEntry =
      s.netPos * s.avgEntry + f.signedSz * f.px + closingPnl s f := by
  rw [update_netPos]
  rcases avgEntry_cases s f with ⟨hd, havg⟩ | ⟨hgrow, havg⟩ | ⟨hred, havg⟩ | ⟨hflip, havg⟩ <;>
    rw [havg]
  · have hpnl : closingPnl s f = 0 := by simp [closingPnl, hd]
    rw [hpnl, hd]
    ring
  · rw [closingPnl_of_grows s f hgrow]
    rcases hgrow with ⟨hp, hd⟩ | ⟨hp, hd⟩
    · have hnew : 0 < s.netPos + f.signedSz := by linarith
      rw [abs_of_nonneg hp, abs_of_pos hd, abs_of_pos hnew, mul_div_cancel₀ _ (ne_of_gt hnew)]
      ring
    · have hnew : s.netPos + f.signedSz < 0 := by linarith
      rw [abs_of_nonpos hp, abs_of_neg hd, abs_of_neg hnew, mul_div_assoc', div_neg,
        mul_div_cancel_left₀ _ (ne_of_lt hnew)]
      ring
  · rcases hred with ⟨hp, hd, hnew⟩ | ⟨hp, hd, hnew⟩
    · rw [closingPnl_of_long s f hp hd, min_eq_right (by linarith)]
      ring
    · rw [closingPnl_of_short s f hp hd, min_eq_right (by linarith)]
      ring
  · rcases hflip with ⟨hp, hnew⟩ | ⟨hp, hnew⟩
    · rw [closingPnl_of_long s f hp (by linarith), min_eq_left (by linarith)]
      ring
    · rw [closingPnl_of_short s f hp (by linarith), min_eq_left (by linarith)]
      ring

theorem foldl_update_netPos (fs : List Fill) :
    (fs.foldl update s).netPos = s.netPos + (fs.map Fill.signedSz).sum :=
  Grouping.measure_foldl update_netPos s fs

theorem foldl_update_realizedPnl (fs : List Fill) :
    (fs.foldl update s).realizedPnl = s.realizedPnl + (fs.map Fill.closedPnl).sum :=
  Grouping.measure_foldl update_realizedPnl s fs

/-- The step identity summed over a run, from any state. -/
theorem netPos_mul_avgEntry_foldl (fs : List Fill) :
    (fs.foldl update s).netPos * (fs.foldl update s).avgEntry =
      s.netPos * s.avgEntry + (fs.map fun f => f.signedSz * f.px).sum + (closingPnls s fs).sum := by
  induction fs generalizing s with
  | nil => simp [closingPnls]
  | cons f fs ih =>
    rw [List.foldl_cons, ih, netPos_mul_avgEntry_update]
    simp only [closingPnls, List.map_cons, List.sum_cons]
    ring

theorem closingPnls_take (fs : List Fill) (k : ℕ) :
    closingPnls s (fs.take k) = (closingPnls s fs).take k := by
  induction fs generalizing s k with
  | nil => simp [closingPnls]
  | cons f fs ih =>
    cases k with
    | zero => rfl
    | succ k => rw [List.take_succ_cons, closingPnls, closingPnls, List.take_succ_cons, ih]

/-- **Position accounting identity.**  After every prefix of every sequence of
    fills applied to a fresh state, the value of the position at its entry price
    less the money paid is the sum of the closing PnLs.  If each fill's
    exchange-provided `closed_pnl` is its closing PnL, then realised plus
    unrealised PnL is the mark-to-market gain, at every mark price. -/
theorem position_accounting (fs : List Fill) (k : ℕ) :
    let s := (fs.take k).foldl update {}
    s.netPos * s.avgEntry - ((fs.take k).map fun f => f.signedSz * f.px).sum =
      ((closingPnls {} fs).take k).sum ∧
    (fs.map Fill.closedPnl = closingPnls {} fs → ∀ m : ℚ,
      s.realizedPnl + s.netPos * (m - s.avgEntry) =
        ((fs.take k).map fun f => f.signedSz * (m - f.px)).sum) := by
  intro s
  have hvalue := netPos_mul_avgEntry_foldl {} (fs.take k)
  rw [closingPnls_take] at hvalue
  simp only [zero_mul, zero_add] at hvalue
  constructor
  · change (List.foldl update {} (fs.take k)).netPos *
      (List.foldl update {} (fs.take k)).avgEntry - _ = _
    rw [hvalue]
    ring
  · intro hclosed m
    have hpos : s.netPos = ((fs.take k).map Fill.signedSz).sum := by
      simpa using foldl_update_netPos {} (fs.take k)
    have hpnl : s.realizedPnl = ((closingPnls {} fs).take k).sum := by
      have h := foldl_update_realizedPnl {} (fs.take k)
      rw [List.map_take, hclosed] at h
      simpa using h
    have hmark : ((fs.take k).map fun f => f.signedSz * (m - f.px)).sum =
        ((fs.take k).map Fill.signedSz).sum * m -
          ((fs.take k).map fun f => f.signedSz * f.px).sum := by
      induction fs.take k with
      | nil => simp
      | cons f l ih =>
        simp only [List.map_cons, List.sum_cons, ih]
        ring
    calc s.realizedPnl + s.netPos * (m - s.avgEntry)
        = s.realizedPnl + s.netPos * m - s.netPos * s.avgEntry := by ring
      _ = s.netPos * m - ((fs.take k).map fun f => f.signedSz * f.px).sum := by
          rw [hpnl, hvalue]
          ring
      _ = _ := by rw [hmark, hpos]

end WalletCoinState

end FeatureStore
