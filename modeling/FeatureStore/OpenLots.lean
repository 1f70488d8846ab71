/-
  FeatureStore/OpenLots.lean
  ==========================
  **`avg_entry` as the mean price of the open lots.**

  `Leg` keeps the lots of the open leg of a (wallet, coin) position, and the
  fills that opened it and made it grow.  A fill that opens or grows adds a lot,
  one that reduces shrinks all lots alike, one that closes drops them, and one
  that flips leaves a single lot.  `WalletCoinState` keeps no lots, but as long
  as the position is not flat its `avg_entry` is their mean price
  (`tracksLeg_update`, `tracksLeg_foldl`).
-/
import FeatureStore.Lots
import FeatureStore.PositionAccounting

namespace FeatureStore

open WalletCoinState (Grows Reduces Flips avgEntry_cases)

/-! ### Legs -/

/-- The open lots after a fill, when the position was `pos`. -/
def lotsAfter (pos : ℚ) (lots : List (Lot ℚ)) (f : Fill) : List (Lot ℚ) :=
  let newPos := pos + f.signedSz
  if (0 ≤ pos ∧ 0 < f.signedSz) ∨ (pos ≤ 0 ∧ f.signedSz < 0) then lots ++ [⟨|f.signedSz|, f.px⟩]
  else if newPos = 0 then []
  else if pos * newPos < 0 then [⟨|newPos|, f.px⟩]
  else Lots.scale (|newPos| / |pos|) lots

/-- The opening and growing fills of the leg after a fill. -/
def fillsAfter (pos : ℚ) (fills : List Fill) (f : Fill) : List Fill :=
  let newPos := pos + f.signedSz
  if (0 ≤ pos ∧ 0 < f.signedSz) ∨ (pos ≤ 0 ∧ f.signedSz < 0) then fills ++ [f]
  else if newPos = 0 then []
  else if pos * newPos < 0 then [f]
  else fills

/-- **The four things a fill can do to a leg.** -/
theorem leg_cases (pos : ℚ) (f : Fill) (lots : List (Lot ℚ)) (fills : List Fill) :
    (((0 ≤ pos ∧ 0 < f.signedSz) ∨ (pos ≤ 0 ∧ f.signedSz < 0)) ∧
      lotsAfter pos lots f = lots ++ [⟨|f.signedSz|, f.px⟩] ∧
      fillsAfter pos fills f = fills ++ [f]) ∨
    (pos + f.signedSz = 0 ∧ lotsAfter pos lots f = [] ∧ fillsAfter pos fills f = []) ∨
    (pos * (pos + f.signedSz) < 0 ∧ lotsAfter pos lots f = [⟨|pos + f.signedSz|, f.px⟩] ∧
      fillsAfter pos fills f = [f]) ∨
    (0 < pos * (pos + f.signedSz) ∧
      ¬((0 ≤ pos ∧ 0 < f.signedSz) ∨ (pos ≤ 0 ∧ f.signedSz < 0)) ∧
      lotsAfter pos lots f = Lots.scale (|pos + f.signedSz| / |pos|) lots ∧
      fillsAfter pos fills f = fills) := by
  unfold lotsAfter fillsAfter
  by_cases hgrow : (0 ≤ pos ∧ 0 < f.signedSz) ∨ (pos ≤ 0 ∧ f.signedSz < 0)
  · exact Or.inl ⟨hgrow, if_pos hgrow, if_pos hgrow⟩
  by_cases hzero : pos + f.signedSz = 0
  · refine Or.inr (Or.inl ⟨hzero, ?_, ?_⟩) <;> simp only [if_neg hgrow, if_pos hzero]
  by_cases hflip : pos * (pos + f.signedSz) < 0
  · refine Or.inr (Or.inr (Or.inl ⟨hflip, ?_, ?_⟩)) <;>
      simp only [if_neg hgrow, if_neg hzero, if_pos hflip]
  · have hpos : pos ≠ 0 := by
      -- from a flat position every other fill opens
      rintro rfl
      rcases lt_trichotomy f.signedSz 0 with hd | hd | hd
      · exact hgrow (Or.inr ⟨le_refl 0, hd⟩)
      · exact hzero (by rw [hd, add_zero])
      · exact hgrow (Or.inl ⟨le_refl 0, hd⟩)
    have hsame : 0 < pos * (pos + f.signedSz) :=
      lt_of_le_of_ne (not_lt.mp hflip) (mul_ne_zero hpos hzero).symm
    refine Or.inr (Or.inr (Or.inr ⟨hsame, hgrow, ?_, ?_⟩)) <;>
      simp only [if_neg hgrow, if_neg hzero, if_neg hflip]

/-- The open leg of a position: its lots, and the fills that opened it and made
    it grow. -/
structure Leg where
  netPos : ℚ
  lots : List (Lot ℚ)
  fills : List Fill
  size_pos : ∀ lot ∈ lots, 0 < lot.size
  size_eq : Lots.size lots = |netPos|
  price_eq : lots.map Lot.price = fills.map Fill.px

namespace Leg

/-- No position. -/
def flat : Leg where
  netPos := 0
  lots := []
  fills := []
  size_pos := fun _ h => absurd h List.not_mem_nil
  size_eq := abs_zero.symm
  price_eq := rfl

variable (leg : Leg) (f : Fill)

theorem lotsAfter_size_pos : ∀ lot ∈ lotsAfter leg.netPos leg.lots f, 0 < lot.size := by
  rcases leg_cases leg.netPos f leg.lots leg.fills with
    ⟨hgrow, hlots, _⟩ | ⟨_, hlots, _⟩ | ⟨hflip, hlots, _⟩ | ⟨hsame, _, hlots, _⟩ <;> rw [hlots]
  · have hd : f.signedSz ≠ 0 := by
      rcases hgrow with ⟨_, hd⟩ | ⟨_, hd⟩
      · exact ne_of_gt hd
      · exact ne_of_lt hd
    intro lot hlot
    rcases List.mem_append.mp hlot with hlot | hlot
    · exact leg.size_pos lot hlot
    · obtain rfl := List.mem_singleton.mp hlot
      exact abs_pos.mpr hd
  · exact fun _ h => absurd h List.not_mem_nil
  · intro lot hlot
    obtain rfl := List.mem_singleton.mp hlot
    exact abs_pos.mpr (right_ne_zero_of_mul (ne_of_lt hflip))
  · intro lot hlot
    obtain ⟨old, hold, rfl⟩ := List.mem_map.mp hlot
    have hpos := abs_pos.mpr (left_ne_zero_of_mul (ne_of_gt hsame))
    have hnew := abs_pos.mpr (right_ne_zero_of_mul (ne_of_gt hsame))
    exact mul_pos (div_pos hnew hpos) (leg.size_pos old hold)

theorem lotsAfter_size_eq :
    Lots.size (lotsAfter leg.netPos leg.lots f) = |leg.netPos + f.signedSz| := by
  rcases leg_cases leg.netPos f leg.lots leg.fills with
    ⟨hgrow, hlots, _⟩ | ⟨hzero, hlots, _⟩ | ⟨_, hlots, _⟩ | ⟨hsame, _, hlots, _⟩ <;> rw [hlots]
  · rw [Lots.size_append, Lots.size_singleton, leg.size_eq]
    rcases hgrow with ⟨hp, hd⟩ | ⟨hp, hd⟩
    · exact (abs_add_eq_add_abs_iff _ _).mpr (Or.inl ⟨hp, le_of_lt hd⟩) |>.symm
    · exact (abs_add_eq_add_abs_iff _ _).mpr (Or.inr ⟨hp, le_of_lt hd⟩) |>.symm
  · rw [hzero, Lots.size_nil, abs_zero]
  · exact Lots.size_singleton _
  · have hpos := abs_pos.mpr (left_ne_zero_of_mul (ne_of_gt hsame))
    rw [Lots.size_scale, leg.size_eq, div_mul_cancel₀ _ (ne_of_gt hpos)]

theorem lotsAfter_price_eq :
    (lotsAfter leg.netPos leg.lots f).map Lot.price =
      (fillsAfter leg.netPos leg.fills f).map Fill.px := by
  rcases leg_cases leg.netPos f leg.lots leg.fills with
    ⟨_, hlots, hfills⟩ | ⟨_, hlots, hfills⟩ | ⟨_, hlots, hfills⟩ | ⟨_, _, hlots, hfills⟩ <;>
    rw [hlots, hfills]
  · rw [List.map_append, List.map_append, leg.price_eq]
    rfl
  · rfl
  · rfl
  · rw [Lots.map_price_scale, leg.price_eq]

/-- The leg after a fill. -/
def fill : Leg where
  netPos := leg.netPos + f.signedSz
  lots := lotsAfter leg.netPos leg.lots f
  fills := fillsAfter leg.netPos leg.fills f
  size_pos := leg.lotsAfter_size_pos f
  size_eq := leg.lotsAfter_size_eq f
  price_eq := leg.lotsAfter_price_eq f

/-- The leg after a run from no position. -/
def run (fs : List Fill) : Leg := fs.foldl fill flat

/-- The lots of a position that is not flat. -/
theorem lots_ne_nil (h : leg.netPos ≠ 0) : leg.lots ≠ [] := by
  intro hnil
  have hsize := leg.size_eq
  rw [hnil, Lots.size_nil] at hsize
  exact h (abs_eq_zero.mp hsize.symm)

end Leg

/-! ### The simulation -/

/-- What the state keeps of the leg: the position, and the mean price of the
    lots unless the position is flat, when `avg_entry` may be stale. -/
structure TracksLeg (s : WalletCoinState) (leg : Leg) : Prop where
  netPos : s.netPos = leg.netPos
  avgEntry : leg.netPos ≠ 0 → s.avgEntry = Lots.mean leg.lots

theorem avgEntry_of_grows {s : WalletCoinState} {f : Fill} (h : Grows s f) :
    (s.update f).avgEntry =
      (|s.netPos| * s.avgEntry + |f.signedSz| * f.px) / |s.netPos + f.signedSz| := by
  rcases avgEntry_cases s f with ⟨hd, _⟩ | ⟨_, havg⟩ | ⟨hred, _⟩ | ⟨hflip, _⟩
  · exfalso
    rcases h with ⟨_, hd'⟩ | ⟨_, hd'⟩ <;> linarith
  · exact havg
  · exfalso
    rcases h with ⟨_, _⟩ | ⟨_, _⟩ <;> rcases hred with ⟨_, _, _⟩ | ⟨_, _, _⟩ <;> linarith
  · exfalso
    rcases h with ⟨_, _⟩ | ⟨_, _⟩ <;> rcases hflip with ⟨_, _⟩ | ⟨_, _⟩ <;> linarith

theorem avgEntry_of_flips {s : WalletCoinState} {f : Fill}
    (h : s.netPos * (s.netPos + f.signedSz) < 0) : (s.update f).avgEntry = f.px := by
  rcases avgEntry_cases s f with ⟨hd, _⟩ | ⟨hgrow, _⟩ | ⟨hred, _⟩ | ⟨_, havg⟩
  · rw [hd, add_zero] at h
    exact absurd h (not_lt.mpr (mul_self_nonneg _))
  · exfalso
    rcases hgrow with ⟨_, _⟩ | ⟨_, _⟩ <;> nlinarith
  · exfalso
    rcases hred with ⟨_, _, _⟩ | ⟨_, _, _⟩ <;> nlinarith
  · exact havg

theorem avgEntry_of_keeps {s : WalletCoinState} {f : Fill} (hgrow : ¬Grows s f)
    (h : 0 ≤ s.netPos * (s.netPos + f.signedSz)) : (s.update f).avgEntry = s.avgEntry := by
  rcases avgEntry_cases s f with ⟨_, havg⟩ | ⟨hgrow', _⟩ | ⟨_, havg⟩ | ⟨hflip, _⟩
  · exact havg
  · exact absurd hgrow' hgrow
  · exact havg
  · exfalso
    rcases hflip with ⟨_, _⟩ | ⟨_, _⟩ <;> nlinarith

theorem TracksLeg.grows_iff {s : WalletCoinState} {leg : Leg} (h : TracksLeg s leg) (f : Fill) :
    Grows s f ↔ (0 ≤ leg.netPos ∧ 0 < f.signedSz) ∨ (leg.netPos ≤ 0 ∧ f.signedSz < 0) := by
  simp only [Grows, h.netPos]

/-- **One fill keeps the description.** -/
theorem tracksLeg_update {s : WalletCoinState} {leg : Leg} (h : TracksLeg s leg) (f : Fill) :
    TracksLeg (s.update f) (leg.fill f) := by
  have hnew : (leg.fill f).netPos = leg.netPos + f.signedSz := rfl
  have hlots : (leg.fill f).lots = lotsAfter leg.netPos leg.lots f := rfl
  refine ⟨by rw [hnew, ← h.netPos]; rfl, ?_⟩
  intro hopen
  rw [hnew] at hopen
  rw [hlots]
  rcases leg_cases leg.netPos f leg.lots leg.fills with
    ⟨hgrow, hlots', _⟩ | ⟨hzero, _⟩ | ⟨hflip, hlots', _⟩ | ⟨hsame, hkeep, hlots', _⟩
  · -- the lot that is added weighs as much as the fill in `avg_entry`
    have hsize := leg.lotsAfter_size_eq f
    rw [hlots', Lots.size_append, Lots.size_singleton] at hsize
    have hcost : |leg.netPos| * s.avgEntry = |leg.netPos| * Lots.mean leg.lots := by
      by_cases hflat : leg.netPos = 0
      · rw [hflat, abs_zero, zero_mul, zero_mul]
      · rw [h.avgEntry hflat]
    rw [avgEntry_of_grows ((h.grows_iff f).mpr hgrow), h.netPos, hcost, hlots',
      Lots.mean_append leg.size_pos, hsize, leg.size_eq]
  · exact absurd hzero hopen
  · rw [hlots', Lots.mean_singleton (abs_ne_zero.mpr hopen)]
    exact avgEntry_of_flips (h.netPos ▸ hflip)
  · have hpos : leg.netPos ≠ 0 := left_ne_zero_of_mul (ne_of_gt hsame)
    have hfactor : |leg.netPos + f.signedSz| / |leg.netPos| ≠ 0 :=
      div_ne_zero (abs_ne_zero.mpr hopen) (abs_ne_zero.mpr hpos)
    rw [hlots', Lots.mean_scale hfactor, ← h.avgEntry hpos]
    exact avgEntry_of_keeps (fun hgrow => hkeep ((h.grows_iff f).mp hgrow))
      (h.netPos ▸ le_of_lt hsame)

/-- From a described state every run is described. -/
theorem tracksLeg_foldl {s : WalletCoinState} {leg : Leg} (h : TracksLeg s leg) (fs : List Fill) :
    TracksLeg (fs.foldl WalletCoinState.update s) (fs.foldl Leg.fill leg) := by
  induction fs generalizing s leg with
  | nil => exact h
  | cons f fs ih => exact ih (tracksLeg_update h f)

theorem tracksLeg_run (fs : List Fill) :
    TracksLeg (fs.foldl WalletCoinState.update {}) (Leg.run fs) :=
  tracksLeg_foldl ⟨rfl, fun h => absurd rfl h⟩ fs

/-- The average entry price lies between the prices that made the leg. -/
theorem TracksLeg.exists_bounds {s : WalletCoinState} {leg : Leg} (h : TracksLeg s leg)
    (hopen : leg.netPos ≠ 0) :
    (∃ f ∈ leg.fills, f.px ≤ s.avgEntry) ∧ ∃ f ∈ leg.fills, s.avgEntry ≤ f.px := by
  have hprice : ∀ lot ∈ leg.lots, ∃ f ∈ leg.fills, f.px = lot.price := by
    intro lot hlot
    have hmem := List.mem_map_of_mem (f := Lot.price) hlot
    rw [leg.price_eq] at hmem
    exact List.mem_map.mp hmem
  rw [h.avgEntry hopen]
  obtain ⟨low, hlow, hle⟩ := Lots.exists_le_mean leg.size_pos (leg.lots_ne_nil hopen)
  obtain ⟨high, hhigh, hge⟩ := Lots.exists_mean_le leg.size_pos (leg.lots_ne_nil hopen)
  obtain ⟨f, hf, hfpx⟩ := hprice low hlow
  obtain ⟨g, hg, hgpx⟩ := hprice high hhigh
  exact ⟨⟨f, hf, hfpx ▸ hle⟩, ⟨g, hg, hgpx ▸ hge⟩⟩

/-! ### The entry price -/

/-- The lots of a position that was entered at one price. -/
def lotsOf (pos px : ℚ) : List (Lot ℚ) := if pos = 0 then [] else [⟨|pos|, px⟩]

/-- The mean price of the lots that are open after the fills, or that were open
    last. -/
def meanOfLots (pos : ℚ) (lots : List (Lot ℚ)) (px : ℚ) : List Fill → ℚ
  | [] => px
  | f :: fs =>
      let lots' := lotsAfter pos lots f
      meanOfLots (pos + f.signedSz) lots' (if lots' = [] then px else Lots.mean lots') fs

/-- **What the open lots cost on average** after the fills, when a position of
    `pos` had been entered at `px` before them. -/
def entryPrice (pos px : ℚ) (fs : List Fill) : ℚ := meanOfLots pos (lotsOf pos px) px fs

theorem Leg.lots_eq_nil_iff (leg : Leg) : leg.lots = [] ↔ leg.netPos = 0 := by
  refine ⟨fun hnil => not_not.mp fun h => leg.lots_ne_nil h hnil, ?_⟩
  intro hflat
  have hsize := leg.size_eq
  rw [hflat, abs_zero] at hsize
  by_contra hne
  obtain ⟨lot, hlot⟩ := List.exists_mem_of_ne_nil _ hne
  have hpos := Lots.size_pos leg.size_pos hne
  exact hpos.ne' hsize

theorem TracksLeg.avgEntry_update {s : WalletCoinState} {leg : Leg} (h : TracksLeg s leg)
    (f : Fill) :
    (s.update f).avgEntry =
      if (leg.fill f).lots = [] then s.avgEntry else Lots.mean (leg.fill f).lots := by
  by_cases hflat : (leg.fill f).netPos = 0
  · -- a position that is closed keeps its price
    have hnew : s.netPos + f.signedSz = 0 := by rw [h.netPos]; exact hflat
    rw [if_pos ((leg.fill f).lots_eq_nil_iff.mpr hflat)]
    refine avgEntry_of_keeps (fun hgrow => hgrow.newPos_ne_zero hnew) ?_
    rw [hnew, mul_zero]
  · rw [if_neg fun hnil => hflat ((leg.fill f).lots_eq_nil_iff.mp hnil)]
    exact (tracksLeg_update h f).avgEntry hflat

theorem TracksLeg.meanOfLots_eq {s : WalletCoinState} {leg : Leg} (h : TracksLeg s leg)
    (fs : List Fill) :
    meanOfLots leg.netPos leg.lots s.avgEntry fs =
      (fs.foldl WalletCoinState.update s).avgEntry := by
  induction fs generalizing s leg with
  | nil => rfl
  | cons f fs ih =>
    rw [List.foldl_cons, ← ih (tracksLeg_update h f), h.avgEntry_update f]
    rfl

theorem exists_leg (pos px : ℚ) :
    ∃ leg : Leg, leg.netPos = pos ∧ leg.lots = lotsOf pos px ∧
      (pos ≠ 0 → Lots.mean leg.lots = px) := by
  by_cases hflat : pos = 0
  · exact ⟨Leg.flat, hflat.symm, by rw [lotsOf, if_pos hflat]; rfl, fun h => absurd hflat h⟩
  · have habs := abs_pos.mpr hflat
    refine ⟨⟨pos, [⟨|pos|, px⟩], [⟨"", "", px, |pos|, .B, 0, 0, true⟩], by simpa using habs,
      Lots.size_singleton _, rfl⟩, rfl, by rw [lotsOf, if_neg hflat], fun _ => ?_⟩
    exact Lots.mean_singleton habs.ne'

/-- **`avg_entry` is the entry price**, also of a position that has been closed. -/
theorem avgEntry_eq_entryPrice (s : WalletCoinState) (fs : List Fill) :
    (fs.foldl WalletCoinState.update s).avgEntry = entryPrice s.netPos s.avgEntry fs := by
  obtain ⟨leg, hpos, hlots, hmean⟩ := exists_leg s.netPos s.avgEntry
  have h : TracksLeg s leg := ⟨hpos.symm, fun hopen => (hmean (hpos ▸ hopen)).symm⟩
  rw [← h.meanOfLots_eq fs, hpos, hlots, entryPrice]

/-! ### What a leg remembers -/

/-- The fill opens a leg: from a flat position, or by flipping it. -/
def Opens (pos : ℚ) (f : Fill) : Prop := pos * (pos + f.signedSz) ≤ 0 ∧ pos + f.signedSz ≠ 0

instance (pos : ℚ) (f : Fill) : Decidable (Opens pos f) :=
  inferInstanceAs (Decidable (_ ∧ _))

/-- A leg opens at the price of the fill, whatever was there before. -/
theorem avgEntry_of_opens {s : WalletCoinState} {f : Fill} (h : Opens s.netPos f) :
    (s.update f).avgEntry = f.px := by
  obtain ⟨hle, hnew⟩ := h
  rcases lt_or_eq_of_le hle with hflip | hflat
  · exact avgEntry_of_flips hflip
  · have hpos : s.netPos = 0 := (mul_eq_zero.mp hflat).resolve_right hnew
    rw [hpos, zero_add] at hnew
    have hgrow : Grows s f := by
      unfold WalletCoinState.Grows
      rw [hpos]
      rcases lt_or_gt_of_ne hnew with hd | hd
      · exact Or.inr ⟨le_refl 0, hd⟩
      · exact Or.inl ⟨le_refl 0, hd⟩
    rw [avgEntry_of_grows hgrow, hpos, abs_zero, zero_mul, zero_add, zero_add,
      mul_div_cancel_left₀ _ (abs_ne_zero.mpr hnew)]

/-- Two states with the same position at the same average price. -/
structure SameCost (s s' : WalletCoinState) : Prop where
  netPos : s.netPos = s'.netPos
  avgEntry : s.avgEntry = s'.avgEntry

theorem SameCost.update {s s' : WalletCoinState} (h : SameCost s s') (f : Fill) :
    SameCost (s.update f) (s'.update f) := by
  constructor
  · simp only [WalletCoinState.update_netPos, h.netPos]
  · simp only [WalletCoinState.update, h.netPos, h.avgEntry]

theorem SameCost.foldl {s s' : WalletCoinState} (h : SameCost s s') (fs : List Fill) :
    SameCost (fs.foldl WalletCoinState.update s) (fs.foldl WalletCoinState.update s') := by
  induction fs generalizing s s' with
  | nil => exact h
  | cons f fs ih => exact ih (h.update f)

/-- **A leg remembers the size and the price at which it was opened**, and
    nothing else of what was before. -/
theorem sameCost_of_opens {s s' : WalletCoinState} {f : Fill} (h : Opens s.netPos f)
    (h' : Opens s'.netPos f) (hpos : s.netPos = s'.netPos) : SameCost (s.update f) (s'.update f) :=
  ⟨by simp only [WalletCoinState.update_netPos, hpos],
    (avgEntry_of_opens h).trans (avgEntry_of_opens h').symm⟩

/-- The position after a run. -/
def netPosAfter (fs : List Fill) : ℚ := (fs.foldl WalletCoinState.update {}).netPos

/-- The average entry price after a run. -/
def avgEntryAfter (fs : List Fill) : ℚ := (fs.foldl WalletCoinState.update {}).avgEntry

/-- **`avg_entry` is the size-weighted price of the open lots.**  After every
    prefix of every sequence of fills, in any prices and sizes:

    * when the position is not flat, the sizes of the lots add up to it, and
      `avg_entry` is their mean price, which lies between the lowest and the
      highest price of the fills that opened the leg and made it grow;
    * of the fills before the leg was opened it depends on nothing but the
      position that the opening fill arrives at: from a flat position that is the
      size of this fill. -/
theorem avg_entry_of_open_lots (fs : List Fill) (k : ℕ) :
    let s := (fs.take k).foldl WalletCoinState.update {}
    let leg := Leg.run (fs.take k)
    s.netPos = leg.netPos ∧
    (s.netPos ≠ 0 →
      Lots.size leg.lots = |s.netPos| ∧
      s.avgEntry = Lots.cost leg.lots / Lots.size leg.lots ∧
      (∃ f ∈ leg.fills, f.px ≤ s.avgEntry) ∧ ∃ f ∈ leg.fills, s.avgEntry ≤ f.px) ∧
    (∀ before f rest, fs.take k = before ++ f :: rest → Opens (netPosAfter before) f →
      ∀ before', Opens (netPosAfter before') f →
        netPosAfter (before' ++ [f]) = netPosAfter (before ++ [f]) →
        avgEntryAfter (before' ++ f :: rest) = s.avgEntry) := by
  intro s leg
  have h : TracksLeg s leg := tracksLeg_run (fs.take k)
  refine ⟨h.netPos, ?_, ?_⟩
  · intro hopen
    have hopen' : leg.netPos ≠ 0 := h.netPos ▸ hopen
    exact ⟨by rw [leg.size_eq, h.netPos], h.avgEntry hopen', h.exists_bounds hopen'⟩
  · intro before f rest hsplit hopens before' hopens' hpos
    have hpos' : netPosAfter before' = netPosAfter before := by
      simpa [netPosAfter] using hpos
    have hsame := (sameCost_of_opens hopens' hopens hpos').foldl rest
    have havg := hsame.avgEntry
    simpa only [s, avgEntryAfter, hsplit, List.foldl_append, List.foldl_cons] using havg

/-- A purchase of the given size, a sale that flips it, and another sale. -/
def flipped (sz : ℚ) : List Fill :=
  [⟨"w", "BTC", 100, sz, .B, 0, 0, true⟩, ⟨"w", "BTC", 50, 2, .A, 1000, 0, true⟩,
    ⟨"w", "BTC", 60, 1, .A, 2000, 0, true⟩]

/-- After a flip the average depends on the size of what was bought before. -/
theorem avg_entry_remembers_flipped :
    ¬∀ before before' f rest, Opens (netPosAfter before) f → Opens (netPosAfter before') f →
      (∀ q ∈ rest.inits, 0 < netPosAfter (before ++ [f]) * netPosAfter (before ++ f :: q)) →
      (∀ q ∈ rest.inits, 0 < netPosAfter (before' ++ [f]) * netPosAfter (before' ++ f :: q)) →
      avgEntryAfter (before ++ f :: rest) = avgEntryAfter (before' ++ f :: rest) := by
  intro h
  have heq := h ((flipped 1).take 1) ((flipped (3 / 2)).take 1)
    ⟨"w", "BTC", 50, 2, .A, 1000, 0, true⟩ [⟨"w", "BTC", 60, 1, .A, 2000, 0, true⟩]
    (by decide +kernel) (by decide +kernel) (by decide +kernel) (by decide +kernel)
  revert heq
  decide +kernel

/-- The leg that the flip has opened. -/
theorem avg_entry_of_open_lots_flipped :
    Lots.size (Leg.run (flipped 1)).lots = 2 ∧ (Leg.run (flipped 1)).lots = [⟨1, 50⟩, ⟨1, 60⟩] ∧
    avgEntryAfter (flipped 1) = 55 := by
  have h := (avg_entry_of_open_lots (flipped 1) 3).2.1 (by decide +kernel)
  refine ⟨h.1.trans (by decide +kernel), by decide +kernel, ?_⟩
  exact h.2.1.trans (by decide +kernel)

end FeatureStore
