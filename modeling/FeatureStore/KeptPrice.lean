/-
  FeatureStore/KeptPrice.lean
  ===========================
  **What a fill leaves of the price before it.**

  The price after a fill is a mean of the price before it and that of the fill.
  `kept` is the weight of the former: nothing where the fill opens a leg, everything
  where it reduces the position, and the share of the old position where it adds to
  it.  Over a run the weights multiply (`avgEntry_sub_foldl`); what is left of a price
  then weighs no more than the position that it was for (`mul_keptBy_le`), and
  nothing is left exactly if some fill opens a leg (`keptBy_eq_zero_iff`).
-/
import FeatureStore.OpenLots

namespace FeatureStore

open WalletCoinState (Grows foldl_update_netPos)

variable {s s' : WalletCoinState} {f g : Fill} {pos : ℚ}

/-! ### Positions -/

/-- What a run adds to the position. -/
def net (fs : List Fill) : ℚ := (fs.map Fill.signedSz).sum

@[simp] theorem net_nil : net [] = 0 := rfl

@[simp] theorem net_cons (f : Fill) (fs : List Fill) : net (f :: fs) = f.signedSz + net fs :=
  List.sum_cons

@[simp] theorem net_append (fs gs : List Fill) : net (fs ++ gs) = net fs + net gs := by
  simp only [net, List.map_append, List.sum_append]

theorem net_perm {fs gs : List Fill} (h : fs.Perm gs) : net fs = net gs := (h.map _).sum_eq

theorem netPos_foldl (s : WalletCoinState) (fs : List Fill) :
    (fs.foldl WalletCoinState.update s).netPos = s.netPos + net fs :=
  foldl_update_netPos s fs

/-- Fills in one direction move the position in it. -/
theorem mul_net_nonneg {c : ℚ} {fs : List Fill} (h : ∀ f ∈ fs, 0 ≤ c * f.signedSz) :
    0 ≤ c * net fs := by
  induction fs with
  | nil => simp
  | cons f fs ih =>
    rw [net_cons, mul_add]
    exact add_nonneg (h f List.mem_cons_self) (ih fun g hg => h g (List.mem_cons_of_mem f hg))

theorem mul_neg_of_opposite {p q q' : ℚ} (hq : 0 < p * q) (hq' : p * q' < 0) : q * q' < 0 := by
  have hprod : p * p * (q * q') = p * q * (p * q') := by ring
  have hneg := mul_neg_of_pos_of_neg hq hq'
  rw [← hprod] at hneg
  exact neg_of_mul_neg_right hneg (mul_self_nonneg p)

/-! ### Fills that open a leg -/

/-- Some fill of the run opens a leg. -/
def Reopens : ℚ → List Fill → Prop
  | _, [] => False
  | pos, f :: fs => Opens pos f ∨ Reopens (pos + f.signedSz) fs

instance decidableReopens : (pos : ℚ) → (fs : List Fill) → Decidable (Reopens pos fs)
  | _, [] => inferInstanceAs (Decidable False)
  | pos, f :: fs =>
      have := decidableReopens (pos + f.signedSz) fs
      inferInstanceAs (Decidable (Opens pos f ∨ Reopens (pos + f.signedSz) fs))

theorem reopens_append {fs gs : List Fill} :
    Reopens pos (fs ++ gs) ↔ Reopens pos fs ∨ Reopens (pos + net fs) gs := by
  induction fs generalizing pos with
  | nil => simp [Reopens]
  | cons f fs ih => simp only [List.cons_append, Reopens, ih, net_cons, or_assoc, add_assoc]

theorem opens_iff :
    Opens pos f ↔ (pos ≤ 0 ∧ 0 < pos + f.signedSz) ∨ (0 ≤ pos ∧ pos + f.signedSz < 0) := by
  unfold Opens
  constructor
  · rintro ⟨hle, hne⟩
    rcases lt_or_gt_of_ne hne with hnew | hnew
    · exact Or.inr ⟨nonneg_of_mul_nonpos_left hle hnew, hnew⟩
    · exact Or.inl ⟨nonpos_of_mul_nonpos_left hle hnew, hnew⟩
  · rintro (⟨hpos, hnew⟩ | ⟨hpos, hnew⟩)
    · exact ⟨mul_nonpos_of_nonpos_of_nonneg hpos (le_of_lt hnew), ne_of_gt hnew⟩
    · exact ⟨mul_nonpos_of_nonneg_of_nonpos hpos (le_of_lt hnew), ne_of_lt hnew⟩

/-- Of two fills in the same direction one opens a leg in either order. -/
theorem reopens_swap {after : List Fill} (h : 0 ≤ f.signedSz * g.signedSz)
    (hre : Reopens pos (f :: g :: after)) : Reopens pos (g :: f :: after) := by
  simp only [Reopens, opens_iff] at hre ⊢
  rw [add_right_comm pos g.signedSz]
  rcases hre with hf | hg | hafter
  · rcases mul_nonneg_iff.mp h with ⟨_, _⟩ | ⟨_, _⟩ <;> grind
  · rcases mul_nonneg_iff.mp h with ⟨_, _⟩ | ⟨_, _⟩ <;> grind
  · exact Or.inr (Or.inr hafter)

/-! ### Prices -/

/-- A fill that reduces the position, at most to zero, spends what was bought before. -/
def Spent (pos : ℚ) (f : Fill) : Prop := pos * f.signedSz < 0 ∧ 0 ≤ pos * (pos + f.signedSz)

/-- What a fill leaves of the price before it: the price after it is this much of it, and
    the rest is the price of the fill. -/
def kept (pos : ℚ) (f : Fill) : ℚ :=
  if Opens pos f then 0 else if 0 < pos * f.signedSz then |pos| / |pos + f.signedSz| else 1

theorem kept_congr (h : f.signedSz = g.signedSz) : kept pos f = kept pos g := by
  have hopens : Opens pos f ↔ Opens pos g := by rw [Opens, Opens, h]
  rw [kept, kept, h]
  exact if_congr hopens rfl rfl

theorem kept_of_along (h : 0 < pos * f.signedSz) :
    kept pos f = |pos| / |pos + f.signedSz| := by
  have hopens : ¬Opens pos f := fun hopens => by
    have hsq := mul_self_nonneg pos
    have hle := hopens.1
    rw [mul_add] at hle
    linarith
  rw [kept, if_neg hopens, if_pos h]

theorem avgEntry_update_eq (s : WalletCoinState) (f : Fill) :
    (s.update f).avgEntry = kept s.netPos f * s.avgEntry + (1 - kept s.netPos f) * f.px := by
  by_cases hopens : Opens s.netPos f
  · rw [avgEntry_of_opens hopens, kept, if_pos hopens]
    ring
  by_cases halong : 0 < s.netPos * f.signedSz
  · have hgrow : Grows s f := by
      rcases pos_and_pos_or_neg_and_neg_of_mul_pos halong with ⟨hp, hd⟩ | ⟨hp, hd⟩
      · exact Or.inl ⟨hp.le, hd⟩
      · exact Or.inr ⟨hp.le, hd⟩
    have hnew : |s.netPos + f.signedSz| ≠ 0 := abs_ne_zero.mpr hgrow.newPos_ne_zero
    have habs : |s.netPos + f.signedSz| = |s.netPos| + |f.signedSz| :=
      (abs_add_eq_add_abs_iff _ _).mpr <| by
        rcases pos_and_pos_or_neg_and_neg_of_mul_pos halong with ⟨hp, hd⟩ | ⟨hp, hd⟩
        · exact Or.inl ⟨hp.le, hd.le⟩
        · exact Or.inr ⟨hp.le, hd.le⟩
    rw [avgEntry_of_grows hgrow, kept_of_along halong, habs]
    rw [habs] at hnew
    field_simp
    ring
  · have hgrow : ¬Grows s f := by
      intro hgrow
      refine hopens ⟨?_, hgrow.newPos_ne_zero⟩
      have hflat : s.netPos = 0 := by
        rcases hgrow with ⟨hp, hd⟩ | ⟨hp, hd⟩
        · exact le_antisymm (not_lt.mp fun hlt => halong (mul_pos hlt hd)) hp
        · exact le_antisymm hp (not_lt.mp fun hlt => halong (mul_pos_of_neg_of_neg hlt hd))
      rw [hflat, zero_mul]
    have hsame : 0 ≤ s.netPos * (s.netPos + f.signedSz) := not_lt.mp fun hneg =>
      hopens ⟨hneg.le, right_ne_zero_of_mul hneg.ne⟩
    rw [avgEntry_of_keeps hgrow hsame, kept, if_neg hopens, if_neg halong]
    ring

/-- What a run leaves of the price before it. -/
def keptBy : ℚ → List Fill → ℚ
  | _, [] => 1
  | pos, f :: fs => kept pos f * keptBy (pos + f.signedSz) fs

theorem avgEntry_sub_foldl (hpos : s.netPos = s'.netPos) (fs : List Fill) :
    (fs.foldl WalletCoinState.update s).avgEntry - (fs.foldl WalletCoinState.update s').avgEntry =
      keptBy s.netPos fs * (s.avgEntry - s'.avgEntry) := by
  induction fs generalizing s s' with
  | nil => simp [keptBy]
  | cons f fs ih =>
    have hnew : (s.update f).netPos = (s'.update f).netPos := by
      simp only [WalletCoinState.update_netPos, hpos]
    rw [List.foldl_cons, List.foldl_cons, ih hnew, avgEntry_update_eq, avgEntry_update_eq s',
      ← hpos, WalletCoinState.update_netPos, keptBy]
    ring

theorem kept_eq_zero_iff : kept pos f = 0 ↔ Opens pos f := by
  unfold kept
  by_cases hopens : Opens pos f
  · simp [hopens]
  rw [if_neg hopens]
  by_cases halong : 0 < pos * f.signedSz
  · have hpos : |pos| ≠ 0 := abs_ne_zero.mpr (left_ne_zero_of_mul halong.ne')
    have hnew : |pos + f.signedSz| ≠ 0 := by
      rw [abs_ne_zero]
      intro hzero
      have hd : f.signedSz = -pos := by linarith
      rw [hd, mul_neg] at halong
      linarith [mul_self_nonneg pos]
    rw [if_pos halong]
    exact iff_of_false (div_ne_zero hpos hnew) hopens
  · rw [if_neg halong]
    exact iff_of_false one_ne_zero hopens

theorem keptBy_eq_zero_iff {fs : List Fill} : keptBy pos fs = 0 ↔ Reopens pos fs := by
  induction fs generalizing pos with
  | nil => simp [keptBy, Reopens]
  | cons f fs ih => rw [keptBy, mul_eq_zero, kept_eq_zero_iff, ih, Reopens]

/-- **A run that opens a leg forgets the price before it.** -/
theorem SameCost.of_reopens {fs : List Fill} (hpos : s.netPos = s'.netPos)
    (h : Reopens s.netPos fs) :
    SameCost (fs.foldl WalletCoinState.update s) (fs.foldl WalletCoinState.update s') where
  netPos := by rw [netPos_foldl, netPos_foldl, hpos]
  avgEntry := by
    have hdiff := avgEntry_sub_foldl hpos fs
    rwa [keptBy_eq_zero_iff.mpr h, zero_mul, sub_eq_zero] at hdiff

/-- **A run that opens no leg remembers the price before it.** -/
theorem avgEntry_eq_of_not_reopens {fs : List Fill} (hpos : s.netPos = s'.netPos)
    (h : ¬Reopens s.netPos fs)
    (heq : (fs.foldl WalletCoinState.update s).avgEntry =
      (fs.foldl WalletCoinState.update s').avgEntry) : s.avgEntry = s'.avgEntry := by
  have hdiff := avgEntry_sub_foldl hpos fs
  rw [heq, sub_self, eq_comm, mul_eq_zero, sub_eq_zero] at hdiff
  exact hdiff.resolve_left fun hzero => h (keptBy_eq_zero_iff.mp hzero)

/-- A fill against the position that leaves it on its side keeps the price. -/
theorem kept_of_against {c : ℚ} (hpos : 0 < c * pos) (hd : c * f.signedSz < 0)
    (hnew : 0 ≤ c * (pos + f.signedSz)) : kept pos f = 1 := by
  have hc : 0 < c * c := mul_self_pos.mpr (left_ne_zero_of_mul hpos.ne')
  have hsame : 0 ≤ c * c * (pos * (pos + f.signedSz)) := by
    have hprod : c * c * (pos * (pos + f.signedSz)) = c * pos * (c * (pos + f.signedSz)) := by ring
    exact hprod ▸ mul_nonneg hpos.le hnew
  have hagainst : c * c * (pos * f.signedSz) < 0 := by
    have hprod : c * c * (pos * f.signedSz) = c * pos * (c * f.signedSz) := by ring
    exact hprod ▸ mul_neg_of_pos_of_neg hpos hd
  have hopens : ¬Opens pos f := fun hopens => by
    have hzero := le_antisymm hopens.1 (nonneg_of_mul_nonneg_right hsame hc)
    rcases mul_eq_zero.mp hzero with hflat | hflat
    · exact hpos.ne' (by rw [hflat, mul_zero])
    · exact hopens.2 hflat
  have halong : ¬0 < pos * f.signedSz := fun halong =>
    not_lt.mpr (mul_pos hc halong).le hagainst
  rw [kept, if_neg hopens, if_neg halong]

/-- A fill that goes in the direction of the position keeps the weight of the price. -/
theorem mul_kept_of_along {c : ℚ} (hpos : 0 < c * pos) (hd : 0 ≤ c * f.signedSz) :
    c * (pos + f.signedSz) * kept pos f = c * pos := by
  have hc : c ≠ 0 := left_ne_zero_of_mul hpos.ne'
  have hnew : 0 < c * (pos + f.signedSz) := by
    rw [mul_add]
    linarith
  have hkept : kept pos f = |pos| / |pos + f.signedSz| := by
    rcases eq_or_lt_of_le hd with hzero | hlt
    · have hsz : f.signedSz = 0 := (mul_eq_zero.mp hzero.symm).resolve_left hc
      have hopens : ¬Opens pos f := fun hopens => by
        rw [Opens, hsz, add_zero] at hopens
        exact hopens.2 (mul_self_eq_zero.mp (le_antisymm hopens.1 (mul_self_nonneg pos)))
      rw [kept, if_neg hopens, hsz, mul_zero, if_neg (lt_irrefl 0), add_zero,
        div_self (abs_ne_zero.mpr (right_ne_zero_of_mul hpos.ne'))]
    · refine kept_of_along ?_
      have hprod : c * c * (pos * f.signedSz) = c * pos * (c * f.signedSz) := by ring
      exact (mul_pos_iff_of_pos_left (mul_self_pos.mpr hc)).mp (hprod ▸ mul_pos hpos hlt)
  have hratio : |pos| / |pos + f.signedSz| = c * pos / (c * (pos + f.signedSz)) := by
    rw [← abs_of_pos hpos, ← abs_of_pos hnew, abs_mul, abs_mul,
      mul_div_mul_left _ _ (abs_ne_zero.mpr hc)]
  rw [hkept, hratio, mul_div_cancel₀ _ hnew.ne']

theorem kept_nonneg (pos : ℚ) (f : Fill) : 0 ≤ kept pos f := by
  unfold kept
  split
  · exact le_refl 0
  · split
    · exact div_nonneg (abs_nonneg _) (abs_nonneg _)
    · exact zero_le_one

/-- What weighs no more than the position after a fill, weighs no more than the position
    before it in what the fill keeps. -/
theorem mul_kept_le {c x : ℚ} (hpos : 0 ≤ c * pos)
    (hx : 0 ≤ c * (pos + f.signedSz) → x ≤ c * (pos + f.signedSz)) :
    x * kept pos f ≤ c * pos ∧
      (0 < c * pos →
        (x * kept pos f = c * pos ↔ 0 ≤ c * f.signedSz ∧ x = c * (pos + f.signedSz))) := by
  rcases eq_or_lt_of_le hpos with hflat | hopen
  · rw [← hflat]
    refine ⟨?_, fun h => absurd h (lt_irrefl 0)⟩
    by_cases hopens : Opens pos f
    · rw [kept_eq_zero_iff.mpr hopens, mul_zero]
    · -- nothing has happened, or nothing is weighed
      have hzero : c * (pos + f.signedSz) = 0 := by
        rcases mul_eq_zero.mp hflat.symm with rfl | rfl
        · exact zero_mul _
        · have hd : 0 + f.signedSz = 0 := by
            by_contra hd
            exact hopens ⟨by rw [zero_mul], hd⟩
          rw [hd, mul_zero]
      rw [hzero] at hx
      exact mul_nonpos_of_nonpos_of_nonneg (hx (le_refl 0)) (kept_nonneg pos f)
  rcases lt_or_ge (c * f.signedSz) 0 with hagainst | halong
  · have hlt : x * kept pos f < c * pos := by
      rcases lt_or_ge (c * (pos + f.signedSz)) 0 with hcross | hnew
      · have hneg : pos * (pos + f.signedSz) < 0 := mul_neg_of_opposite hopen hcross
        rwa [kept_eq_zero_iff.mpr ⟨hneg.le, right_ne_zero_of_mul hneg.ne⟩, mul_zero]
      · have hless : c * (pos + f.signedSz) < c * pos := by
          rw [mul_add]
          linarith
        rw [kept_of_against hopen hagainst hnew, mul_one]
        exact (hx hnew).trans_lt hless
    exact ⟨hlt.le, fun _ => iff_of_false hlt.ne fun h => not_lt.mpr h.1 hagainst⟩
  · have hweight := mul_kept_of_along hopen halong
    have hnew : 0 < c * (pos + f.signedSz) := by
      rw [mul_add]
      linarith
    have hkept : 0 < kept pos f := (mul_pos_iff_of_pos_left hnew).mp (hweight ▸ hopen)
    rw [← hweight]
    refine ⟨mul_le_mul_of_nonneg_right (hx hnew.le) hkept.le, fun _ => ?_⟩
    rw [mul_left_inj' hkept.ne', and_iff_right halong]

/-- **What is kept of a price weighs no more than the position that it was for**, and as
    much only if nothing was reduced. -/
theorem mul_keptBy_le {c : ℚ} {fs : List Fill} (hpos : 0 ≤ c * pos) :
    c * (pos + net fs) * keptBy pos fs ≤ c * pos ∧
      (0 < c * pos → (c * (pos + net fs) * keptBy pos fs = c * pos ↔
        ∀ f ∈ fs, 0 ≤ c * f.signedSz)) := by
  induction fs generalizing pos with
  | nil => simp [keptBy]
  | cons f fs ih =>
    have hsplit : c * (pos + net (f :: fs)) * keptBy pos (f :: fs) =
        c * (pos + f.signedSz + net fs) * keptBy (pos + f.signedSz) fs * kept pos f := by
      rw [net_cons, keptBy]
      ring
    rw [hsplit]
    obtain ⟨hle, hiff⟩ := mul_kept_le hpos fun hnew => (ih hnew).1
    refine ⟨hle, fun hopen => (hiff hopen).trans ?_⟩
    rw [List.forall_mem_cons]
    refine and_congr_right fun halong => (ih ?_).2 ?_ <;> rw [mul_add] <;> linarith

theorem Spent.not_opens (h : Spent pos f) : ¬Opens pos f := by
  rintro ⟨hle, hnew⟩
  have hflat : pos = 0 := (mul_eq_zero.mp (le_antisymm hle h.2)).resolve_right hnew
  exact left_ne_zero_of_mul h.1.ne hflat

/-- A fill of some size reduces the position, opens a leg, or goes in the direction of
    the position. -/
theorem spent_or_opens_or_along (pos : ℚ) (hd : f.signedSz ≠ 0) :
    Spent pos f ∨ Opens pos f ∨ 0 < f.signedSz * pos := by
  rcases lt_trichotomy (pos * f.signedSz) 0 with hneg | hzero | hpos
  · rcases le_or_gt 0 (pos * (pos + f.signedSz)) with hsame | hflip
    · exact Or.inl ⟨hneg, hsame⟩
    · exact Or.inr (Or.inl ⟨hflip.le, right_ne_zero_of_mul hflip.ne⟩)
  · have hflat : pos = 0 := (mul_eq_zero.mp hzero).resolve_right hd
    exact Or.inr (Or.inl ⟨by rw [hflat, zero_mul], by rwa [hflat, zero_add]⟩)
  · exact Or.inr (Or.inr (mul_comm pos _ ▸ hpos))

theorem kept_of_spent (h : Spent pos f) : kept pos f = 1 := by
  rw [kept, if_neg h.not_opens, if_neg h.1.not_gt]

/-- A fill that adds to the position weighs in the price as it does in the position. -/
theorem mul_one_sub_kept (hd : f.signedSz ≠ 0) (hpos : 0 ≤ f.signedSz * pos) :
    f.signedSz * (pos + f.signedSz) * (1 - kept pos f) = f.signedSz * f.signedSz := by
  rcases eq_or_lt_of_le hpos with hflat | hopen
  · have hzero : pos = 0 := (mul_eq_zero.mp hflat.symm).resolve_left hd
    have hopens : Opens pos f := ⟨by rw [hzero, zero_mul], by rwa [hzero, zero_add]⟩
    rw [kept_eq_zero_iff.mpr hopens, hzero, zero_add, sub_zero, mul_one]
  · rw [mul_sub, mul_one, mul_kept_of_along hopen (mul_self_nonneg _)]
    ring

theorem kept_eq_one_iff (hd : f.signedSz ≠ 0) : kept pos f = 1 ↔ Spent pos f := by
  refine ⟨fun hone => ?_, kept_of_spent⟩
  rcases spent_or_opens_or_along pos hd with hspent | hopens | halong
  · exact hspent
  · exact absurd (kept_eq_zero_iff.mpr hopens) (hone ▸ one_ne_zero)
  · have hweight := mul_one_sub_kept hd halong.le
    rw [hone, sub_self, mul_zero] at hweight
    exact absurd hweight.symm (mul_self_ne_zero.mpr hd)

/-- Fills that go in the direction of a position leave it on its side. -/
theorem mul_pos_of_along {a : Fill} {mid : List Fill} (hne : a.signedSz ≠ 0)
    (hpos : 0 ≤ a.signedSz * pos) (hmid : ∀ f ∈ mid, 0 ≤ a.signedSz * f.signedSz) :
    0 < a.signedSz * (pos + a.signedSz + net mid) := by
  have hsq : 0 < a.signedSz * a.signedSz := mul_self_pos.mpr hne
  have hnet := mul_net_nonneg hmid
  simp only [mul_add] at hpos ⊢
  linarith

/-- **A fill keeps its whole weight** in the price exactly if it and everything after it
    adds to the position. -/
theorem mul_keptBy_eq_iff {a : Fill} {mid : List Fill} (hne : a.signedSz ≠ 0) :
    a.signedSz * (pos + a.signedSz + net mid) * keptBy (pos + a.signedSz) mid *
        (1 - kept pos a) = a.signedSz * a.signedSz ↔
      0 ≤ a.signedSz * pos ∧ ∀ f ∈ mid, 0 ≤ a.signedSz * f.signedSz := by
  have hsq : 0 < a.signedSz * a.signedSz := mul_self_pos.mpr hne
  have hweight := @mul_keptBy_le (pos + a.signedSz) a.signedSz mid
  generalize a.signedSz * (pos + a.signedSz + net mid) * keptBy (pos + a.signedSz) mid = x
    at hweight ⊢
  by_cases hside : 0 ≤ a.signedSz * pos
  · have hfirst := mul_one_sub_kept hne hside
    have hopen : 0 < a.signedSz * (pos + a.signedSz) := by
      rw [mul_add]
      exact add_pos_of_nonneg_of_pos hside hsq
    have hshare : 1 - kept pos a ≠ 0 := fun hzero => by
      rw [hzero, mul_zero] at hfirst
      exact hsq.ne hfirst
    rw [← hfirst, mul_left_inj' hshare, (hweight hopen.le).2 hopen, and_iff_right hside]
  · refine iff_of_false (fun heq => ?_) fun h => hside h.1
    rcases spent_or_opens_or_along pos hne with hspent | hopens | hpos
    · rw [kept_of_spent hspent, sub_self, mul_zero] at heq
      exact hsq.ne heq
    · -- a leg that opens by a flip weighs less than the fill
      have hopen : 0 ≤ a.signedSz * (pos + a.signedSz) := by
        rcases opens_iff.mp hopens with ⟨hpos, hnew⟩ | ⟨hpos, hnew⟩
        · exact mul_nonneg (by linarith) hnew.le
        · exact mul_nonneg_of_nonpos_of_nonpos (by linarith) hnew.le
      have hle := (hweight hopen).1
      rw [kept_eq_zero_iff.mpr hopens, sub_zero, mul_one] at heq
      rw [heq, mul_add] at hle
      linarith
    · exact hside hpos.le

end FeatureStore
