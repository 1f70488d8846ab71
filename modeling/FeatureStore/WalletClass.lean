/-
  FeatureStore/WalletClass.lean
  =============================
  **How wallets are classified.**

  Every field of a `WalletState` but `last_ts` is a sum over its fills
  (`foldl_update`).  From this follow the invariants of the state, and what the
  classification does not depend on: the order of the fills, their sides, the
  unit of their sizes.  It is a function of three columns of the wallet's row
  (`archetype_eq_classify`), and `churn` is the maker share that `archetype`
  computes on its own (`churn_eq_makerShare`).
-/
import FeatureStore.IssuedRows
import FeatureStore.MirrorSymmetry
import FeatureStore.SnapshotBounds

namespace FeatureStore

/-- The archetype of a wallet with the given columns of `wallet_features`. -/
def classify (grossVolume netVolume churn : ℚ) : Archetype :=
  if grossVolume ≤ 0 then .mixed
  else if netVolume / grossVolume < 0.15 ∧ churn > 0.6 then .marketMaker
  else if netVolume / grossVolume > 0.4 then .directional
  else .mixed

namespace WalletState

/-! ### One state -/

section State

variable (s : WalletState)

/-- `maker_share` of `archetype`. -/
def makerShare : ℚ := s.closes / (if s.opens + s.closes ≠ 0 then s.opens + s.closes else 1 : ℕ)

/-- The two formulas agree, also where they guard a zero denominator. -/
theorem churn_eq_makerShare : s.churn = s.makerShare := by
  by_cases htot : s.opens + s.closes ≠ 0
  · simp only [churn, makerShare, if_pos htot]
  · have hcloses : s.closes = 0 := by omega
    have hchurn : s.churn = 0 := if_neg htot
    rw [hchurn, makerShare, hcloses, Nat.cast_zero, zero_div]

theorem churn_nonneg : 0 ≤ s.churn := by
  rw [churn_eq_makerShare]
  exact div_nonneg (Nat.cast_nonneg _) (Nat.cast_nonneg _)

theorem churn_le_one : s.churn ≤ 1 := by
  rw [churn_eq_makerShare, makerShare]
  apply div_le_one_of_le₀ _ (Nat.cast_nonneg _)
  apply Nat.cast_le.mpr
  split <;> omega

theorem archetype_eq_classify : s.archetype = classify s.grossVolume |s.signedVolume| s.churn := by
  rw [churn_eq_makerShare]
  rfl

/-- The classification depends on the two volumes through their ratio. -/
theorem classify_scale {c : ℚ} (hc : 0 < c) (grossVolume netVolume churn : ℚ) :
    classify (c * grossVolume) (c * netVolume) churn = classify grossVolume netVolume churn := by
  have hsign : c * grossVolume ≤ 0 ↔ grossVolume ≤ 0 := by
    constructor <;> intro h <;> nlinarith
  simp only [classify, hsign, mul_div_mul_left _ _ (ne_of_gt hc)]

end State

/-! ### Runs -/

theorem lastTs_cons (f : Fill) (fs : List Fill) (t : ℤ) :
    ((f :: fs).getLast?.map Fill.tsMs).getD t = (fs.getLast?.map Fill.tsMs).getD f.tsMs := by
  rw [List.getLast?_cons]
  cases fs.getLast? <;> rfl

/-- **The state is a sum over its fills**, and `last_ts` that of the last. -/
theorem foldl_update (s : WalletState) (fs : List Fill) :
    fs.foldl update s =
      { cumRealizedPnl := s.cumRealizedPnl + (fs.map Fill.closedPnl).sum
        totalFills := s.totalFills + fs.length
        grossVolume := s.grossVolume + (fs.map Fill.notional).sum
        signedVolume := s.signedVolume + (fs.map Fill.signedNotional).sum
        opens := s.opens + fs.countP fun f => f.crossed
        closes := s.closes + fs.countP fun f => !f.crossed
        lastTs := (fs.getLast?.map Fill.tsMs).getD s.lastTs } := by
  induction fs generalizing s with
  | nil => simp
  | cons f fs ih =>
    rw [List.foldl_cons, ih, lastTs_cons]
    cases hcrossed : f.crossed <;> simp [update, hcrossed, add_assoc, Nat.add_comm]

/-- The state of a fresh wallet after its fills. -/
def ofFills (fs : List Fill) : WalletState := fs.foldl update {}

theorem ofFills_eq (fs : List Fill) : ofFills fs =
    { cumRealizedPnl := (fs.map Fill.closedPnl).sum
      totalFills := fs.length
      grossVolume := (fs.map Fill.notional).sum
      signedVolume := (fs.map Fill.signedNotional).sum
      opens := fs.countP fun f => f.crossed
      closes := fs.countP fun f => !f.crossed
      lastTs := (fs.getLast?.map Fill.tsMs).getD 0 } := by
  rw [ofFills, foldl_update]
  simp only [zero_add]

theorem opens_add_closes (fs : List Fill) :
    (ofFills fs).opens + (ofFills fs).closes = (ofFills fs).totalFills := by
  simp only [ofFills_eq]
  simpa using (List.length_eq_countP_add_countP (fun f : Fill => f.crossed) (l := fs)).symm

theorem abs_signedVolume_le {fs : List Fill} (h : ∀ f ∈ fs, f.Nonneg) :
    |(ofFills fs).signedVolume| ≤ (ofFills fs).grossVolume := by
  simp only [ofFills_eq]
  exact Concentration.abs_sum_map_le fun f hf =>
    le_of_eq (Fill.abs_signedNotional (h f hf).notional)

/-- The fields that are sums, of two sequences one after the other. -/
structure IsSum (u s t : WalletState) : Prop where
  cumRealizedPnl : u.cumRealizedPnl = s.cumRealizedPnl + t.cumRealizedPnl
  totalFills : u.totalFills = s.totalFills + t.totalFills
  grossVolume : u.grossVolume = s.grossVolume + t.grossVolume
  signedVolume : u.signedVolume = s.signedVolume + t.signedVolume
  opens : u.opens = s.opens + t.opens
  closes : u.closes = s.closes + t.closes

theorem isSum_append (fs more : List Fill) :
    IsSum (ofFills (fs ++ more)) (ofFills fs) (ofFills more) := by
  constructor <;> simp [ofFills_eq]

/-! ### What the classification does not depend on -/

/-- The fields of a state that do not depend on the order of the fills. -/
theorem ofFills_perm {fs fs' : List Fill} (h : fs.Perm fs') :
    ofFills fs = { ofFills fs' with lastTs := (ofFills fs).lastTs } := by
  simp only [ofFills_eq, (h.map _).sum_eq, h.length_eq, h.countP_eq]

theorem archetype_perm {fs fs' : List Fill} (h : fs.Perm fs') :
    (ofFills fs).archetype = (ofFills fs').archetype := by
  rw [ofFills_perm h]
  rfl

theorem ofFills_mirror (fs : List Fill) : ofFills (fs.map Fill.mirror) = (ofFills fs).mirror := by
  induction fs using List.reverseRecOn with
  | nil => simp [ofFills, mirror]
  | append_singleton fs f ih =>
    unfold ofFills at ih ⊢
    rw [List.map_append, List.foldl_append, ih, List.foldl_append]
    exact update_mirror _ f

end WalletState

/-- The same fill in another unit of size. -/
def Fill.scaleSz (c : ℚ) (f : Fill) : Fill := { f with sz := c * f.sz }

namespace WalletState

theorem notional_scaleSz (c : ℚ) (f : Fill) : (f.scaleSz c).notional = c * f.notional :=
  mul_left_comm f.px c f.sz

theorem signedNotional_scaleSz (c : ℚ) (f : Fill) :
    (f.scaleSz c).signedNotional = c * f.signedNotional := by
  have hside : (f.scaleSz c).isBuy = f.isBuy := rfl
  rw [Fill.signedNotional, notional_scaleSz, hside, Fill.signedNotional, mul_ite, mul_neg]

theorem archetype_scaleSz {c : ℚ} (hc : 0 < c) (fs : List Fill) :
    (ofFills (fs.map (Fill.scaleSz c))).archetype = (ofFills fs).archetype := by
  have hgross : (ofFills (fs.map (Fill.scaleSz c))).grossVolume = c * (ofFills fs).grossVolume := by
    simp only [ofFills_eq, List.map_map, Function.comp_def, notional_scaleSz, List.sum_map_mul_left]
  have hsigned : (ofFills (fs.map (Fill.scaleSz c))).signedVolume =
      c * (ofFills fs).signedVolume := by
    simp only [ofFills_eq, List.map_map, Function.comp_def, signedNotional_scaleSz,
      List.sum_map_mul_left]
  have hchurn : (ofFills (fs.map (Fill.scaleSz c))).churn = (ofFills fs).churn := by
    simp only [ofFills_eq, churn, List.countP_map]
    rfl
  rw [archetype_eq_classify, archetype_eq_classify, hgross, hsigned, hchurn, abs_mul,
    abs_of_pos hc, classify_scale hc]

end WalletState

/-! ### Rows -/

/-- The state that the engine keeps of a wallet. -/
theorem exists_ofFills {p : List Fill} {addr : String} {w : WalletState}
    (h : (FeatureEngine.after p).wallets.get? addr = some w) :
    w = WalletState.ofFills (Grouping.group Fill.addr addr p) := by
  rw [FeatureEngine.after_wallets_get?] at h
  split at h
  · cases h
  · exact (Option.some.inj h).symm

/-- Every wallet row that describes a run classifies itself. -/
theorem walletRow_of_describes {p : List Fill} (hp : ∀ f ∈ p, f.Nonneg) {r : WalletRow}
    (h : Describes p (.wallet r)) :
    r.netVolume ≤ r.grossVolume ∧ r.archetype = classify r.grossVolume r.netVolume r.churn := by
  obtain ⟨w, hw, hr⟩ := h
  have hrow := Row.wallet.inj hr
  have hnet : r.netVolume = |w.signedVolume| := congrArg WalletRow.netVolume hrow
  have hgross : r.grossVolume = w.grossVolume := congrArg WalletRow.grossVolume hrow
  have hchurn : r.churn = w.churn := congrArg WalletRow.churn hrow
  have harchetype : r.archetype = w.archetype := congrArg WalletRow.archetype hrow
  rw [hnet, hgross, hchurn, harchetype]
  refine ⟨?_, w.archetype_eq_classify⟩
  rw [exists_ofFills hw]
  exact WalletState.abs_signedVolume_le fun f hf => hp f ((Grouping.mem_group _).mp hf).1

/-- **Wallet classification.**  For every sequence of fills with nonnegative
    prices and sizes:

    * opens and closes add up to the fills, the net volume is at most the gross
      volume, and churn is a share, the one that `archetype` compares;
    * the archetype does not depend on the order of the fills, nor on which side
      is called the buying one, nor on the unit of size;
    * every field but `last_ts` is additive.

    Every row of `wallet_features` that the consumer issues has a net volume of
    at most its gross volume, and the archetype that its own columns determine.

    The thresholds are those of exact arithmetic: the source's floats can sum up to
    the other side of one. -/
theorem wallet_classification :
    (∀ fs : List Fill, (∀ f ∈ fs, f.Nonneg) →
      let s := WalletState.ofFills fs
      s.opens + s.closes = s.totalFills ∧
      |s.signedVolume| ≤ s.grossVolume ∧
      (0 ≤ s.churn ∧ s.churn ≤ 1) ∧
      s.churn = s.makerShare ∧
      (∀ fs', fs'.Perm fs → (WalletState.ofFills fs').archetype = s.archetype) ∧
      (WalletState.ofFills (fs.map Fill.mirror)).archetype = s.archetype ∧
      (∀ c > 0, (WalletState.ofFills (fs.map (Fill.scaleSz c))).archetype = s.archetype) ∧
      ∀ more, WalletState.IsSum (WalletState.ofFills (fs ++ more)) s (WalletState.ofFills more)) ∧
    (∀ (args : Args) (start : ℚ) (inputs : List (Fill × ℚ)), (∀ input ∈ inputs, input.1.Nonneg) →
      ∀ r, Row.wallet r ∈ Consumer.run args start inputs →
        r.netVolume ≤ r.grossVolume ∧
        r.archetype = classify r.grossVolume r.netVolume r.churn) := by
  constructor
  · intro fs hfs s
    refine ⟨WalletState.opens_add_closes fs, WalletState.abs_signedVolume_le hfs,
      ⟨s.churn_nonneg, s.churn_le_one⟩, s.churn_eq_makerShare, ?_, ?_, ?_, ?_⟩
    · exact fun fs' hperm => WalletState.archetype_perm hperm
    · rw [WalletState.ofFills_mirror]
      exact WalletState.mirror_archetype _
    · exact fun c hc => WalletState.archetype_scaleSz hc fs
    · exact fun more => WalletState.isSum_append fs more
  · intro args start inputs hinputs r hr
    obtain ⟨p, hp, hdesc⟩ := (Consumer.run_issues args start inputs).inOrder.describes _ hr
    refine walletRow_of_describes ?_ hdesc
    intro f hf
    obtain ⟨input, hinput, rfl⟩ := List.mem_map.mp (hp.subset hf)
    exact hinputs input hinput

/-- Three fills of a wallet that mostly provides liquidity on both sides. -/
theorem wallet_classification_market_maker :
    (WalletState.ofFills [⟨"w", "BTC", 100, 1, .B, 0, 0, false⟩, ⟨"w", "BTC", 100, 1, .A, 1, 0, false⟩,
      ⟨"w", "ETH", 10, 2, .B, 2, 0, true⟩]).archetype = .marketMaker ∧
    (WalletState.ofFills [⟨"w", "BTC", 100, 1, .A, 1, 0, false⟩, ⟨"w", "BTC", 100, 1, .B, 0, 0, false⟩,
      ⟨"w", "ETH", 10, 2, .B, 2, 0, true⟩]).archetype = .marketMaker := by
  have hclass : (WalletState.ofFills [⟨"w", "BTC", 100, 1, .B, 0, 0, false⟩,
      ⟨"w", "BTC", 100, 1, .A, 1, 0, false⟩,
      ⟨"w", "ETH", 10, 2, .B, 2, 0, true⟩]).archetype = .marketMaker := by decide +kernel
  refine ⟨hclass, ?_⟩
  have h := wallet_classification.1 [⟨"w", "BTC", 100, 1, .B, 0, 0, false⟩,
    ⟨"w", "BTC", 100, 1, .A, 1, 0, false⟩, ⟨"w", "ETH", 10, 2, .B, 2, 0, true⟩] (by decide +kernel)
  exact (h.2.2.2.2.1 _ (List.Perm.swap _ _ _)).trans hclass

end FeatureStore
