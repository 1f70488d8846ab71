/-
  FeatureStore/PointInTime.lean
  =============================
  **What a closing snapshot depends on.**

  A bucket is closed by a later fill, and rendered with the wallet map that
  already contains that fill.  Two runs that agree up to the end of a bucket give
  it the same fills, so that their closing snapshots agree in every column that
  is computed from the bucket (`closing_snapshot_point_in_time`).  The column
  `smart_flow` also reads the wallets as they are when the bucket closes, and so
  what they have traded since it ended (`closing_snapshot_look_ahead`).
-/
import FeatureStore.OpenWindows
import FeatureStore.SnapshotBounds

namespace FeatureStore

open Grouping (group)
open FeatureEngine (after emitted emitted_snoc)

/-- Net flow of the batch's wallets, each weighted by its state in a wallet map. -/
def Batch.smartFlow (l : List Fill) (states : Dict String WalletState) : ℚ :=
  ∑ a ∈ wallets l, flow l a * walletWeight (states.get? a)

/-- The fills before the end of the window of `win` that starts at `t`. -/
def beforeEnd (win : Window) (t : ℤ) (fs : List Fill) : List Fill :=
  fs.filter fun f => f.sec < t + win.size

/-- The last fill of `q` closes a bucket, with the given snapshot. -/
def ClosedBy (q : List Fill) (c : WindowSnapshot) : Prop :=
  ∃ p f, q = p ++ [f] ∧ c ∈ ((after p).apply f).2.closed

/-- Every closing snapshot of a run is closed by some prefix. -/
theorem exists_closedBy {fs : List Fill} {c : WindowSnapshot} (h : c ∈ emitted fs) :
    ∃ q, q <+: fs ∧ ClosedBy q c := by
  induction fs using List.reverseRecOn with
  | nil => exact absurd h List.not_mem_nil
  | append_singleton fs f ih =>
    rw [emitted_snoc] at h
    rcases List.mem_append.mp h with h | h
    · obtain ⟨q, hq, hclosed⟩ := ih h
      exact ⟨q, hq.trans (List.prefix_append _ _), hclosed⟩
    · exact ⟨fs ++ [f], List.prefix_refl _, fs, f, rfl, h⟩

/-! ### The fills before the end -/

section Closing

variable {fs q : List Fill} {coin : String} {win : Window} {s : Snapshot} {t : ℤ}

/-- A closed bucket is that of its batch, rendered with the wallets of the
    prefix that closes it. -/
theorem ClosedBy.snapshot_eq (h : ClosedBy q (coin, win, s)) (hq : q <+: fs) :
    s = (Bucket.ofFills s.bucketTs (batch fs coin win s.bucketTs)).snapshot
      (some (after q).wallets) := by
  obtain ⟨p, f, rfl, hclosed⟩ := h
  obtain ⟨bucket, hcoin, hbucket, rfl⟩ := FeatureEngine.mem_apply_closed.mp hclosed
  obtain ⟨more, rfl⟩ := hq
  have hpane : bucket ∈ win.tumbling.panes (group Fill.coin coin (p ++ [f] ++ more)) := by
    apply List.mem_append_left
    rw [Grouping.group_append, Tumbling.closed, Tumbling.closedFrom_append, ← Tumbling.closed,
      Grouping.group_snoc, if_pos hcoin, Tumbling.closed_snoc, hbucket]
    exact List.mem_append_left _ (List.mem_append_right _ (List.mem_singleton.mpr rfl))
  have hfills := panes_ofFills hpane
  have hts : (bucket.snapshot (some (after (p ++ [f])).wallets)).bucketTs = bucket.bucketTs := rfl
  rw [hts, ← hfills]

/-- The closing fill lies past the end of the bucket. -/
theorem ClosedBy.end_le_sec (h : ClosedBy q (coin, win, s)) :
    ∃ f ∈ q.getLast?, s.bucketTs + win.size ≤ f.sec := by
  obtain ⟨p, f, rfl, hclosed⟩ := h
  obtain ⟨bucket, _, hbucket, rfl⟩ := FeatureEngine.mem_apply_closed.mp hclosed
  refine ⟨f, by simp, ?_⟩
  cases hcur : win.tumbling.current (group Fill.coin coin p) with
  | none =>
    rw [hcur] at hbucket
    cases hbucket
  | some cur =>
    rw [hcur] at hbucket
    rcases win.tumbling.advance_cases cur f with ⟨_, _, hclose⟩ | ⟨hlt, _, hclose⟩ | ⟨_, _, hclose⟩
    · rw [hclose] at hbucket
      cases hbucket
    · rw [hclose] at hbucket
      cases hbucket
      have hdvd : win.size ∣ bucket.bucketTs :=
        dvd_bucketTs (List.mem_append_right _ (Option.mem_toList.mpr hcur))
      exact win.add_size_le hdvd hlt
    · rw [hclose] at hbucket
      cases hbucket

/-- The fills before the end have all been applied when the bucket closes. -/
theorem ClosedBy.beforeEnd_eq (h : ClosedBy q (coin, win, s)) (hq : q <+: fs)
    (hsorted : Fill.TimeSorted fs) : beforeEnd win s.bucketTs q = beforeEnd win s.bucketTs fs := by
  obtain ⟨f, hf, hend⟩ := h.end_le_sec
  obtain ⟨more, rfl⟩ := hq
  have hlate : beforeEnd win s.bucketTs more = [] := by
    rw [beforeEnd, List.filter_eq_nil_iff]
    intro g hg hlt
    have hle : f.sec ≤ g.sec := Fill.sec_le_sec
      ((List.pairwise_append.mp hsorted).2.2 f (List.mem_of_getLast? hf) g hg)
    exact absurd (of_decide_eq_true hlt) (not_lt.mpr (hend.trans hle))
  rw [beforeEnd, beforeEnd, List.filter_append, ← beforeEnd, ← beforeEnd, hlate, List.append_nil]

/-- In a stream ordered by time the batch of a window consists of fills before
    its end. -/
theorem batch_eq_of_beforeEnd (hsorted : Fill.TimeSorted fs) :
    batch fs coin win t = group (windowStart win) t (group Fill.coin coin (beforeEnd win t fs)) := by
  have hwin : win.tumbling.Sorted (group Fill.coin coin fs) :=
    win.sorted_of_timeSorted (hsorted.sublist (Grouping.group_sublist _ _ _))
  have hcounted := win.tumbling.counted_of_sorted hwin t
  rw [batch, hcounted, Window.tumbling_startOf]
  simp only [group, beforeEnd, List.filter_filter]
  apply List.filter_congr
  intro f _
  by_cases hstart : windowStart win f = t
  · have hlt : f.sec < t + win.size := hstart ▸ win.lt_floor_add f.sec
    simp [hstart, hlt]
  · simp [hstart]

/-- A wallet that has not traded since the end of the bucket is in the state
    that the fills before the end give it. -/
theorem ClosedBy.wallet_eq (h : ClosedBy q (coin, win, s)) (hq : q <+: fs)
    (hsorted : Fill.TimeSorted fs) {a : String}
    (hquiet : ∀ f ∈ q, f.addr = a → f.sec < s.bucketTs + win.size) :
    (after q).wallets.get? a = (after (beforeEnd win s.bucketTs fs)).wallets.get? a := by
  have hgroup : group Fill.addr a q = group Fill.addr a (beforeEnd win s.bucketTs q) := by
    rw [group, group, beforeEnd, List.filter_filter]
    apply List.filter_congr
    intro f hf
    by_cases ha : f.addr = a
    · simp [ha, hquiet f hf ha]
    · simp [ha]
  rw [FeatureEngine.after_wallets_get?, FeatureEngine.after_wallets_get?, hgroup,
    h.beforeEnd_eq hq hsorted]

end Closing

/-! ### Two runs -/

/-- **Point-in-time columns.**  Let two streams ordered by time have the same
    fills before the end of a window, and let both close its bucket.  Then

    * the closing snapshots agree in every column but `smart_flow`;
    * `smart_flow` weights the bucket's flows by the wallets as they are right
      after the closing fill, so that the snapshots are equal when these weights
      are, and in particular when no wallet of the bucket has traded since the
      end of the bucket. -/
theorem closing_snapshot_point_in_time (coin : String) (win : Window) (t : ℤ) (fs fs' : List Fill)
    (hsorted : Fill.TimeSorted fs) (hsorted' : Fill.TimeSorted fs')
    (hbefore : beforeEnd win t fs = beforeEnd win t fs') (s s' : Snapshot)
    (hs : (coin, win, s) ∈ emitted fs) (hs' : (coin, win, s') ∈ emitted fs')
    (ht : s.bucketTs = t) (ht' : s'.bucketTs = t) :
    s' = { s with smartFlow := s'.smartFlow } ∧
    ∃ q q', (q <+: fs ∧ ClosedBy q (coin, win, s)) ∧ (q' <+: fs' ∧ ClosedBy q' (coin, win, s')) ∧
      s.smartFlow = Batch.smartFlow (batch fs coin win t) (after q).wallets ∧
      s'.smartFlow = Batch.smartFlow (batch fs coin win t) (after q').wallets ∧
      ((∀ a ∈ Batch.wallets (batch fs coin win t),
          walletWeight ((after q).wallets.get? a) = walletWeight ((after q').wallets.get? a)) →
        s = s') ∧
      ((∀ f ∈ q ++ q', f.addr ∈ Batch.wallets (batch fs coin win t) → f.sec < t + win.size) →
        s = s') := by
  obtain ⟨q, hq, hclosed⟩ := exists_closedBy hs
  obtain ⟨q', hq', hclosed'⟩ := exists_closedBy hs'
  have hbatch : batch fs' coin win t = batch fs coin win t := by
    rw [batch_eq_of_beforeEnd hsorted, batch_eq_of_beforeEnd hsorted', hbefore]
  have heq := hclosed.snapshot_eq hq
  have heq' := hclosed'.snapshot_eq hq'
  rw [ht] at heq
  rw [ht', hbatch] at heq'
  have hcolumns : s' = { s with smartFlow := s'.smartFlow } := by
    rw [heq, heq']
    rfl
  have hflow : s.smartFlow = Batch.smartFlow (batch fs coin win t) (after q).wallets :=
    (congrArg Snapshot.smartFlow heq).trans (Bucket.snapshot_smartFlow _ _ _)
  have hflow' : s'.smartFlow = Batch.smartFlow (batch fs coin win t) (after q').wallets :=
    (congrArg Snapshot.smartFlow heq').trans (Bucket.snapshot_smartFlow _ _ _)
  have hweights : (∀ a ∈ Batch.wallets (batch fs coin win t),
      walletWeight ((after q).wallets.get? a) = walletWeight ((after q').wallets.get? a)) →
      s = s' := by
    intro hagree
    have hsame : s'.smartFlow = s.smartFlow := by
      rw [hflow, hflow']
      exact Finset.sum_congr rfl fun a ha => by rw [hagree a ha]
    rw [hcolumns, hsame]
  refine ⟨hcolumns, q, q', ⟨hq, hclosed⟩, ⟨hq', hclosed'⟩, hflow, hflow', hweights, ?_⟩
  intro hquiet
  subst ht
  apply hweights
  intro a ha
  have hown := hclosed.wallet_eq hq hsorted (a := a) fun f hf haddr =>
    hquiet f (List.mem_append_left _ hf) (haddr ▸ ha)
  have hown' := hclosed'.wallet_eq hq' hsorted' (a := a) fun f hf haddr =>
    ht'.symm ▸ hquiet f (List.mem_append_right _ hf) (haddr ▸ ha)
  rw [hown, hown', ht', hbefore]

/-- A fill, and the fill that closes its minute with some PnL. -/
def closingFills (closer : String) (closedPnl : ℚ) : List Fill :=
  [⟨"w", "BTC", 100, 1, .B, 0, 0, true⟩, ⟨closer, "BTC", 100, 1, .B, 60000, closedPnl, true⟩]

/-- The PnL of the closing fill changes the weight of the bucket's wallet. -/
theorem closing_snapshot_look_ahead :
    ¬∀ (coin : String) (win : Window) (t : ℤ) (fs fs' : List Fill),
      Fill.TimeSorted fs → Fill.TimeSorted fs' → beforeEnd win t fs = beforeEnd win t fs' →
      ∀ s s', (coin, win, s) ∈ emitted fs → (coin, win, s') ∈ emitted fs' →
        s.bucketTs = t → s'.bucketTs = t → s = s' := by
  intro h
  have heq := h "BTC" .m1 0 (closingFills "w" 1) (closingFills "v" 1) (by decide) (by decide)
    (by decide +kernel) ⟨0, 100, 100, 0, 1, 1, 1, 0, 100⟩ ⟨0, 100, 100, 0, 1, 1, 1, 0, 25⟩
    (by decide +kernel) (by decide +kernel) rfl rfl
  exact absurd (congrArg Snapshot.smartFlow heq) (by decide +kernel)

/-- The two final rows differ in that column only. -/
theorem closing_snapshot_point_in_time_two_closers :
    (⟨0, 100, 100, 0, 1, 1, 1, 0, 25⟩ : Snapshot) =
      { (⟨0, 100, 100, 0, 1, 1, 1, 0, 100⟩ : Snapshot) with smartFlow := 25 } :=
  (closing_snapshot_point_in_time "BTC" .m1 0 (closingFills "w" 1) (closingFills "v" 1) (by decide)
    (by decide) (by decide +kernel) ⟨0, 100, 100, 0, 1, 1, 1, 0, 100⟩
    ⟨0, 100, 100, 0, 1, 1, 1, 0, 25⟩ (by decide +kernel) (by decide +kernel) rfl rfl).1

end FeatureStore
